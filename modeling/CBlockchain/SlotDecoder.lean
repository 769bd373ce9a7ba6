import CBlockchain.Decoders
import CBlockchain.Ingestion

/-! `deserialize_data_from_server` as the client's loop calls it, on the slot of the count.
Every slot has 512 bytes for the message throughout a run; how many bytes are written to it
is up to the frame. -/
namespace CBlockchain.SlotDecoder
open ClientLoop Copying Decoders ReceiveLoop

/-- Decoding into the slot of the count, access by access. -/
def store (codec : Codec) (data : List UInt8) (cl : Client) : Traced DecodeEvent Client := do
  let slot ← .lift cl.msgArr[cl.count]?
  let slot ← deserializeDataFromServer codec data slot
  pure { cl with msgArr := cl.msgArr.set cl.count slot, stored := cl.stored + 1 }

theorem store_result (codec : Codec) (data : List UInt8) (cl : Client) :
    (store codec data cl).result = ReceiveLoop.store codec data cl := by
  rw [store, ReceiveLoop.store]
  cases cl.msgArr[cl.count]? with
  | none => rfl
  | some slot =>
    simp only [Traced.lift_some, Traced.result_bind, deserializeDataFromServer_result,
      Traced.pure_eq, Option.bind_eq_bind, Option.bind_some]

/-- The transaction is no longer than a slot, the key no shorter than the copy of it. -/
structure Fits (m : IpcMessage) : Prop where
  transaction : ∀ data, m.transactionMsg = some data → data.length ≤ 512
  pubkey : ∀ key, m.pubkey = some key → 32 ≤ key.length

/-- Every copy stays inside the slot and inside the field it reads, and the other slots are
as before. -/
structure StaysInSlot (cl : Client) (r : Traced DecodeEvent Client) : Prop where
  inBounds : ∀ c, .copy c ∈ r.trace → c.InBounds
  others : ∃ cl', r.result = some cl' ∧ ∀ j, j ≠ cl.count → cl'.msgArr[j]? = cl.msgArr[j]?

section Slot
variable {codec : Codec} {frame : List UInt8} {m : IpcMessage} {slot slot' : SignedMessage}

theorem copyPubkey_message {key : Option (List UInt8)}
    (h : Serdes.copyPubkey slot key = some slot') : slot'.message = slot.message := by
  cases key with
  | none => rw [← Option.some.inj h]
  | some key => exact (Serdes.copyPubkey_spec h).2.1

theorem copyTransaction_message {data : Option (List UInt8)}
    (h : Serdes.copyTransaction slot data = some slot') :
    slot'.message.length = slot.message.length := by
  cases data with
  | none => rw [← Option.some.inj h]
  | some data => exact (Serdes.copyTransaction_spec h).2.2.2

/-- A slot keeps its room. -/
theorem deserialize_room (h : Serdes.deserializeDataFromServer codec frame slot = some slot') :
    slot'.message.length = slot.message.length := by
  simp only [Serdes.deserializeDataFromServer, Option.bind_eq_bind, Option.bind_eq_some_iff] at h
  obtain ⟨m, -, slot₁, hkey, hdata⟩ := h
  rw [copyTransaction_message hdata, copyPubkey_message hkey]

theorem copyKey_trace (slot : SignedMessage) (key : Option (List UInt8)) (c : Copy) :
    .copy c ∈ (copyKey slot key).trace ↔ ∃ k, key = some k ∧ c = ⟨32, 32, k.length⟩ := by
  cases key with
  | none => simp [copyKey]
  | some key =>
    rw [copyKey]
    cases Serdes.copyPubkey slot (some key) <;> simp

theorem copyData_trace (slot : SignedMessage) (data : Option (List UInt8)) (c : Copy) :
    .copy c ∈ (copyData slot data).trace ↔
      ∃ d, data = some d ∧ c = ⟨d.length, slot.message.length, d.length⟩ := by
  cases data with
  | none => simp [copyData]
  | some data =>
    rw [copyData]
    cases Serdes.copyTransaction slot (some data) <;> simp

theorem copyPubkey_returns (slot : SignedMessage) {key : Option (List UInt8)}
    (h : ∀ k, key = some k → 32 ≤ k.length) : ∃ slot', Serdes.copyPubkey slot key = some slot' := by
  cases key with
  | none => exact ⟨slot, rfl⟩
  | some key => exact ⟨_, dif_pos (h key rfl)⟩

theorem copyTransaction_returns {data : Option (List UInt8)}
    (h : ∀ d, data = some d → d.length ≤ slot.message.length) :
    ∃ slot', Serdes.copyTransaction slot data = some slot' := by
  cases data with
  | none => exact ⟨slot, rfl⟩
  | some data => exact ⟨_, dif_pos (h data rfl)⟩

/-- The copies a frame leads to, into a slot of 512 bytes. -/
theorem deserialize_copies (h : codec.unpack frame = some m) (hroom : slot.message.length = 512) :
    (∀ c, .copy c ∈ (deserializeDataFromServer codec frame slot).trace → c.InBounds) ↔ Fits m := by
  have hderef : deref (codec.unpack frame) = ⟨[.field], some m⟩ := by
    rw [h]
    rfl
  rw [deserializeDataFromServer, hderef]
  constructor
  · intro hin
    have hkey : ∀ key, m.pubkey = some key → 32 ≤ key.length := by
      intro key hkey
      refine (hin ⟨32, 32, key.length⟩ ?_).2
      apply Traced.mem_bind_right rfl
      apply Traced.mem_bind_left
      exact (copyKey_trace slot m.pubkey _).mpr ⟨key, hkey, rfl⟩
    refine ⟨?_, hkey⟩
    intro data hdata
    obtain ⟨slot₁, hslot₁⟩ := copyPubkey_returns slot hkey
    have hroom₁ : slot₁.message.length = 512 := by rw [copyPubkey_message hslot₁, hroom]
    have hmem := (copyData_trace slot₁ m.transactionMsg _).mpr ⟨data, hdata, rfl⟩
    rw [hroom₁] at hmem
    refine (hin ⟨data.length, 512, data.length⟩ ?_).1
    apply Traced.mem_bind_right rfl
    exact Traced.mem_bind_right ((copyKey_result slot m.pubkey).trans hslot₁) hmem
  · intro hfits c hmem
    rcases Traced.mem_bind hmem with hmem | ⟨m', hm', hmem⟩
    · simp at hmem
    obtain rfl : m = m' := Option.some.inj hm'
    rcases Traced.mem_bind hmem with hmem | ⟨slot₁, hslot₁, hmem⟩
    · obtain ⟨key, hkey, rfl⟩ := (copyKey_trace slot m.pubkey c).mp hmem
      exact ⟨le_rfl, hfits.pubkey key hkey⟩
    · obtain ⟨data, hdata, rfl⟩ := (copyData_trace slot₁ m.transactionMsg c).mp hmem
      rw [copyKey_result] at hslot₁
      refine ⟨?_, le_rfl⟩
      rw [copyPubkey_message hslot₁, hroom]
      exact hfits.transaction data hdata

theorem deserialize_returns (h : codec.unpack frame = some m) (hroom : slot.message.length = 512)
    (hfits : Fits m) : ∃ slot', Serdes.deserializeDataFromServer codec frame slot = some slot' := by
  obtain ⟨slot₁, hslot₁⟩ := copyPubkey_returns slot hfits.pubkey
  have hroom₁ : slot₁.message.length = 512 := by rw [copyPubkey_message hslot₁, hroom]
  have hdata : ∀ d, m.transactionMsg = some d → d.length ≤ slot₁.message.length := by
    rw [hroom₁]
    exact hfits.transaction
  obtain ⟨slot₂, hslot₂⟩ := copyTransaction_returns hdata
  refine ⟨slot₂, ?_⟩
  simp only [Serdes.deserializeDataFromServer, h, Option.bind_eq_bind, Option.bind_some, hslot₁,
    hslot₂]

end Slot

section Loop
variable {pf : ClientPlatform} {codec : Codec} {frame : List UInt8} {m : IpcMessage} {cl : Client}
  {t : Turn} {st st' : ClientState}

/-- Every slot has 512 bytes for its message. -/
def Roomy (cl : Client) : Prop := ∀ slot ∈ cl.msgArr, slot.message.length = 512

theorem store_staysInSlot (hcount : cl.count < cl.msgArr.length) (hroom : Roomy cl)
    (h : codec.unpack frame = some m) : StaysInSlot cl (store codec frame cl) ↔ Fits m := by
  have hget : cl.msgArr[cl.count]? = some cl.msgArr[cl.count] := List.getElem?_eq_getElem hcount
  have hslot : cl.msgArr[cl.count].message.length = 512 := hroom _ (List.getElem_mem hcount)
  constructor
  · intro hs
    apply (deserialize_copies h hslot).mp
    intro c hmem
    apply hs.inBounds c
    rw [store, hget]
    exact Traced.mem_bind_right rfl (Traced.mem_bind_left _ hmem)
  · intro hfits
    refine ⟨?_, ?_⟩
    · intro c hmem
      apply (deserialize_copies h hslot).mpr hfits c
      rw [store, hget] at hmem
      rcases Traced.mem_bind hmem with hmem | ⟨slot, hs, hmem⟩
      · simp at hmem
      · obtain rfl : cl.msgArr[cl.count] = slot := Option.some.inj hs
        rcases Traced.mem_bind hmem with hmem | ⟨slot', -, hmem⟩
        · exact hmem
        · simp at hmem
    · obtain ⟨slot', hdes⟩ := deserialize_returns h hslot hfits
      rw [store_result, ReceiveLoop.store, hget]
      simp only [Option.bind_eq_bind, Option.bind_some, hdes]
      refine ⟨_, rfl, ?_⟩
      intro j hj
      exact List.getElem?_set_ne (Ne.symm hj)

theorem Handled.roomy {cl' : Client} {data : List UInt8} {status : Status} (hroom : Roomy cl)
    (h : Handled codec data cl cl' status) : Roomy cl' := by
  intro x hx
  rcases h.slots with harr | ⟨slot, slot', hslot, hdes, harr⟩
  · rw [harr] at hx
    exact hroom x hx
  · rw [harr] at hx
    rcases List.mem_or_eq_of_mem_set hx with hx | rfl
    · exact hroom x hx
    · rw [deserialize_room hdes]
      exact hroom slot (List.mem_of_getElem? hslot)

theorem turn_roomy (hroom : Roomy st.loop) (ht : frameTurn pf t st = some st') :
    Roomy st'.loop := by
  cases frameTurn_done ht with
  | waits => exact hroom
  | handled status phase read hd => exact Handled.roomy hroom hd
  | finished status cl block phase read hd phase' done =>
    intro slot hslot
    rw [(assembleBlock_spec done).2.2.2] at hslot
    exact Handled.roomy hroom hd slot hslot

theorem run_roomy {ts : List Turn} (hrun : runTurns pf ts = some st) : Roomy st.loop := by
  apply runTurns_invariant (P := fun _ st => Roomy st.loop) _ _ hrun
  · intro slot hslot
    rw [List.eq_of_mem_replicate hslot]
    exact List.length_replicate
  · intro ts t st st' _ hroom ht
    exact turn_roomy hroom ht

end Loop

/-- Wherever the loop stands and whatever frame the library accepts: the count is at most
511, every slot has 512 bytes, and decoding stays inside the slot exactly if the transaction
has at most 512 bytes and the key, where there is one, at least 32. -/
theorem store_staysInSlot_iff (pf : ClientPlatform) (ts : List Turn) (st : ClientState)
    (hrun : runTurns pf ts = some st) (hphase : st.loop.phase ≠ .filled) (frame : List UInt8)
    (m : IpcMessage) (h : pf.codec.unpack frame = some m) :
    st.loop.count ≤ 511 ∧ Roomy st.loop ∧
      (StaysInSlot (receive frame st.loop) (store pf.codec frame (receive frame st.loop)) ↔
        Fits m) := by
  have hcoll := Ingestion.collecting_of_run hrun hphase
  have hroom := run_roomy hrun
  refine ⟨hcoll.count_le, hroom, ?_⟩
  have hlt : (receive frame st.loop).count < (receive frame st.loop).msgArr.length :=
    hcoll.count_lt
  exact store_staysInSlot hlt hroom h

section Demonstration

/-- A message frame of a transaction of `n` ones and the key of ones. -/
def onesMessage (n : ℕ) : IpcMessage :=
  ⟨some (List.replicate n 1), some (List.replicate 32 1), ⟨[], CString.nil_noNul⟩, 0,
    .messageSended⟩

theorem unpack_onesMessage (n : ℕ) :
    wireCodec.unpack (wireCodec.pack (onesMessage n)) = some (onesMessage n) :=
  wireCodec.unpack_pack _ (by intro k; simp [onesMessage])

theorem length_onesMessage {n : ℕ} (hn : n < 128 ^ 2) :
    (wireCodec.pack (onesMessage n)).length ≤ n + 64 := by
  have hvarint := WireFormat.length_putVarint_le hn
  simp [wireCodec, onesMessage, WireCodec.fields, WireFormat.putFields, WireFormat.putField,
    WireFormat.putVarint_small, Status.code]
  omega

theorem fits_onesMessage {n : ℕ} : Fits (onesMessage n) ↔ n ≤ 512 := by
  constructor
  · intro hfits
    have hlen := hfits.transaction _ rfl
    rwa [List.length_replicate] at hlen
  · intro hn
    constructor
    · intro data hdata
      rw [← Option.some.inj hdata, List.length_replicate]
      exact hn
    · intro key hkey
      rw [← Option.some.inj hkey, List.length_replicate]

theorem connected_receiving : connected.loop.phase ≠ .filled := by decide

/-- A transaction of 512 bytes fills the first slot. -/
theorem store_staysInSlot_first :
    StaysInSlot (receive (wireCodec.pack (onesMessage 512)) connected.loop)
      (store wireCodec (wireCodec.pack (onesMessage 512))
        (receive (wireCodec.pack (onesMessage 512)) connected.loop)) := by
  exact (store_staysInSlot_iff wirePlatform [] connected rfl connected_receiving _ _
    (unpack_onesMessage 512)).2.2.mpr (fits_onesMessage.mpr le_rfl)

/-- A frame with a transaction of 513 bytes fits the receive buffer, and its transaction does
not fit the slot. -/
theorem store_leaves_slot :
    (wireCodec.pack (onesMessage 513)).length ≤ 4096 ∧
    wireCodec.unpack (wireCodec.pack (onesMessage 513)) = some (onesMessage 513) ∧
    (onesMessage 513).statusCode = .messageSended ∧
    ¬ StaysInSlot (receive (wireCodec.pack (onesMessage 513)) connected.loop)
      (store wireCodec (wireCodec.pack (onesMessage 513))
        (receive (wireCodec.pack (onesMessage 513)) connected.loop)) := by
  have hlen := length_onesMessage (n := 513) (by norm_num)
  refine ⟨by omega, unpack_onesMessage 513, rfl, ?_⟩
  have hcount : (receive (wireCodec.pack (onesMessage 513)) connected.loop).count <
      (receive (wireCodec.pack (onesMessage 513)) connected.loop).msgArr.length :=
    (connected_collecting wireCodec).count_lt
  have hrun : runTurns wirePlatform [] = some connected := rfl
  have hroom : Roomy connected.loop := run_roomy hrun
  intro hstays
  have hfits := (store_staysInSlot hcount hroom (unpack_onesMessage 513)).mp hstays
  have hle := fits_onesMessage.mp hfits
  omega

end Demonstration
end CBlockchain.SlotDecoder
