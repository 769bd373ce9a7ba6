import CBlockchain.SlotDecoder
import CBlockchain.TreeWalk
import CBlockchain.VerifyMessages

/-! What the client's block is made of. `validate_a_message` is not called between the
socket and the tree: slot `j` is the `j`-th message frame decoded into an empty slot,
whatever it carries, and the leaves of the tree are the slots. -/
namespace CBlockchain.SignedBlocks
open BlockProcess CalcMerkleTree ClientLoop Layering MerkleProcess MerkleTree MerkleVerdict
open ReceiveLoop Serdes SlotDecoder TreeWalk

/-- Whether `crypto_sign_open` opens a signed message under a key. -/
abbrev SignOpen := List UInt8 → Vector UInt8 32 → Bool

/-- The array for the opened message has `length - 64` bytes, which wraps around for a
length below 64. -/
def validateAMessage (signOpen : SignOpen) (sigmsg : SignedMessage) (pk : Vector UInt8 32) :
    Option ℕ :=
  if sigmsg.length < 64 then none
  else some (if signOpen sigmsg.bytes pk then 1 else 0)

/-- The walk from the root reaches only messages that are valid under their own key. -/
def TreeSigned (signOpen : SignOpen) (cont : LMsgContainer) (mem : Mem) : Prop :=
  ∃ visits, walk mem 9 0 (nodePtr cont.mainLayerPointer 0 0) = some visits ∧
    ∀ v ∈ visits, ∃ m, mem.msgs.read v.1 = some m ∧
      validateAMessage signOpen m m.publicKey = some 1

/-- The key of a slot after a frame: the frame's, or the zeros of the allocation. -/
def slotKey : Option (List UInt8) → Vector UInt8 32
  | none => Vector.replicate 32 0
  | some key => Vector.ofFn fun i => key.getD i 0

/-- The frame carries a transaction with room for a signature that opens under its key. -/
def FrameSigned (signOpen : SignOpen) (m : IpcMessage) : Prop :=
  ∃ data, m.transactionMsg = some data ∧ 64 ≤ data.length ∧ signOpen data (slotKey m.pubkey)

/-- What the message frames among `ts` unpack to, in order. -/
def messageFrames (codec : Codec) (ts : List Turn) : List IpcMessage :=
  (ts.filterMap fun t => codec.unpack t.2).filter fun m => m.statusCode = .messageSended

/-- A slot after the fields of an unpacked frame were copied to it. -/
def fillSlot (slot : SignedMessage) (m : IpcMessage) : Option SignedMessage :=
  (copyPubkey slot m.pubkey).bind fun slot => copyTransaction slot m.transactionMsg

section Frames
variable {codec : Codec} {signOpen : SignOpen} {m : IpcMessage} {slot : SignedMessage}
  {ts : List Turn} {t : Turn}

theorem messageFrames_append (codec : Codec) (ts ts' : List Turn) :
    messageFrames codec (ts ++ ts') = messageFrames codec ts ++ messageFrames codec ts' := by
  simp [messageFrames]

theorem messageFrames_message (h : codec.unpack t.2 = some m)
    (hs : m.statusCode = .messageSended) :
    messageFrames codec (ts ++ [t]) = messageFrames codec ts ++ [m] := by
  simp [messageFrames, h, hs]

theorem messageFrames_other {status : Status}
    (h : readOnlyStatusResponse codec t.2 = some status) (hs : status ≠ .messageSended) :
    messageFrames codec (ts ++ [t]) = messageFrames codec ts := by
  rw [readOnlyStatusResponse, Option.map_eq_some_iff] at h
  obtain ⟨m, hm, rfl⟩ := h
  simp [messageFrames, hm, hs]

theorem length_messageFrames (codec : Codec) (ts : List Turn) :
    (messageFrames codec ts).length = messages codec ts := by
  induction ts using List.reverseRecOn with
  | nil => rfl
  | append_singleton ts t ih =>
    rw [messages_append, ← ih, readOnlyStatusResponse]
    cases hm : codec.unpack t.2 with
    | none => simp [messageFrames, hm]
    | some m =>
      by_cases hs : m.statusCode = .messageSended
      · rw [messageFrames_message hm hs]
        simp [hs]
      · rw [messageFrames_other (by rw [readOnlyStatusResponse, hm]; rfl) hs]
        simp [hs]

theorem copyPubkey_key {slot' : SignedMessage} {key : Option (List UInt8)}
    (hzero : slot.publicKey = Vector.replicate 32 0) (h : copyPubkey slot key = some slot') :
    slot'.publicKey = slotKey key ∧ slot'.length = slot.length := by
  cases key with
  | none =>
    rw [← Option.some.inj h]
    exact ⟨hzero, rfl⟩
  | some key =>
    obtain ⟨hkey, -, hlen⟩ := copyPubkey_spec h
    refine ⟨?_, hlen⟩
    apply Vector.ext
    intro i hi
    have htake : slot'.publicKey.toList[i]? = (key.take 32)[i]? := by rw [hkey]
    rw [List.getElem?_take_of_lt hi] at htake
    simp [slotKey, List.getD_eq_getElem?_getD, ← htake, hi]

/-- A slot is valid exactly if the frame that filled it was signed. -/
theorem fillSlot_valid_iff (h : fillSlot emptySlot m = some slot) :
    validateAMessage signOpen slot slot.publicKey = some 1 ↔ FrameSigned signOpen m := by
  rw [fillSlot, Option.bind_eq_some_iff] at h
  obtain ⟨slot₁, hkey, hdata⟩ := h
  obtain ⟨hkey₁, hlen₁⟩ := copyPubkey_key rfl hkey
  cases htrans : m.transactionMsg with
  | none =>
    rw [htrans] at hdata
    have hlen : slot.length = 0 := by rw [← Option.some.inj hdata, hlen₁]; rfl
    simp [validateAMessage, FrameSigned, htrans, hlen]
  | some data =>
    rw [htrans] at hdata
    obtain ⟨hbytes, hlen, hkey₂, -⟩ := copyTransaction_spec hdata
    by_cases hshort : data.length < 64
    · simp [validateAMessage, FrameSigned, htrans, hlen, hshort]
    · have hlong : 64 ≤ data.length := by omega
      simp [validateAMessage, FrameSigned, htrans, hbytes, hlen, hshort, hlong, hkey₂, hkey₁]

end Frames

/-- The slots after the frames `ms`: each frame decoded into an empty slot, in order, and
the rest as allocated. -/
structure SlotsOf (ms : List IpcMessage) (arr : List SignedMessage) : Prop where
  length : arr.length = 512
  filled : ∀ (j : ℕ) m, ms[j]? = some m →
    ∃ slot, fillSlot emptySlot m = some slot ∧ arr[j]? = some slot
  rest : ∀ j, ms.length ≤ j → j < 512 → arr[j]? = some emptySlot

theorem SlotsOf.store {ms : List IpcMessage} {m : IpcMessage} {arr : List SignedMessage}
    {slot slot' : SignedMessage} (h : SlotsOf ms arr) (hlt : ms.length < 512)
    (hslot : arr[ms.length]? = some slot) (hfill : fillSlot slot m = some slot') :
    SlotsOf (ms ++ [m]) (arr.set ms.length slot') where
  length := by rw [List.length_set, h.length]
  filled := by
    intro j x hx
    rw [List.getElem?_append] at hx
    split at hx
    · rename_i hj
      rw [List.getElem?_set_ne (by omega)]
      exact h.filled j x hx
    · rename_i hj
      rw [List.getElem?_singleton] at hx
      split at hx
      · have hempty : slot = emptySlot :=
          Option.some.inj (hslot.symm.trans (h.rest ms.length le_rfl hlt))
        obtain rfl : j = ms.length := by omega
        obtain rfl := Option.some.inj hx
        rw [hempty] at hfill
        exact ⟨slot', hfill, List.getElem?_set_self (by rw [h.length]; exact hlt)⟩
      · cases hx
  rest := by
    intro j hj hj'
    rw [List.length_append, List.length_singleton] at hj
    rw [List.getElem?_set_ne (by omega)]
    exact h.rest j (by omega) hj'

/-- Where the slots and the tree come from: no tree before the block is filled, none if the
server ended early, and otherwise the tree of the first 512 message frames. -/
inductive Sourced (pf : ClientPlatform) (ts : List Turn) (st : ClientState) : Prop
  | collecting (h : Collecting pf.codec ts st) (tree : st.loop.tree = none)
      (slots : SlotsOf (messageFrames pf.codec ts) st.loop.msgArr)
  | ended (phase : st.loop.phase = .filled) (tree : st.loop.tree = none)
  | completed (phase : st.loop.phase = .filled) (h : Completed pf st)
      (enough : 512 ≤ (messageFrames pf.codec ts).length)
      (slots : SlotsOf ((messageFrames pf.codec ts).take 512) st.loop.msgArr)

section Runs
variable {pf : ClientPlatform} {t : Turn} {ts : List Turn} {st st' : ClientState}

theorem Stores.slotsOf {codec : Codec} {cl cl' : Client} (h : Stores codec t.2 cl cl')
    (hread : readOnlyStatusResponse codec t.2 = some .messageSended)
    (hcount : cl.count = (messageFrames codec ts).length) (hlt : cl.count < 512)
    (hslots : SlotsOf (messageFrames codec ts) cl.msgArr) :
    SlotsOf (messageFrames codec (ts ++ [t])) cl'.msgArr := by
  obtain ⟨slot, slot', hslot, hdes, harr⟩ := h.slot
  rw [readOnlyStatusResponse, Option.map_eq_some_iff] at hread
  obtain ⟨m, hm, hstatus⟩ := hread
  have hfill : fillSlot slot m = some slot' := by
    rw [deserializeDataFromServer, hm] at hdes
    exact hdes
  rw [messageFrames_message hm hstatus, harr, hcount]
  rw [hcount] at hslot hlt
  exact hslots.store hlt hslot hfill

theorem turn_sourced (hrun : runTurns pf ts = some st) (h : Sourced pf ts st)
    (ht : frameTurn pf t st = some st') : Sourced pf (ts ++ [t]) st' := by
  have hrun' : runTurns pf (ts ++ [t]) = some st' := by rw [runTurns_append, hrun]; exact ht
  cases h with
  | ended phase tree =>
    rw [frameTurn_filled phase, Option.some.injEq] at ht
    rw [← ht]
    exact .ended phase tree
  | completed phase h enough slots =>
    rw [frameTurn_filled phase, Option.some.injEq] at ht
    rw [← ht]
    refine .completed phase h ?_ ?_
    · rw [messageFrames_append, List.length_append]
      omega
    · rw [messageFrames_append, List.take_append_of_le_length enough]
      exact slots
  | collecting h tree slots =>
    have hcount : st.loop.count = (messageFrames pf.codec ts).length := by
      rw [length_messageFrames, h.count]
    have hlt : st.loop.count < 512 := Nat.lt_succ_of_le h.count_le
    cases h.turn ht with
    | stored read _ hs _ phase =>
      have hcoll := Ingestion.collecting_of_run hrun' (by simp [phase])
      exact .collecting hcoll (hs.tree.trans tree) (Stores.slotsOf hs read hcount hlt slots)
    | last cl block read count hs done made shared =>
      have hstored : cl.stored = 512 := by rw [hs.stored, h.stored, count]
      obtain ⟨hfilled, hcompleted⟩ := assembled_completed hstored done made shared
      have hlength : (messageFrames pf.codec (ts ++ [t])).length = 512 := by
        rw [length_messageFrames, messages_append, if_pos read, ← h.count, count]
      refine .completed hfilled hcompleted hlength.ge ?_
      rw [List.take_of_length_le hlength.le, (assembleBlock_spec done).2.2.2]
      exact Stores.slotsOf hs read hcount hlt slots
    | ended _ hs filled => exact .ended filled (hs.tree.trans tree)
    | skipped status read hmsg hs phase =>
      have hcoll := Ingestion.collecting_of_run hrun' (by simp [phase])
      refine .collecting hcoll (hs.tree.trans tree) ?_
      rw [messageFrames_other read hmsg, hs.msgArr]
      exact slots

theorem run_sourced (hrun : runTurns pf ts = some st) : Sourced pf ts st := by
  apply runTurns_invariant _ _ hrun
  · refine .collecting (connected_collecting pf.codec) rfl ⟨List.length_replicate, ?_, ?_⟩
    · simp [messageFrames]
    · intro j _ hj
      exact List.getElem?_replicate_of_lt hj
  · intro ts t st st' hrun h ht
    exact turn_sourced hrun h ht

end Runs

section Tree
variable {signOpen : SignOpen} {H : GenericHash} {arr : List SignedMessage} {cont : LMsgContainer}
  {mem : Mem}

/-- The slots as the messages `calc_merkle_tree` finds behind `msg_arr`. -/
def slotAt (arr : List SignedMessage) (i : ℕ) : SignedMessage := arr.getD i emptySlot

theorem messagesAt_slots (hlen : arr.length = 512) :
    MessagesAt (.ofMessages arr) 9 0 (slotAt arr) := by
  intro i hi
  have hi' : i < arr.length := by omega
  simp [Mem.ofMessages, Heap.read, slotAt, hi']

theorem tree_of_slots (H : GenericHash) (hlen : arr.length = 512) :
    ∃ cont mem, calcMerkleTree H 9 0 (.ofMessages arr) = some (cont, mem) ∧
      (∀ i < 512, mem.msgs.read (ptrAt cont.messagesArr i) = some (slotAt arr i)) ∧
      Built H mem 9 cont.layersForDestr cont.mainLayerPointer (ptrAt cont.messagesArr)
        (slotAt arr) 0 ∧ cont.messagesArr.length = 512 := by
  have hm := messagesAt_slots hlen
  obtain ⟨cont, mem, hcalc, hext, hb, harr⟩ := calcMerkleTree_built H (by norm_num) hm
  refine ⟨cont, mem, hcalc, (hm.extends hext).read_ptrAt harr, hb, ?_⟩
  rw [harr, List.length_map, List.length_range]
  norm_num

/-- The leaves of the tree are the slots. -/
theorem treeSigned_iff_slots (hlen : arr.length = 512)
    (h : calcMerkleTree H 9 0 (.ofMessages arr) = some (cont, mem)) :
    TreeSigned signOpen cont mem ↔ ∀ i < 512,
      validateAMessage signOpen (slotAt arr i) (slotAt arr i).publicKey = some 1 := by
  obtain ⟨cont', mem', hcalc, hread, hb, hptrs⟩ := tree_of_slots H hlen
  obtain ⟨rfl, rfl⟩ : cont' = cont ∧ mem' = mem := by simpa using hcalc.symm.trans h
  have hwalk := (holdsInOrder_of_built H (by norm_num) hptrs hb).walk 9 le_rfl
  constructor
  · rintro ⟨visits, hvisits, hvalid⟩ i hi
    obtain rfl := Option.some.inj (hwalk.symm.trans hvisits)
    have hget : cont'.messagesArr[i]? = some (ptrAt cont'.messagesArr i) :=
      getElem?_ptrAt (by rw [hptrs]; exact hi)
    obtain ⟨m, hm, hval⟩ := hvalid _ (List.mem_map_of_mem (List.mem_of_getElem? hget))
    obtain rfl : m = slotAt arr i := Option.some.inj (hm.symm.trans (hread i hi))
    exact hval
  · intro hvalid
    refine ⟨_, hwalk, ?_⟩
    intro v hv
    obtain ⟨p, hp, rfl⟩ := List.mem_map.mp hv
    obtain ⟨i, hi, rfl⟩ := List.mem_iff_getElem.mp hp
    rw [hptrs] at hi
    refine ⟨slotAt arr i, ?_, hvalid i hi⟩
    rw [← hread i hi, ptrAt_eq (List.getElem?_eq_getElem _)]

/-- The slots are those of 512 frames. -/
theorem slots_valid_iff {ms : List IpcMessage} (h : SlotsOf ms arr) (hms : ms.length = 512) :
    (∀ i < 512, validateAMessage signOpen (slotAt arr i) (slotAt arr i).publicKey = some 1) ↔
      ∀ m ∈ ms, FrameSigned signOpen m := by
  have hslot : ∀ (i : ℕ) m, ms[i]? = some m →
      (validateAMessage signOpen (slotAt arr i) (slotAt arr i).publicKey = some 1 ↔
        FrameSigned signOpen m) := by
    intro i m hi
    obtain ⟨slot, hfill, hget⟩ := h.filled i m hi
    have hat : slotAt arr i = slot := by rw [slotAt, List.getD, hget]; rfl
    rw [hat]
    exact fillSlot_valid_iff hfill
  constructor
  · intro hvalid m hm
    obtain ⟨i, hi⟩ := List.mem_iff_getElem?.mp hm
    have hlt : i < ms.length := (List.getElem?_eq_some_iff.mp hi).1
    exact (hslot i m hi).mp (hvalid i (by omega))
  · intro hsigned i hi
    have hlt : i < ms.length := by omega
    exact (hslot i ms[i] (List.getElem?_eq_getElem hlt)).mpr (hsigned _ (List.getElem_mem hlt))

end Tree

section Runs
variable {signOpen : SignOpen} {pf : ClientPlatform} {st : ClientState} {ms : List IpcMessage}
  {cont : LMsgContainer} {mem : Mem}

theorem Completed.treeSigned_iff (h : Completed pf st) (slots : SlotsOf ms st.loop.msgArr)
    (hms : ms.length = 512) (htree : st.loop.tree = some (cont, mem)) :
    TreeSigned signOpen cont mem ↔ ∀ m ∈ ms, FrameSigned signOpen m := by
  obtain ⟨cont', mem', -, -, -, hcalc, -, htree', -⟩ := h.made
  obtain ⟨rfl, rfl⟩ : cont' = cont ∧ mem' = mem := by simpa using htree'.symm.trans htree
  rw [treeSigned_iff_slots slots.length hcalc]
  exact slots_valid_iff slots hms

end Runs

/-- For every run over answered frames in which the client has built its tree:
`processing_block` made the block from that tree, and every message in it is valid under its
own key exactly if each of the first 512 message frames of the run was signed under the key
it carries. -/
theorem treeSigned_iff_framesSigned (signOpen : SignOpen) (pf : ClientPlatform) (ts : List Turn)
    (_ : AnswersAll pf ts) (st : ClientState) (hrun : runTurns pf ts = some st)
    (cont : LMsgContainer) (mem : Mem) (htree : st.loop.tree = some (cont, mem)) :
    (∃ m fuel block, processingBlock pf.H m cont mem fuel = some block ∧
      st.loop.block = some block) ∧
    (TreeSigned signOpen cont mem ↔
      ∀ m ∈ (messageFrames pf.codec ts).take 512, FrameSigned signOpen m) := by
  cases run_sourced hrun with
  | collecting _ tree => simp [tree] at htree
  | ended _ tree => simp [tree] at htree
  | completed _ h enough slots =>
    have hlen : ((messageFrames pf.codec ts).take 512).length = 512 := by
      rw [List.length_take]
      omega
    refine ⟨?_, Completed.treeSigned_iff h slots hlen htree⟩
    obtain ⟨cont', mem', block, m, fuel, -, hblock, htree', hmade, -, -⟩ := h.made
    obtain ⟨rfl, rfl⟩ : cont' = cont ∧ mem' = mem := by simpa using htree'.symm.trans htree
    exact ⟨m, fuel, block, hblock, hmade⟩

section Progress
variable {pf : ClientPlatform} {ts : List Turn} {t : Turn} {st : ClientState}

/-- A message frame that the decoder can copy to a slot. -/
def Acceptable (codec : Codec) (t : Turn) : Prop :=
  ∃ m, codec.unpack t.2 = some m ∧ m.statusCode = .messageSended ∧ Fits m

/-- The puzzle is solved in time, whatever the messages. -/
def SolvesInTime (H : GenericHash) (input : TurnInput) : Prop :=
  input.machine.threadStarts = true ∧ ∀ msg : ℕ → SignedMessage, ∃ n < input.fuel,
    BlockData.Qualifies H 3 (PerfectTree.root (Hashing.calcHash H) (Hashing.merge2hashses H) 9 msg)
      (input.machine.samples n)

theorem Acceptable.read {codec : Codec} (h : Acceptable codec t) :
    readOnlyStatusResponse codec t.2 = some .messageSended := by
  obtain ⟨m, hm, hstatus, -⟩ := h
  rw [readOnlyStatusResponse, hm, Option.map_some, hstatus]

theorem assembleBlock_returns {H : GenericHash} {input : TurnInput} {cl : Client}
    (hlen : cl.msgArr.length = 512) (hsolve : SolvesInTime H input) :
    ∃ cl' block, assembleBlock H input.machine input.fuel cl = some cl' ∧
      cl'.block = some block := by
  obtain ⟨cont, mem, hcalc, hread, hb, -⟩ := tree_of_slots H hlen
  have hroot := storedHash_of_built H hb (by norm_num) (by norm_num : 0 < 2 ^ 0)
  rw [referenceHash_zero] at hroot
  obtain ⟨n, hn, hq⟩ := hsolve.2 (slotAt cl.msgArr)
  obtain ⟨k, -, hfirst, hblock⟩ := processingBlock_spec H hroot ⟨hsolve.1, n, hq⟩
  have hk : k ≤ n := by
    by_contra hlt
    exact hfirst n (by omega) hq
  have hver := VerifyMessages.verifyAll_of_built H hb hread
  simp only [assembleBlock, hcalc, hblock input.fuel (by omega), hver, Option.bind_eq_bind,
    Option.bind_some]
  exact ⟨_, _, rfl, rfl⟩

theorem Handled.length {codec : Codec} {data : List UInt8} {cl cl' : Client} {status : Status}
    (h : Handled codec data cl cl' status) : cl'.msgArr.length = cl.msgArr.length := by
  rcases h.slots with harr | ⟨slot, slot', -, -, harr⟩
  · rw [harr]
  · rw [harr, List.length_set]

theorem handleFlag_message {codec : Codec} {data : List UInt8} {cl : Client} {m : IpcMessage}
    (stamp : Stamp) (res : ℤ) (hlt : cl.count < cl.msgArr.length) (hroom : Roomy cl)
    (hm : codec.unpack data = some m) (hfits : Fits m) :
    ∃ cl' sent, handleFlag codec stamp res data cl .messageSended = some (cl', sent) := by
  obtain ⟨slot, hdes⟩ := deserialize_returns hm (hroom _ (List.getElem_mem hlt)) hfits
  have hget : cl.msgArr[cl.count]? = some cl.msgArr[cl.count] := List.getElem?_eq_getElem hlt
  have hstore : ReceiveLoop.store codec data cl = some { cl with
      msgArr := cl.msgArr.set cl.count slot, stored := cl.stored + 1 } := by
    simp only [ReceiveLoop.store, hget, hdes, Option.bind_eq_bind, Option.bind_some]
  rw [handleFlag, hstore]
  split_ifs
  · exact ⟨_, _, rfl⟩
  · exact ⟨_, _, rfl⟩
  · exact ⟨_, _, rfl⟩

/-- In a collecting state an acceptable frame is stored; behind the last one the block is made. -/
theorem frameTurn_acceptable (hcoll : Collecting pf.codec ts st) (hroom : Roomy st.loop)
    (hacc : Acceptable pf.codec t) (hsolve : SolvesInTime pf.H t.1) :
    ∃ st', frameTurn pf t st = some st' := by
  have hread := hacc.read
  obtain ⟨m, hm, hstatus, hfits⟩ := hacc
  have hlt : (receive t.2 st.loop).count < (receive t.2 st.loop).msgArr.length := hcoll.count_lt
  obtain ⟨cl, sent, hflag⟩ := handleFlag_message t.1.stamp t.2.length hlt hroom hm hfits
  have hlen : cl.msgArr.length = 512 :=
    (Handled.length (handleFlag_handled hflag).of_receive).trans hcoll.length
  unfold frameTurn
  rw [if_neg (by rw [hcoll.phase]; decide), hread]
  simp only [Option.bind_eq_bind, Option.bind_some, hflag]
  split_ifs
  · obtain ⟨cl', block, hdone, hblock⟩ := assembleBlock_returns hlen hsolve
    simp only [hdone, hblock, Option.bind_some]
    exact ⟨_, rfl⟩
  · exact ⟨_, rfl⟩

theorem messages_acceptable (hacc : ∀ t ∈ ts, Acceptable pf.codec t) :
    messages pf.codec ts = ts.length := by
  rw [messages, List.countP_eq_length]
  intro t ht
  simpa using (hacc t ht).read

theorem not_endsEarly (hacc : ∀ t ∈ ts, Acceptable pf.codec t) : ¬ EndsEarly pf ts := by
  rintro ⟨pre, t, hpre, -, -, hread⟩
  have hmem : t ∈ ts := hpre.subset (by simp)
  rw [(hacc t hmem).read] at hread
  cases hread

theorem run_acceptable : ∀ ts : List Turn, ts.length ≤ 512 →
    (∀ t ∈ ts, Acceptable pf.codec t ∧ SolvesInTime pf.H t.1) →
    ∃ st, runTurns pf ts = some st := by
  intro ts
  induction ts using List.reverseRecOn with
  | nil =>
    intro _ _
    exact ⟨connected, rfl⟩
  | append_singleton ts t ih =>
    intro hlen hacc
    rw [List.length_append, List.length_singleton] at hlen
    have hacc' : ∀ u ∈ ts, Acceptable pf.codec u ∧ SolvesInTime pf.H u.1 := by
      intro u hu
      exact hacc u (List.mem_append_left _ hu)
    obtain ⟨st, hrun⟩ := ih (by omega) hacc'
    obtain ⟨hlast, hsolve⟩ := hacc t (by simp)
    rw [runTurns_append, hrun, Option.bind_some]
    cases runTurns_atHead hrun with
    | collecting h => exact frameTurn_acceptable h (run_roomy hrun) hlast hsolve
    | completed _ _ count =>
      rw [messages_acceptable fun u hu => (hacc' u hu).1] at count
      omega
    | ended _ _ h => exact absurd h (not_endsEarly fun u hu => (hacc' u hu).1)

/-- After 512 acceptable frames the tree stands, signed or not. -/
theorem run_completes (hlen : ts.length = 512)
    (hacc : ∀ t ∈ ts, Acceptable pf.codec t ∧ SolvesInTime pf.H t.1) :
    ∃ st cont mem, runTurns pf ts = some st ∧ st.loop.tree = some (cont, mem) ∧
      Completed pf st ∧ SlotsOf (messageFrames pf.codec ts) st.loop.msgArr := by
  obtain ⟨st, hrun⟩ := run_acceptable ts hlen.le hacc
  have hcount : messages pf.codec ts = 512 := by
    rw [messages_acceptable fun t ht => (hacc t ht).1, hlen]
  have hcompleted : Completed pf st := by
    cases runTurns_atHead hrun with
    | collecting h =>
      have hle := h.count_le
      have heq := h.count
      omega
    | completed _ h => exact h
    | ended _ _ h => exact absurd h (not_endsEarly fun t ht => (hacc t ht).1)
  obtain ⟨cont, mem, -, -, -, -, -, htree, -⟩ := hcompleted.made
  refine ⟨st, cont, mem, hrun, htree, hcompleted, ?_⟩
  cases run_sourced hrun with
  | collecting _ tree => simp [tree] at htree
  | ended _ tree => simp [tree] at htree
  | completed _ _ _ slots =>
    rwa [List.take_of_length_le (by rw [length_messageFrames, hcount])] at slots

end Progress

section Demonstration

/-- An Ed25519 signature of the byte 114, the byte `last` behind it. -/
def signatureAnd (last : UInt8) : List UInt8 :=
  [146, 160, 9, 169, 240, 212, 202, 184, 114, 14, 130, 11, 95, 100, 37, 64, 162, 178, 123, 84, 22,
    80, 63, 143, 179, 118, 34, 35, 235, 219, 105, 218, 8, 90, 193, 228, 62, 21, 153, 110, 69, 143,
    54, 19, 208, 241, 29, 140, 56, 123, 46, 174, 180, 48, 42, 238, 176, 13, 41, 22, 18, 187, 12, 0,
    last]

/-- The key of the signature. -/
def signerKey : Vector UInt8 32 := #v[61, 64, 23, 195, 232, 67, 137, 90, 146, 183, 10, 167, 77, 27,
  126, 188, 156, 152, 44, 207, 46, 196, 150, 140, 192, 205, 85, 241, 42, 244, 102, 12]

/-- Opens the one message the key signed. -/
def opensSigned : SignOpen := fun signed pk => signed = signatureAnd 114 ∧ pk = signerKey

def solvingPlatform : ClientPlatform := ⟨lastByteHash, wireCodec, p2pWireCodec⟩

def signedMessage (last : UInt8) : IpcMessage :=
  ⟨some (signatureAnd last), some signerKey.toList, ⟨[], CString.nil_noNul⟩, 0, .messageSended⟩

def signedTurn (last : UInt8) : Turn :=
  (⟨⟨⟨[], CString.nil_noNul⟩, 0⟩, zeroMachine, 1⟩, wireCodec.pack (signedMessage last))

theorem unpack_signedTurn (last : UInt8) :
    solvingPlatform.codec.unpack (signedTurn last).2 = some (signedMessage last) :=
  wireCodec.unpack_pack _ (by intro k; simp [signedMessage])

theorem slotKey_signerKey : slotKey (some signerKey.toList) = signerKey := by decide

theorem signedMessage_signed_iff (last : UInt8) :
    FrameSigned opensSigned (signedMessage last) ↔ last = 114 := by
  simp [FrameSigned, signedMessage, opensSigned, slotKey_signerKey, signatureAnd]

theorem signedTurn_acceptable (last : UInt8) :
    Acceptable solvingPlatform.codec (signedTurn last) := by
  refine ⟨signedMessage last, unpack_signedTurn last, rfl, ?_, ?_⟩
  · intro data hdata
    rw [← Option.some.inj hdata]
    simp [signatureAnd]
  · intro key hkey
    rw [← Option.some.inj hkey, Vector.length_toList]

theorem signedTurn_solves (last : UInt8) :
    SolvesInTime solvingPlatform.H (signedTurn last).1 := by
  refine ⟨rfl, ?_⟩
  intro msg
  have hroot : PerfectTree.root (Hashing.calcHash solvingPlatform.H)
      (Hashing.merge2hashses solvingPlatform.H) (8 + 1) msg = Vector.replicate 32 1 := by
    rw [PerfectTree.root]
    simp [Hashing.merge2hashses, Hashing.hashS, solvingPlatform, lastByteHash]
  refine ⟨0, Nat.one_pos, ?_⟩
  rw [hroot]
  change BlockData.Qualifies lastByteHash 3 (Vector.replicate 32 1) (Vector.replicate 15 0)
  decide

theorem messageFrames_signedTurn (last : UInt8) (n : ℕ) :
    messageFrames solvingPlatform.codec (List.replicate n (signedTurn last)) =
      List.replicate n (signedMessage last) := by
  simp [messageFrames, unpack_signedTurn, signedMessage]

theorem answersAll_signedTurn (last : UInt8) (n : ℕ) :
    AnswersAll solvingPlatform (List.replicate n (signedTurn last)) := by
  apply answersAll_of_reads
  intro t ht
  rw [List.eq_of_mem_replicate ht]
  exact ⟨_, (signedTurn_acceptable last).read, trivial⟩

theorem run_signedTurn (last : UInt8) : ∃ st cont mem,
    runTurns solvingPlatform (List.replicate 512 (signedTurn last)) = some st ∧
    st.loop.tree = some (cont, mem) ∧ Completed solvingPlatform st ∧
    SlotsOf (List.replicate 512 (signedMessage last)) st.loop.msgArr := by
  rw [← messageFrames_signedTurn]
  apply run_completes List.length_replicate
  intro t ht
  rw [List.eq_of_mem_replicate ht]
  exact ⟨signedTurn_acceptable last, signedTurn_solves last⟩

end Demonstration

/-- A server that sends a signed message 512 times. -/
theorem treeSigned_of_signed_frames : ∃ st cont mem,
    runTurns solvingPlatform (List.replicate 512 (signedTurn 114)) = some st ∧
    st.loop.tree = some (cont, mem) ∧ TreeSigned opensSigned cont mem := by
  obtain ⟨st, cont, mem, hrun, htree, -, -⟩ := run_signedTurn 114
  refine ⟨st, cont, mem, hrun, htree, ?_⟩
  apply (treeSigned_iff_framesSigned opensSigned _ _ (answersAll_signedTurn 114 512) st hrun cont
    mem htree).2.mpr
  intro m hm
  rw [messageFrames_signedTurn] at hm
  rw [List.eq_of_mem_replicate (List.mem_of_mem_take hm)]
  exact (signedMessage_signed_iff 114).mpr rfl

/-- The same server with another byte behind the signature: the client builds the tree and
the block all the same. -/
theorem forged_frames_make_block : ∃ st cont mem block,
    runTurns solvingPlatform (List.replicate 512 (signedTurn 115)) = some st ∧
    st.loop.tree = some (cont, mem) ∧ st.loop.block = some block ∧
    ¬ TreeSigned opensSigned cont mem := by
  obtain ⟨st, cont, mem, hrun, htree, hcompleted, slots⟩ := run_signedTurn 115
  obtain ⟨-, -, block, -, -, -, -, -, hblock, -⟩ := hcompleted.made
  refine ⟨st, cont, mem, block, hrun, htree, hblock, ?_⟩
  rw [Completed.treeSigned_iff hcompleted slots List.length_replicate htree]
  intro hsigned
  have hforged := hsigned (signedMessage 115) (List.mem_replicate.mpr ⟨by norm_num, rfl⟩)
  rw [signedMessage_signed_iff] at hforged
  exact absurd hforged (by decide)

end CBlockchain.SignedBlocks
