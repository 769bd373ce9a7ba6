import CBlockchain.ClientLoop

/-! What the client's slots hold. A message frame advances the count whatever it carries,
and the decoder skips a field that is absent; so the slots hold the messages that came
exactly if every message frame was complete. -/
namespace CBlockchain.Ingestion
open ClientLoop ReceiveLoop Serdes
variable (codec : Codec)

/-- The transaction and the public key of a message frame that carries both. -/
def carriedBy (frame : List UInt8) : Option (List UInt8 × List UInt8) := do
  let m ← codec.unpack frame
  if m.statusCode = .messageSended then do
    let transaction ← m.transactionMsg
    let key ← m.pubkey
    some (transaction, key)
  else none

/-- What the complete message frames among `ts` carried, in order. -/
def carried (ts : List Turn) : List (List UInt8 × List UInt8) :=
  ts.filterMap fun t => carriedBy codec t.2

/-- The slot holds the transaction, its length and the public key. -/
structure Holds (slot : SignedMessage) (c : List UInt8 × List UInt8) : Prop where
  bytes : slot.bytes = c.1
  length : slot.length = c.1.length
  publicKey : slot.publicKey.toList = c.2

/-- The count is the number of complete message frames, and slot `j` holds the `j`-th. -/
structure Ingested (ts : List Turn) (st : ClientState) : Prop where
  count : st.loop.count = (carried codec ts).length
  slots : ∀ (j : ℕ) c, (carried codec ts)[j]? = some c →
    ∃ slot, st.loop.msgArr[j]? = some slot ∧ Holds slot c

variable {codec}

theorem carried_append (ts : List Turn) (t : Turn) :
    carried codec (ts ++ [t]) = carried codec ts ++ (carriedBy codec t.2).toList := by
  rw [carried, List.filterMap_append, List.filterMap_cons, List.filterMap_nil]
  cases h : carriedBy codec t.2 <;> simp [carried]

theorem carriedBy_of_status {frame : List UInt8} {status : Status}
    (h : readOnlyStatusResponse codec frame = some status) (hne : status ≠ .messageSended) :
    carriedBy codec frame = none := by
  rw [readOnlyStatusResponse, Option.map_eq_some_iff] at h
  obtain ⟨m, hm, rfl⟩ := h
  simp [carriedBy, hm, hne]

/-- A complete frame with a key of 32 bytes goes into its slot as it is. -/
theorem deserialize_holds {frame : List UInt8} {slot slot' : SignedMessage}
    {c : List UInt8 × List UInt8} (hc : carriedBy codec frame = some c) (hkey : c.2.length = 32)
    (h : deserializeDataFromServer codec frame slot = some slot') : Holds slot' c := by
  simp only [carriedBy, Option.bind_eq_bind, Option.bind_eq_some_iff] at hc
  obtain ⟨m, hm, hc⟩ := hc
  split at hc
  · simp only [Option.bind_eq_some_iff, Option.some.injEq] at hc
    obtain ⟨data, hdata, key, hpub, rfl⟩ := hc
    simp only [deserializeDataFromServer, hm, hpub, hdata, Option.bind_eq_bind, Option.bind_some,
      Option.bind_eq_some_iff] at h
    obtain ⟨slot₁, hslot₁, hslot'⟩ := h
    obtain ⟨hkey₁, -, -⟩ := copyPubkey_spec hslot₁
    obtain ⟨hbytes, hlength, hkey', -⟩ := copyTransaction_spec hslot'
    refine ⟨hbytes, hlength, ?_⟩
    rw [hkey', hkey₁, List.take_of_length_le hkey.le]
  · cases hc

section Runs
variable {pf : ClientPlatform} {t : Turn} {ts : List Turn} {st st' : ClientState}

theorem Ingested.same (h : Ingested codec ts st) (hs : SameStore st.loop st'.loop)
    (ht : carriedBy codec t.2 = none) : Ingested codec (ts ++ [t]) st' where
  count := by rw [carried_append, ht, hs.count, h.count]; simp
  slots := by
    intro j c hj
    rw [carried_append, ht, Option.toList_none, List.append_nil] at hj
    rw [hs.msgArr]
    exact h.slots j c hj

theorem Ingested.store (h : Ingested codec ts st) {c : List UInt8 × List UInt8}
    (hc : carriedBy codec t.2 = some c) (hkey : c.2.length = 32)
    (hs : Stores codec t.2 st.loop st'.loop) (hcount : st'.loop.count = st.loop.count + 1) :
    Ingested codec (ts ++ [t]) st' where
  count := by rw [carried_append, hc, hcount, h.count]; simp
  slots := by
    obtain ⟨slot, slot', hslot, hdes, harr⟩ := hs.slot
    have hlt : st.loop.count < st.loop.msgArr.length := (List.getElem?_eq_some_iff.mp hslot).1
    intro j d hj
    rw [carried_append, hc, Option.toList_some, List.getElem?_append] at hj
    rw [harr]
    split at hj
    · rename_i hjlt
      rw [List.getElem?_set_ne (by rw [h.count]; omega)]
      exact h.slots j d hj
    · rename_i hjge
      rw [List.getElem?_singleton] at hj
      split at hj
      · have hje : j = st.loop.count := by rw [h.count]; omega
        subst hje
        rw [Option.some.injEq] at hj
        subst hj
        exact ⟨slot', List.getElem?_set_self hlt, deserialize_holds hc hkey hdes⟩
      · cases hj

/-- Before the block is filled, a turn either counts one message frame or leaves the slots. -/
theorem turn_collecting (h : Collecting pf.codec ts st) (ht : frameTurn pf t st = some st')
    (hphase : st'.loop.phase ≠ .filled) :
    (readOnlyStatusResponse pf.codec t.2 = some .messageSended ∧
      Stores pf.codec t.2 st.loop st'.loop ∧ st'.loop.count = st.loop.count + 1) ∨
    (readOnlyStatusResponse pf.codec t.2 ≠ some .messageSended ∧
      carriedBy pf.codec t.2 = none ∧ SameStore st.loop st'.loop) := by
  cases h.turn ht with
  | stored read _ hs count => exact Or.inl ⟨read, hs, count⟩
  | last _ _ _ _ _ done => exact absurd (assembleBlock_spec done).1 hphase
  | ended _ _ filled => exact absurd filled hphase
  | skipped status read hmsg hs =>
    refine Or.inr ⟨?_, carriedBy_of_status read hmsg, hs⟩
    rw [read]
    simpa using hmsg

theorem collecting_of_run (hrun : runTurns pf ts = some st) (hphase : st.loop.phase ≠ .filled) :
    Collecting pf.codec ts st := by
  cases runTurns_atHead hrun with
  | collecting h => exact h
  | completed h => exact absurd h hphase
  | ended h => exact absurd h hphase

/-- The state before the last turn of a run that has not filled the block. -/
theorem run_append (hrun : runTurns pf (ts ++ [t]) = some st') (hphase : st'.loop.phase ≠ .filled) :
    ∃ st, runTurns pf ts = some st ∧ frameTurn pf t st = some st' ∧
      Collecting pf.codec ts st := by
  rw [runTurns_append, Option.bind_eq_some_iff] at hrun
  obtain ⟨st, hrun, ht⟩ := hrun
  refine ⟨st, hrun, ht, collecting_of_run hrun fun hfilled => hphase ?_⟩
  rw [frameTurn_filled hfilled, Option.some.injEq] at ht
  exact ht ▸ hfilled

end Runs

/-- Every message frame handled before the block is filled carries a transaction and a
public key of 32 bytes. -/
def AllComplete (pf : ClientPlatform) (ts : List Turn) : Prop :=
  ∀ pre t, pre ++ [t] <+: ts → ∀ st, runTurns pf (pre ++ [t]) = some st →
    st.loop.phase ≠ .filled → readOnlyStatusResponse pf.codec t.2 = some .messageSended →
    ∃ c, carriedBy pf.codec t.2 = some c ∧ c.2.length = 32

/-- Up to the filled block: count and slots are those of the complete message frames, and
any other frame leaves both as they are. -/
def Exact (pf : ClientPlatform) (ts : List Turn) : Prop :=
  (∀ pre, pre <+: ts → ∀ st, runTurns pf pre = some st → st.loop.phase ≠ .filled →
    Ingested pf.codec pre st) ∧
  ∀ pre t, pre ++ [t] <+: ts → ∀ st st', runTurns pf pre = some st →
    frameTurn pf t st = some st' → st'.loop.phase ≠ .filled → carriedBy pf.codec t.2 = none →
    st'.loop.count = st.loop.count ∧ st'.loop.msgArr = st.loop.msgArr

theorem ingested_of_complete {pf : ClientPlatform} {ts : List Turn} (h : AllComplete pf ts) :
    ∀ pre, pre <+: ts → ∀ st, runTurns pf pre = some st → st.loop.phase ≠ .filled →
      Ingested pf.codec pre st := by
  intro pre
  induction pre using List.reverseRecOn with
  | nil =>
    intro _ st hrun _
    rw [← Option.some.inj hrun]
    exact ⟨rfl, by simp [carried]⟩
  | append_singleton pre t ih =>
    intro hpre st' hrun hphase
    obtain ⟨st, hrun₀, ht, hcoll⟩ := run_append hrun hphase
    have hprev := ih ((List.prefix_append pre [t]).trans hpre) st hrun₀ (by simp [hcoll.phase])
    rcases turn_collecting hcoll ht hphase with ⟨hread, hstores, hcount⟩ | ⟨-, hnone, hsame⟩
    · obtain ⟨c, hc, hkey⟩ := h pre t hpre st' hrun hphase hread
      exact hprev.store hc hkey hstores hcount
    · exact hprev.same hsame hnone

/-- Over answered frames ingestion is exact for exactly the sequences in which every message
frame handled before the block is filled carries a transaction and a key of 32 bytes. -/
theorem ingestion_exact_iff (pf : ClientPlatform) (ts : List Turn) (_ : AnswersAll pf ts) :
    Exact pf ts ↔ AllComplete pf ts := by
  constructor
  · rintro ⟨hing, -⟩ pre t hpre st' hrun hphase hread
    obtain ⟨st, hrun₀, ht, hcoll⟩ := run_append hrun hphase
    have hbefore := hing pre ((List.prefix_append pre [t]).trans hpre) st hrun₀
      (by simp [hcoll.phase])
    have hafter := hing (pre ++ [t]) hpre st' hrun hphase
    rcases turn_collecting hcoll ht hphase with ⟨-, -, hcount⟩ | ⟨hne, -⟩
    · have hlen := hafter.count
      rw [hcount, hbefore.count, carried_append, List.length_append] at hlen
      cases hc : carriedBy pf.codec t.2 with
      | none =>
        rw [hc] at hlen
        simp at hlen
      | some c =>
        refine ⟨c, rfl, ?_⟩
        obtain ⟨slot, -, hholds⟩ := hafter.slots (carried pf.codec pre).length c
          (by rw [carried_append, hc]; simp)
        rw [← hholds.publicKey]
        simp
    · exact absurd hread hne
  · intro h
    refine ⟨ingested_of_complete h, ?_⟩
    intro pre t hpre st st' hrun ht hphase hnone
    have hrun' : runTurns pf (pre ++ [t]) = some st' := by
      rw [runTurns_append, hrun, Option.bind_some, ht]
    obtain ⟨st₀, hrun₀, -, hcoll⟩ := run_append hrun' hphase
    obtain rfl : st₀ = st := Option.some.inj (hrun₀.symm.trans hrun)
    rcases turn_collecting hcoll ht hphase with ⟨hread, -, -⟩ | ⟨-, -, hsame⟩
    · obtain ⟨c, hc, -⟩ := h pre t hpre st' hrun' hphase hread
      rw [hnone] at hc
      cases hc
    · exact ⟨hsame.count, hsame.msgArr⟩

section Demonstration

/-- A message frame with a transaction of one byte and a key of zeros. -/
def completeTurn : Turn :=
  (zeroInput, wireCodec.pack ⟨some [1], some (List.replicate 32 0), zeroInput.stamp.date, 0,
    .messageSended⟩)

theorem unpack_completeTurn : wirePlatform.codec.unpack completeTurn.2 =
    some ⟨some [1], some (List.replicate 32 0), zeroInput.stamp.date, 0, .messageSended⟩ :=
  wireCodec.unpack_pack _ (by intro n; simp)

theorem answersAll_completeTurn : AnswersAll wirePlatform [completeTurn] := by
  apply answersAll_of_reads
  intro t ht
  rw [List.mem_singleton.mp ht, readOnlyStatusResponse, unpack_completeTurn]
  exact ⟨_, rfl, trivial⟩

end Demonstration

theorem ingestion_exact_of_complete : Exact wirePlatform [completeTurn] := by
  apply (ingestion_exact_iff wirePlatform _ answersAll_completeTurn).mpr
  intro pre t hpre st _ _ _
  have hmem := hpre.subset (List.mem_append_right pre (List.mem_singleton_self t))
  rw [List.mem_singleton.mp hmem]
  refine ⟨([1], List.replicate 32 0), ?_, List.length_replicate⟩
  rw [carriedBy, unpack_completeTurn]
  rfl

/-- A frame with status `MESSAGE_SENDED` and neither transaction nor key is counted. -/
theorem empty_message_counted : ∃ st,
    runTurns wirePlatform [statusTurn .messageSended] = some st ∧ st.loop.phase = .receiving ∧
    st.loop.count = 1 ∧ carried wirePlatform.codec [statusTurn .messageSended] = [] ∧
    ¬ Exact wirePlatform [statusTurn .messageSended] := by
  have hunpack : wirePlatform.codec.unpack (statusTurn .messageSended).2 =
      some ⟨none, none, zeroInput.stamp.date, zeroInput.stamp.epochNs, .messageSended⟩ :=
    wireCodec.unpack_pack _ (by intro n; simp)
  have hread : readOnlyStatusResponse wirePlatform.codec (statusTurn .messageSended).2 =
      some .messageSended := statusTurn_read (by intro n; simp)
  have hcarried : carried wirePlatform.codec [statusTurn .messageSended] = [] := by
    have hnone : carriedBy wirePlatform.codec (statusTurn .messageSended).2 = none := by
      rw [carriedBy, hunpack]
      rfl
    simp [carried, hnone]
  obtain ⟨st, hrun, hphase, hcount⟩ : ∃ st,
      runTurns wirePlatform [statusTurn .messageSended] = some st ∧
      st.loop.phase = .receiving ∧ st.loop.count = 1 := by
    rw [← List.nil_append [statusTurn .messageSended], runTurns_append]
    simp only [runTurns, List.foldlM_nil, Option.pure_def, Option.bind_some, frameTurn]
    rw [if_neg (by decide), hread]
    simp only [Option.bind_eq_bind, Option.bind_some, handleFlag, store, deserializeDataFromServer,
      hunpack, copyPubkey, copyTransaction]
    exact ⟨_, rfl, rfl, rfl⟩
  refine ⟨st, hrun, hphase, hcount, hcarried, fun hexact => ?_⟩
  have hing := hexact.1 _ (List.prefix_refl _) st hrun (by simp [hphase])
  have hzero := hing.count
  rw [hcount, hcarried] at hzero
  cases hzero

end CBlockchain.Ingestion
