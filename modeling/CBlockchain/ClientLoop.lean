import CBlockchain.P2pSerdes
import CBlockchain.ReceiveLoop

/-! The receive loop of `setup_client_iouring` against an arbitrary server, frame by frame,
up to and beyond the finished block. A turn acts on the frame its own receive returned. That
is so as long as every frame is answered, since then all completions have been seen when the
next receive is submitted; results about whole runs are for such runs. Beside its own
variables the loop writes what it shares with the peer thread: the serialized block, its
size, and the mutex that says when both may be read. -/
namespace CBlockchain.ClientLoop
open BlockProcess CalcMerkleTree P2pSerdes ReceiveLoop Serdes

/-- `buffer_BLOCK_DATA`, `block_written_size`, and whether `block_created_mtx` is held. -/
structure Shared where
  blockData : List UInt8
  blockWrittenSize : ℕ
  mtxHeld : Bool

/-- The loop's own variables and the shared ones. -/
structure ClientState where
  loop : Client
  shared : Shared

/-- What the loop takes from outside the repository. -/
structure ClientPlatform where
  H : GenericHash
  codec : Codec
  p2p : P2pCodec

/-- What the machine supplies to one turn: the clock for status frames, and what
`processing_block` may need. -/
structure TurnInput where
  stamp : Stamp
  machine : Machine
  fuel : ℕ

/-- A turn's input and the frame it received. -/
abbrev Turn := TurnInput × List UInt8

variable (pf : ClientPlatform)

/-- The end of the branch for the last message: serialize, store the size, unlock. -/
def publishBlock (block : Block) (sh : Shared) : Shared :=
  let data := p2pSerializeBlockToSock pf.p2p block
  ⟨memcpy data.length sh.blockData data, data.length, false⟩

/-- One turn of the loop. With `flag_block_filled` set it only waits. -/
def frameTurn (t : Turn) (st : ClientState) : Option ClientState :=
  if st.loop.phase = .filled then some st
  else do
    let status ← readOnlyStatusResponse pf.codec t.2
    let (cl, _) ← handleFlag pf.codec t.1.stamp t.2.length t.2 (receive t.2 st.loop) status
    if cl.phase = .assembling then do
      let cl ← assembleBlock pf.H t.1.machine t.1.fuel cl
      let block ← cl.block
      some ⟨cl, publishBlock pf block st.shared⟩
    else some ⟨cl, st.shared⟩

/-- Connected, with the mutex taken. -/
def connected : ClientState :=
  ⟨connectedClient, ⟨List.replicate 4096 0, 0, true⟩⟩

def runTurns (ts : List Turn) : Option ClientState :=
  ts.foldlM (fun st t => frameTurn pf t st) connected

theorem runTurns_append (ts : List Turn) (t : Turn) :
    runTurns pf (ts ++ [t]) = (runTurns pf ts).bind (frameTurn pf t) := by
  simp [runTurns, List.foldlM_append]

/-- The statuses that the switch sends an answer to. -/
def Answered : Status → Prop
  | .askNeedMsg | .ok | .messageSended | .allBlockMsgSended => True
  | _ => False

/-- Every frame handled before the block is filled has a status that is answered. -/
def AnswersAll (ts : List Turn) : Prop :=
  ∀ pre t, pre ++ [t] <+: ts → ∀ st, runTurns pf pre = some st → st.loop.phase ≠ .filled →
    ∀ status, readOnlyStatusResponse pf.codec t.2 = some status → Answered status

theorem answersAll_of_reads {pf : ClientPlatform} {ts : List Turn}
    (h : ∀ t ∈ ts, ∃ status, readOnlyStatusResponse pf.codec t.2 = some status ∧ Answered status) :
    AnswersAll pf ts := by
  intro pre t hpre st _ _ status hread
  obtain ⟨status', hread', hans⟩ := h t (hpre.subset (by simp))
  rw [hread, Option.some.injEq] at hread'
  rw [hread']
  exact hans

/-- What holds at the start and is kept by every turn holds after every run. -/
theorem runTurns_invariant {pf : ClientPlatform} {P : List Turn → ClientState → Prop}
    (hstart : P [] connected)
    (hturn : ∀ ts t st st', runTurns pf ts = some st → P ts st → frameTurn pf t st = some st' →
      P (ts ++ [t]) st') {ts : List Turn} {st : ClientState} (hrun : runTurns pf ts = some st) :
    P ts st := by
  induction ts using List.reverseRecOn generalizing st with
  | nil =>
    rw [← Option.some.inj hrun]
    exact hstart
  | append_singleton ts t ih =>
    rw [runTurns_append, Option.bind_eq_some_iff] at hrun
    obtain ⟨st₀, hrun₀, ht⟩ := hrun
    exact hturn ts t st₀ st hrun₀ (ih hrun₀) ht

section Switch
variable {codec : Codec} {stamp : Stamp} {res : ℤ} {data : List UInt8} {cl cl' : Client}
  {status : Status} {sent : List (Target × List UInt8)}

/-- The variables a frame without a message leaves alone. -/
structure SameStore (cl cl' : Client) : Prop where
  count : cl'.count = cl.count
  stored : cl'.stored = cl.stored
  msgArr : cl'.msgArr = cl.msgArr
  tree : cl'.tree = cl.tree
  block : cl'.block = cl.block

/-- A message frame went through the decoder into the slot of the count. -/
structure Stores (codec : Codec) (data : List UInt8) (cl cl' : Client) : Prop where
  slot : ∃ slot slot', cl.msgArr[cl.count]? = some slot ∧
    deserializeDataFromServer codec data slot = some slot' ∧
    cl'.msgArr = cl.msgArr.set cl.count slot'
  stored : cl'.stored = cl.stored + 1
  tree : cl'.tree = cl.tree
  block : cl'.block = cl.block

/-- What the switch can do. -/
inductive Handled (codec : Codec) (data : List UInt8) (cl cl' : Client) : Status → Prop
  | message (hcount : cl.count < 511) (h : Stores codec data cl cl')
      (count : cl'.count = cl.count + 1) (phase : cl'.phase = cl.phase) :
      Handled codec data cl cl' .messageSended
  | last (hcount : cl.count = 511) (h : Stores codec data cl cl') (count : cl'.count = cl.count)
      (phase : cl'.phase = .assembling) : Handled codec data cl cl' .messageSended
  | refused (hcount : 511 < cl.count) (h : SameStore cl cl') (phase : cl'.phase = cl.phase) :
      Handled codec data cl cl' .messageSended
  | allSent (h : SameStore cl cl') (phase : cl'.phase = .filled) :
      Handled codec data cl cl' .allBlockMsgSended
  | other {status : Status} (hmsg : status ≠ .messageSended) (hall : status ≠ .allBlockMsgSended)
      (h : SameStore cl cl') (phase : cl'.phase = cl.phase) : Handled codec data cl cl' status

/-- The slots after the switch: as they were, or with the slot of the count decoded anew. -/
theorem Handled.slots (h : Handled codec data cl cl' status) :
    cl'.msgArr = cl.msgArr ∨ ∃ slot slot', cl.msgArr[cl.count]? = some slot ∧
      deserializeDataFromServer codec data slot = some slot' ∧
      cl'.msgArr = cl.msgArr.set cl.count slot' := by
  cases h with
  | message _ hs => exact Or.inr hs.slot
  | last _ hs => exact Or.inr hs.slot
  | refused _ hs => exact Or.inl hs.msgArr
  | allSent hs => exact Or.inl hs.msgArr
  | other _ _ hs => exact Or.inl hs.msgArr

theorem handleFlag_handled
    (h : handleFlag codec stamp res data cl status = some (cl', sent)) :
    Handled codec data cl cl' status := by
  have hstore : ∀ {c : Client}, store codec data cl = some c → ∃ slot slot',
      cl.msgArr[cl.count]? = some slot ∧ deserializeDataFromServer codec data slot = some slot' ∧
      c = { cl with msgArr := cl.msgArr.set cl.count slot', stored := cl.stored + 1 } := by
    intro c hc
    simp only [store, Option.bind_eq_bind, Option.bind_eq_some_iff, Option.some.injEq] at hc
    obtain ⟨slot, hslot, slot', hdes, rfl⟩ := hc
    exact ⟨slot, slot', hslot, hdes, rfl⟩
  cases status with
  | messageSended =>
    simp only [handleFlag] at h
    split at h
    · rename_i hcount
      simp only [Option.bind_eq_bind, Option.bind_eq_some_iff, Option.some.injEq,
        sendStatusInPlace, sendStatus, Prod.mk.injEq] at h
      obtain ⟨c, hc, rfl, -⟩ := h
      obtain ⟨slot, slot', hslot, hdes, rfl⟩ := hstore hc
      exact .message hcount ⟨⟨slot, slot', hslot, hdes, rfl⟩, rfl, rfl, rfl⟩ rfl rfl
    · split at h
      · rename_i hcount
        simp only [Option.bind_eq_bind, Option.bind_eq_some_iff, Option.some.injEq,
          sendStatus, Prod.mk.injEq] at h
        obtain ⟨c, hc, rfl, -⟩ := h
        obtain ⟨slot, slot', hslot, hdes, rfl⟩ := hstore hc
        exact .last hcount ⟨⟨slot, slot', hslot, hdes, rfl⟩, rfl, rfl, rfl⟩ rfl rfl
      · simp only [Option.some.injEq, sendStatus, Prod.mk.injEq] at h
        obtain ⟨rfl, -⟩ := h
        exact .refused (by omega) ⟨rfl, rfl, rfl, rfl, rfl⟩ rfl
  | allBlockMsgSended =>
    simp only [handleFlag, Option.some.injEq, sendStatus, Prod.mk.injEq] at h
    obtain ⟨rfl, -⟩ := h
    exact .allSent ⟨rfl, rfl, rfl, rfl, rfl⟩ rfl
  | _ =>
    simp only [handleFlag, Option.some.injEq, sendStatus, sendStatusInPlace, Prod.mk.injEq] at h
    obtain ⟨rfl, -⟩ := h
    exact .other (by simp) (by simp) ⟨rfl, rfl, rfl, rfl, rfl⟩ rfl

end Switch

section Runs
variable {pf} {t : Turn} {ts : List Turn} {st st' : ClientState}

/-- What a turn can do: wait, act on a frame, or act on the last message and finish. -/
inductive TurnDone (pf : ClientPlatform) (t : Turn) (st : ClientState) : ClientState → Prop
  | waits (phase : st.loop.phase = .filled) : TurnDone pf t st st
  | handled {st' : ClientState} (status : Status) (phase : st.loop.phase ≠ .filled)
      (read : readOnlyStatusResponse pf.codec t.2 = some status)
      (h : Handled pf.codec t.2 st.loop st'.loop status) (phase' : st'.loop.phase ≠ .assembling)
      (shared : st'.shared = st.shared) : TurnDone pf t st st'
  | finished {st' : ClientState} (status : Status) (cl : Client) (block : Block)
      (phase : st.loop.phase ≠ .filled)
      (read : readOnlyStatusResponse pf.codec t.2 = some status)
      (h : Handled pf.codec t.2 st.loop cl status) (phase' : cl.phase = .assembling)
      (done : assembleBlock pf.H t.1.machine t.1.fuel cl = some st'.loop)
      (made : st'.loop.block = some block) (shared : st'.shared = publishBlock pf block st.shared) :
      TurnDone pf t st st'

theorem SameStore.refl (cl : Client) : SameStore cl cl := ⟨rfl, rfl, rfl, rfl, rfl⟩

theorem SameStore.trans {cl cl' cl'' : Client} (h : SameStore cl cl') (h' : SameStore cl' cl'') :
    SameStore cl cl'' where
  count := h'.count.trans h.count
  stored := h'.stored.trans h.stored
  msgArr := h'.msgArr.trans h.msgArr
  tree := h'.tree.trans h.tree
  block := h'.block.trans h.block

theorem Stores.of_same {codec : Codec} {data : List UInt8} {cl c c' cl' : Client}
    (h : Stores codec data c c') (hs : SameStore cl c) (hs' : SameStore c' cl') :
    Stores codec data cl cl' where
  slot := by
    rw [← hs.msgArr, ← hs.count, hs'.msgArr]
    exact h.slot
  stored := by rw [hs'.stored, h.stored, hs.stored]
  tree := by rw [hs'.tree, h.tree, hs.tree]
  block := by rw [hs'.block, h.block, hs.block]

/-- What comes before and after the switch and leaves its variables alone does not matter. -/
theorem Handled.of_same {codec : Codec} {data : List UInt8} {cl c c' cl' : Client}
    {status : Status} (h : Handled codec data c c' status) (hs : SameStore cl c)
    (hphase : c.phase = cl.phase) (hs' : SameStore c' cl') (hphase' : cl'.phase = c'.phase) :
    Handled codec data cl cl' status := by
  have hcount := hs.count
  cases h with
  | message hlt h count phase =>
    refine .message (by omega) (h.of_same hs hs') ?_ ?_
    · rw [hs'.count, count, hcount]
    · rw [hphase', phase, hphase]
  | last heq h count phase =>
    refine .last (by omega) (h.of_same hs hs') ?_ ?_
    · rw [hs'.count, count, hcount]
    · rw [hphase', phase]
  | refused hlt h phase =>
    refine .refused (by omega) ((hs.trans h).trans hs') ?_
    rw [hphase', phase, hphase]
  | allSent h phase => exact .allSent ((hs.trans h).trans hs') (hphase'.trans phase)
  | other hmsg hall h phase =>
    refine .other hmsg hall ((hs.trans h).trans hs') ?_
    rw [hphase', phase, hphase]

/-- Receiving a frame changes the buffer and the completions only. -/
theorem Handled.of_receive {codec : Codec} {data frame : List UInt8} {cl cl' : Client}
    {status : Status} (h : Handled codec data (receive frame cl) cl' status) :
    Handled codec data cl cl' status :=
  h.of_same ⟨rfl, rfl, rfl, rfl, rfl⟩ rfl (.refl cl') rfl

theorem frameTurn_done (h : frameTurn pf t st = some st') : TurnDone pf t st st' := by
  unfold frameTurn at h
  split at h
  · rename_i hphase
    rw [← Option.some.inj h]
    exact .waits hphase
  · rename_i hphase
    simp only [Option.bind_eq_bind, Option.bind_eq_some_iff] at h
    obtain ⟨status, hread, ⟨cl, sent⟩, hflag, h⟩ := h
    have hhandled := (handleFlag_handled hflag).of_receive
    split at h
    · rename_i hassembling
      simp only [Option.bind_eq_some_iff, Option.some.injEq] at h
      obtain ⟨cl', hdone, block, hblock, rfl⟩ := h
      exact .finished status cl block hphase hread hhandled hassembling hdone hblock rfl
    · rename_i hassembling
      rw [← Option.some.inj h]
      exact .handled status hphase hread hhandled hassembling rfl

/-- Frames with status `MESSAGE_SENDED`. -/
def messages (codec : Codec) (ts : List Turn) : ℕ :=
  ts.countP fun t => readOnlyStatusResponse codec t.2 = some .messageSended

theorem messages_append (codec : Codec) (ts : List Turn) (t : Turn) :
    messages codec (ts ++ [t]) = messages codec ts +
      if readOnlyStatusResponse codec t.2 = some .messageSended then 1 else 0 := by
  simp [messages, List.countP_append, List.countP_singleton]

/-- Before the block is filled: the count is the number of message frames, nothing has been
made, and the mutex is held. -/
structure Collecting (codec : Codec) (ts : List Turn) (st : ClientState) : Prop where
  phase : st.loop.phase = .receiving
  count_le : st.loop.count ≤ 511
  count : st.loop.count = messages codec ts
  stored : st.loop.stored = st.loop.count
  length : st.loop.msgArr.length = 512
  held : st.shared.mtxHeld = true

theorem Collecting.count_lt {codec : Codec} (h : Collecting codec ts st) :
    st.loop.count < st.loop.msgArr.length := by
  rw [h.length]
  exact Nat.lt_succ_of_le h.count_le

/-- 512 messages are stored; tree and block are those of the messages; the block is in
`buffer_BLOCK_DATA` with its size, and the mutex is free. -/
structure Completed (pf : ClientPlatform) (st : ClientState) : Prop where
  stored : st.loop.stored = 512
  made : ∃ cont mem block m fuel,
    calcMerkleTree pf.H 9 0 (.ofMessages st.loop.msgArr) = some (cont, mem) ∧
    processingBlock pf.H m cont mem fuel = some block ∧
    st.loop.tree = some (cont, mem) ∧ st.loop.block = some block ∧
    st.shared.blockWrittenSize = (p2pSerializeBlockToSock pf.p2p block).length ∧
    st.shared.blockData.take st.shared.blockWrittenSize = p2pSerializeBlockToSock pf.p2p block
  released : st.shared.mtxHeld = false

/-- `ALL_BLOCK_MSG_SENDED` is handled when fewer than 512 messages have come. -/
def EndsEarly (pf : ClientPlatform) (ts : List Turn) : Prop :=
  ∃ pre t, pre ++ [t] <+: ts ∧ (∃ st, runTurns pf pre = some st) ∧
    messages pf.codec pre < 512 ∧ readOnlyStatusResponse pf.codec t.2 = some .allBlockMsgSended

theorem EndsEarly.mono {ts' : List Turn} (h : EndsEarly pf ts) (hpre : ts <+: ts') :
    EndsEarly pf ts' := by
  obtain ⟨pre, t, hts, hrest⟩ := h
  exact ⟨pre, t, hts.trans hpre, hrest⟩

/-- The three kinds of states at the loop head. -/
inductive AtHead (pf : ClientPlatform) (ts : List Turn) (st : ClientState) : Prop
  | collecting (h : Collecting pf.codec ts st)
  | completed (phase : st.loop.phase = .filled) (h : Completed pf st)
      (count : 512 ≤ messages pf.codec ts)
  | ended (phase : st.loop.phase = .filled) (stored : st.loop.stored ≤ 511) (h : EndsEarly pf ts)
      (held : st.shared.mtxHeld = true)

theorem assembled_completed {cl : Client} {block : Block} {m : Machine} {fuel : ℕ}
    (hstored : cl.stored = 512) (h : assembleBlock pf.H m fuel cl = some st'.loop)
    (hblock : st'.loop.block = some block)
    (hshared : st'.shared = publishBlock pf block st.shared) :
    st'.loop.phase = .filled ∧ Completed pf st' := by
  simp only [assembleBlock, Option.bind_eq_bind, Option.bind_eq_some_iff, Option.some.injEq] at h
  obtain ⟨⟨cont, mem⟩, htree, block', hmade, ver, -, hcl⟩ := h
  rw [← hcl] at hblock
  obtain rfl : block' = block := Option.some.inj hblock
  refine ⟨by rw [← hcl], ?_, ⟨cont, mem, block', m, fuel, ?_, hmade, ?_, ?_, ?_, ?_⟩, ?_⟩
  · rw [← hcl]
    exact hstored
  · rw [← hcl]
    exact htree
  · rw [← hcl]
  · rw [← hcl]
  · rw [hshared]
    rfl
  · rw [hshared]
    simp [publishBlock, memcpy]
  · rw [hshared]
    rfl

/-- What a turn does before the block is filled: it stores a message, stores the last one and
makes the block, takes the server's word that all were sent, or skips the frame. -/
inductive CollectingTurn (pf : ClientPlatform) (t : Turn) (st : ClientState) : ClientState → Prop
  | stored {st' : ClientState} (read : readOnlyStatusResponse pf.codec t.2 = some .messageSended)
      (lt : st.loop.count < 511) (h : Stores pf.codec t.2 st.loop st'.loop)
      (count : st'.loop.count = st.loop.count + 1) (phase : st'.loop.phase = .receiving)
      (shared : st'.shared = st.shared) : CollectingTurn pf t st st'
  | last {st' : ClientState} (cl : Client) (block : Block)
      (read : readOnlyStatusResponse pf.codec t.2 = some .messageSended)
      (count : st.loop.count = 511) (h : Stores pf.codec t.2 st.loop cl)
      (done : assembleBlock pf.H t.1.machine t.1.fuel cl = some st'.loop)
      (made : st'.loop.block = some block) (shared : st'.shared = publishBlock pf block st.shared) :
      CollectingTurn pf t st st'
  | ended {st' : ClientState}
      (read : readOnlyStatusResponse pf.codec t.2 = some .allBlockMsgSended)
      (h : SameStore st.loop st'.loop) (phase : st'.loop.phase = .filled)
      (shared : st'.shared = st.shared) : CollectingTurn pf t st st'
  | skipped {st' : ClientState} (status : Status)
      (read : readOnlyStatusResponse pf.codec t.2 = some status) (hmsg : status ≠ .messageSended)
      (h : SameStore st.loop st'.loop) (phase : st'.loop.phase = .receiving)
      (shared : st'.shared = st.shared) : CollectingTurn pf t st st'

theorem Collecting.turn (h : Collecting pf.codec ts st) (ht : frameTurn pf t st = some st') :
    CollectingTurn pf t st st' := by
  have hle := h.count_le
  cases frameTurn_done ht with
  | waits phase => simp [h.phase] at phase
  | handled status phase read hd phase' shared =>
    cases hd with
    | message lt hs count same => exact .stored read lt hs count (same.trans h.phase) shared
    | last _ _ _ assembling => exact absurd assembling phase'
    | refused gt => omega
    | allSent hs filled => exact .ended read hs filled shared
    | other hmsg _ hs same => exact .skipped status read hmsg hs (same.trans h.phase) shared
  | finished status cl block phase read hd phase' done made shared =>
    cases hd with
    | last count hs => exact .last cl block read count hs done made shared
    | message _ _ _ same => simp [same, h.phase] at phase'
    | refused gt => omega
    | allSent _ filled => simp [filled] at phase'
    | other _ _ _ same => simp [same, h.phase] at phase'

theorem frameTurn_filled (h : st.loop.phase = .filled) (t : Turn) : frameTurn pf t st = some st :=
  if_pos h

theorem turn_atHead (hrun : runTurns pf ts = some st) (h : AtHead pf ts st)
    (ht : frameTurn pf t st = some st') : AtHead pf (ts ++ [t]) st' := by
  cases h with
  | collecting h =>
    cases h.turn ht with
    | stored read lt hs count phase shared =>
      obtain ⟨slot, slot', -, -, harr⟩ := hs.slot
      refine .collecting ⟨phase, by omega, ?_, ?_, ?_, ?_⟩
      · rw [messages_append, if_pos read, ← h.count, count]
      · rw [hs.stored, count, h.stored]
      · rw [harr, List.length_set, h.length]
      · rw [shared, h.held]
    | last cl block read count hs done made shared =>
      have hstored : cl.stored = 512 := by rw [hs.stored, h.stored, count]
      obtain ⟨hfilled, hcompleted⟩ := assembled_completed hstored done made shared
      refine .completed hfilled hcompleted ?_
      rw [messages_append, if_pos read, ← h.count, count]
    | ended read hs phase shared =>
      have hlt : messages pf.codec ts < 512 := by
        rw [← h.count]
        exact Nat.lt_succ_of_le h.count_le
      refine .ended phase (by rw [hs.stored, h.stored]; exact h.count_le) ?_ ?_
      · exact ⟨ts, t, List.prefix_refl _, ⟨st, hrun⟩, hlt, read⟩
      · rw [shared, h.held]
    | skipped status read hmsg hs phase shared =>
      refine .collecting ⟨phase, hs.count ▸ h.count_le, ?_, ?_, ?_, ?_⟩
      · rw [messages_append, read, if_neg (by simpa using hmsg), hs.count, h.count, add_zero]
      · rw [hs.stored, hs.count, h.stored]
      · rw [hs.msgArr, h.length]
      · rw [shared, h.held]
  | completed phase h count =>
    rw [frameTurn_filled phase, Option.some.injEq] at ht
    rw [← ht]
    refine .completed phase h (count.trans ?_)
    rw [messages_append]
    omega
  | ended phase stored h held =>
    rw [frameTurn_filled phase, Option.some.injEq] at ht
    rw [← ht]
    exact .ended phase stored (h.mono (List.prefix_append _ _)) held

theorem connected_collecting (codec : Codec) : Collecting codec [] connected where
  phase := rfl
  count_le := by decide
  count := rfl
  stored := rfl
  length := List.length_replicate
  held := rfl

theorem runTurns_atHead (hrun : runTurns pf ts = some st) : AtHead pf ts st := by
  apply runTurns_invariant _ _ hrun
  · exact .collecting (connected_collecting pf.codec)
  · intro ts t st st' hrun h ht
    exact turn_atHead hrun h ht

theorem frameTurn_allSent (h : st.loop.phase ≠ .filled)
    (read : readOnlyStatusResponse pf.codec t.2 = some .allBlockMsgSended) :
    ∃ st', frameTurn pf t st = some st' ∧ st'.loop.phase = .filled ∧
      SameStore st.loop st'.loop ∧ st'.shared = st.shared := by
  unfold frameTurn
  rw [if_neg h, read]
  exact ⟨_, rfl, rfl, ⟨rfl, rfl, rfl, rfl, rfl⟩, rfl⟩

end Runs

/-- Over answered frames: at every loop head, `flag_block_filled` is set exactly if the block is
completed, for exactly the sequences in which the server does not say `ALL_BLOCK_MSG_SENDED`
before its 512th message. Once the flag is set nothing changes. -/
theorem filled_iff_completed_iff (pf : ClientPlatform) (ts : List Turn) (_ : AnswersAll pf ts) :
    ((∀ pre, pre <+: ts → ∀ st, runTurns pf pre = some st →
      (st.loop.phase = .filled ↔ Completed pf st)) ↔ ¬ EndsEarly pf ts) ∧
    ∀ st, runTurns pf ts = some st → st.loop.phase = .filled →
      ∀ t, frameTurn pf t st = some st := by
  refine ⟨⟨?_, ?_⟩, fun st _ hphase t => frameTurn_filled hphase t⟩
  · rintro hall ⟨pre, t, hpre, ⟨st, hrun⟩, hcount, hread⟩
    have hpre' : pre <+: ts := (List.prefix_append pre [t]).trans hpre
    cases runTurns_atHead hrun with
    | collecting h =>
      have hphase : st.loop.phase ≠ .filled := by simp [h.phase]
      obtain ⟨st', ht, hfilled, hsame, -⟩ := frameTurn_allSent hphase hread
      have hrun' : runTurns pf (pre ++ [t]) = some st' := by
        rw [runTurns_append, hrun, Option.bind_some, ht]
      have hdone := ((hall _ hpre st' hrun').mp hfilled).stored
      rw [hsame.stored, h.stored] at hdone
      have := h.count_le
      omega
    | completed hphase h hcount' => omega
    | ended hphase hstored _ =>
      have hdone := ((hall pre hpre' st hrun).mp hphase).stored
      omega
  · intro hno pre hpre st hrun
    cases runTurns_atHead hrun with
    | collecting h =>
      refine ⟨fun hphase => ?_, fun hdone => ?_⟩
      · rw [h.phase] at hphase
        cases hphase
      · have hstored := hdone.stored
        have := h.count_le
        rw [h.stored] at hstored
        omega
    | completed hphase h _ => exact iff_of_true hphase h
    | ended hphase hstored h => exact absurd (h.mono hpre) hno

section Demonstration

def wirePlatform : ClientPlatform := ⟨orHash, wireCodec, p2pWireCodec⟩

def zeroInput : TurnInput := ⟨⟨⟨[], CString.nil_noNul⟩, 0⟩, zeroMachine, 0⟩

/-- A frame that carries a status and nothing else. -/
def statusTurn (status : Status) : Turn :=
  (zeroInput, sendOnlyStatusCode wireCodec zeroInput.stamp status)

theorem statusTurn_read {status : Status} (h : status.Named) :
    readOnlyStatusResponse wirePlatform.codec (statusTurn status).2 = some status :=
  readOnlyStatusResponse_send wireCodec _ h

theorem answersAll_ask : AnswersAll wirePlatform [statusTurn .askNeedMsg] := by
  apply answersAll_of_reads
  intro t ht
  rw [List.mem_singleton.mp ht]
  exact ⟨_, statusTurn_read (by intro n; simp), trivial⟩

end Demonstration

theorem filled_iff_completed_after_ask : ¬ EndsEarly wirePlatform [statusTurn .askNeedMsg] ∧
    ∀ pre, pre <+: [statusTurn .askNeedMsg] → ∀ st, runTurns wirePlatform pre = some st →
      (st.loop.phase = .filled ↔ Completed wirePlatform st) := by
  have hends : ¬ EndsEarly wirePlatform [statusTurn .askNeedMsg] := by
    rintro ⟨pre, t, hpre, -, -, hread⟩
    have hmem := hpre.subset (List.mem_append_right pre (List.mem_singleton_self t))
    rw [List.mem_singleton.mp hmem, statusTurn_read (by intro n; simp)] at hread
    cases hread
  exact ⟨hends, (filled_iff_completed_iff wirePlatform _ answersAll_ask).1.mpr hends⟩

/-- A server whose first frame says `ALL_BLOCK_MSG_SENDED` sets the flag of a client that
has no message, no tree and no block, and that still holds the mutex. -/
theorem filled_without_block : ∃ st,
    runTurns wirePlatform [statusTurn .allBlockMsgSended] = some st ∧
    st.loop.phase = .filled ∧ st.loop.stored = 0 ∧ st.loop.tree = none ∧ st.loop.block = none ∧
    st.shared.mtxHeld = true ∧ ¬ Completed wirePlatform st := by
  have hread : readOnlyStatusResponse wirePlatform.codec (statusTurn .allBlockMsgSended).2 =
      some .allBlockMsgSended := statusTurn_read (by intro n; simp)
  have hphase : connected.loop.phase ≠ .filled := by decide
  obtain ⟨st, ht, hfilled, hsame, hshared⟩ := frameTurn_allSent hphase hread
  have hrun : runTurns wirePlatform [statusTurn .allBlockMsgSended] = some st := by
    rw [← List.nil_append [statusTurn .allBlockMsgSended], runTurns_append]
    exact ht
  have hheld : st.shared.mtxHeld = true := by
    rw [hshared]
    rfl
  refine ⟨st, hrun, hfilled, hsame.stored, hsame.tree, hsame.block, hheld, fun h => ?_⟩
  have hfree := h.released
  rw [hheld] at hfree
  cases hfree

end CBlockchain.ClientLoop
