import CBlockchain.DataHandlers
import CBlockchain.Release

/-! The message buffer under any history of pushes, accesses and resets. Messages are created
at increasing addresses, so the number of messages created when `fill_size` last became 0
tells the messages pushed since then from all others. -/
namespace CBlockchain.BufferHistory
open DataHandlers Heap Layering

/-- `PUSH_msg_circ_buf`, `GET_nth_circ_buf`, and the assignment in `FINISH_SENDING`. -/
inductive BufOp where
  | push
  | get (N : ℕ)
  | reset
  deriving DecidableEq

/-- The slots asked for exist. -/
def BufOp.Valid : BufOp → Prop
  | get N => N < 512
  | _ => True

/-- The buffer, and how many messages there were when `fill_size` last became 0. -/
structure BufState where
  cbuf : CircBuf
  epoch : ℕ

section Code
variable (src : MessageSource)

/-- One operation. An access to a slot that exists pushes at most 512 messages and never
comes past a full buffer. -/
def bufStep (op : BufOp) (s : BufState) : Option BufState :=
  match op with
  | .push => (pushMsgCircBuf src s.cbuf).map fun cbuf =>
      ⟨cbuf, if cbuf.fillSize = 0 then cbuf.msgs.cells.length else s.epoch⟩
  | .get N => (getNthCircBuf src 512 N s.cbuf).map fun r => ⟨r.2, s.epoch⟩
  | .reset => some ⟨{ s.cbuf with fillSize := 0 }, s.cbuf.msgs.cells.length⟩

def created : BufState := ⟨createCircBuf, 0⟩

def history (ops : List BufOp) : Option BufState :=
  ops.foldlM (fun s op => bufStep src op s) created

theorem history_append (ops : List BufOp) (op : BufOp) :
    history src (ops ++ [op]) = (history src ops).bind (bufStep src op) := by
  simp [history, List.foldlM_append]

/-- An access returns the message of its slot, one pushed since `fill_size` last became 0 and
not destroyed, and the slot is in use afterwards. -/
def Current (N : ℕ) (s : BufState) : Prop :=
  ∃ a m cbuf, getNthCircBuf src 512 N s.cbuf = some (some a, cbuf) ∧
    ptrAt cbuf.buffer N = some a ∧ s.epoch ≤ a ∧ cbuf.msgs.read (some a) = some m ∧
    N < cbuf.fillSize ∧ cbuf.fillSize ≤ cbuf.maxlen

end Code

/-- `fill_size` after an operation: a push on a full buffer empties it, an access to an empty
one leaves it empty. -/
def fillStep (fill : ℕ) : BufOp → ℕ
  | .push => if fill = 512 then 0 else fill + 1
  | .get N => if fill = 0 then 0 else max fill (N + 1)
  | .reset => 0

def fillAfter (ops : List BufOp) : ℕ := ops.foldl fillStep 0

theorem fillAfter_append (ops : List BufOp) (op : BufOp) :
    fillAfter (ops ++ [op]) = fillStep (fillAfter ops) op := by
  simp [fillAfter]

/-- The slots in use hold different messages created since `epoch`, none of them destroyed. -/
structure Fresh (epoch : ℕ) (c : CircBuf) : Prop where
  length : c.buffer.length = 512
  maxlen : c.maxlen = 512
  le : c.fillSize ≤ 512
  epoch_le : epoch ≤ c.msgs.cells.length
  slots : ∀ i < c.fillSize, ∃ a m, ptrAt c.buffer i = some a ∧ epoch ≤ a ∧
    c.msgs.read (some a) = some m
  inj : ∀ i j, i < c.fillSize → j < c.fillSize → ptrAt c.buffer i = ptrAt c.buffer j → i = j

section Operations
variable (src : MessageSource) {epoch : ℕ} {c : CircBuf}

theorem fresh_empty (hlen : c.buffer.length = 512) (hmax : c.maxlen = 512)
    (hfill : c.fillSize = 0) : Fresh c.msgs.cells.length c where
  length := hlen
  maxlen := hmax
  le := by omega
  epoch_le := le_rfl
  slots := by
    intro i hi
    omega
  inj := by
    intro i j hi
    omega

theorem cleanCircBuf_eq (c : CircBuf) :
    cleanCircBuf c = (releaseAll c.buffer c.msgs).map fun msgs => { c with msgs := msgs } := by
  rw [Option.map_eq_bind]
  rfl

theorem Fresh.nodup_of_full (h : Fresh epoch c) (hfull : c.fillSize = 512) : c.buffer.Nodup := by
  rw [List.nodup_iff_getElem?_ne_getElem?]
  intro i j hij hj heq
  have hlen := h.length
  rw [getElem?_ptrAt (by omega), getElem?_ptrAt hj, Option.some.injEq] at heq
  have := h.inj i j (by omega) (by omega) heq
  omega

theorem Fresh.push_full (h : Fresh epoch c) (hfull : c.fillSize = 512) :
    ∃ c', pushMsgCircBuf src c = some c' ∧ c'.fillSize = 0 ∧
      Fresh c'.msgs.cells.length c' := by
  set m := src.lsGetASignedMsg c.msgs.cells.length with hm
  obtain ⟨msgs', hclean, -⟩ :=
    releaseAll_spec (h := (c.msgs.alloc m).2) (h.nodup_of_full hfull) (by
      intro p hp
      obtain ⟨i, hi, rfl⟩ := List.mem_iff_getElem.mp hp
      have hlen := h.length
      obtain ⟨a, m', hptr, -, hread⟩ := h.slots i (by omega)
      have hget := getElem?_ptrAt hi
      rw [List.getElem?_eq_getElem hi, Option.some.injEq] at hget
      rw [hget, hptr]
      exact ⟨m', Heap.alloc_extends _ _ _ _ hread⟩)
  refine ⟨⟨c.buffer, 0, c.maxlen, msgs'⟩, ?_, rfl, fresh_empty h.length h.maxlen rfl⟩
  simp only [pushMsgCircBuf, ← hm]
  rw [if_pos (by rw [hfull, h.maxlen]), cleanCircBuf_eq, hclean]
  rfl

/-- New messages lie at addresses that no slot in use points to. -/
theorem Fresh.filledTo {n : ℕ} {c' : CircBuf} (h : Fresh epoch c) (hf : FilledTo src n c c')
    (hn : c.fillSize ≤ n) (hle : n ≤ 512) : Fresh epoch c' where
  length := hf.length.trans h.length
  maxlen := hf.maxlen.trans h.maxlen
  le := hf.fillSize.trans_le hle
  epoch_le := by
    have hlen := hf.length_cells
    have hep := h.epoch_le
    omega
  slots := by
    intro i hi
    rw [hf.fillSize] at hi
    by_cases hold : i < c.fillSize
    · obtain ⟨a, m, hptr, ha, hread⟩ := h.slots i hold
      exact ⟨a, m, (hf.kept i (Or.inl hold)).trans hptr, ha, hf.extends _ _ hread⟩
    · have hptr := hf.pushed i (by omega) hi
      have hep := h.epoch_le
      exact ⟨_, _, hptr, by omega, hf.read_new (by omega) (by omega)⟩
  inj := by
    have hlt : ∀ i < c.fillSize, ∃ a < c.msgs.cells.length, ptrAt c'.buffer i = some a := by
      intro i hi
      obtain ⟨a, m, hptr, -, hread⟩ := h.slots i hi
      exact ⟨a, Heap.read_some_lt hread, (hf.kept i (Or.inl hi)).trans hptr⟩
    intro i j hi hj heq
    rw [hf.fillSize] at hi hj
    by_cases hi' : i < c.fillSize
    · by_cases hj' : j < c.fillSize
      · rw [hf.kept i (Or.inl hi'), hf.kept j (Or.inl hj')] at heq
        exact h.inj i j hi' hj' heq
      · obtain ⟨a, ha, hptr⟩ := hlt i hi'
        rw [hptr, hf.pushed j (by omega) hj, Option.some.injEq] at heq
        omega
    · by_cases hj' : j < c.fillSize
      · obtain ⟨a, ha, hptr⟩ := hlt j hj'
        rw [hptr, hf.pushed i (by omega) hi, Option.some.injEq] at heq
        omega
      · rw [hf.pushed i (by omega) hi, hf.pushed j (by omega) hj, Option.some.injEq] at heq
        omega

theorem Fresh.push_room (h : Fresh epoch c) (hroom : c.fillSize < 512) :
    ∃ c', pushMsgCircBuf src c = some c' ∧ c'.fillSize = c.fillSize + 1 ∧ Fresh epoch c' := by
  have hlen := h.length
  have hmax := h.maxlen
  obtain ⟨c', hpush, hf⟩ := pushMsgCircBuf_filledTo src (c := c) (by omega) (by omega)
  exact ⟨c', hpush, hf.fillSize, h.filledTo src hf (by omega) (by omega)⟩

/-- An access to a buffer that is not empty. -/
theorem Fresh.get {N : ℕ} (hN : N < 512) (h : Fresh epoch c) (hfill : c.fillSize ≠ 0) :
    ∃ c', getNthCircBuf src 512 N c = some (ptrAt c'.buffer N, c') ∧
      c'.fillSize = max c.fillSize (N + 1) ∧ Fresh epoch c' := by
  have hle := h.le
  obtain ⟨c', hf, hget⟩ := getNthCircBuf_filledTo src hN h.length h.maxlen hfill hle
  exact ⟨c', hget 512 (by omega), hf.fillSize, h.filledTo src hf (by omega) (by omega)⟩

end Operations

section Histories
variable (src : MessageSource) {s : BufState} {op : BufOp}

theorem step_fresh (hop : op.Valid) (h : Fresh s.epoch s.cbuf) :
    ∃ s', bufStep src op s = some s' ∧ Fresh s'.epoch s'.cbuf ∧
      s'.cbuf.fillSize = fillStep s.cbuf.fillSize op := by
  cases op with
  | push =>
    by_cases hfull : s.cbuf.fillSize = 512
    · obtain ⟨c', hpush, hsize, hfresh⟩ := h.push_full src hfull
      refine ⟨_, by rw [bufStep, hpush]; rfl, ?_, ?_⟩
      · simpa [hsize] using hfresh
      · simp [fillStep, hfull, hsize]
    · have hle := h.le
      obtain ⟨c', hpush, hsize, hfresh⟩ := h.push_room src (by omega)
      refine ⟨_, by rw [bufStep, hpush]; rfl, ?_, ?_⟩
      · simpa [hsize] using hfresh
      · simp [fillStep, hfull, hsize]
  | get N =>
    by_cases hempty : s.cbuf.fillSize = 0
    · refine ⟨_, by rw [bufStep, getNthCircBuf_empty src 512 hop hempty]; rfl, h, ?_⟩
      simp [fillStep, hempty]
    · obtain ⟨c', hget, hsize, hfresh⟩ := h.get src hop hempty
      refine ⟨_, by rw [bufStep, hget]; rfl, hfresh, ?_⟩
      simp [fillStep, hempty, hsize]
  | reset =>
    exact ⟨_, rfl, fresh_empty (c := { s.cbuf with fillSize := 0 }) h.length h.maxlen rfl, rfl⟩

theorem created_fresh : Fresh created.epoch created.cbuf :=
  fresh_empty (c := createCircBuf) List.length_replicate rfl rfl

theorem history_fresh (ops : List BufOp) (hops : ∀ op ∈ ops, op.Valid) :
    ∃ s, history src ops = some s ∧ Fresh s.epoch s.cbuf ∧ s.cbuf.fillSize = fillAfter ops := by
  induction ops using List.reverseRecOn with
  | nil => exact ⟨created, rfl, created_fresh, rfl⟩
  | append_singleton ops op ih =>
    obtain ⟨s, hrun, hfresh, hfill⟩ := ih fun o ho => hops o (List.mem_append_left _ ho)
    obtain ⟨s', hstep, hfresh', hfill'⟩ := step_fresh src
      (hops op (List.mem_append_right _ (List.mem_singleton_self op))) hfresh
    refine ⟨s', ?_, hfresh', ?_⟩
    · rw [history_append, hrun, Option.bind_some, hstep]
    · rw [hfill', hfill, fillAfter_append]

/-- One access, in a state that a history leads to. -/
theorem current_iff {N : ℕ} (hN : N < 512) (h : Fresh s.epoch s.cbuf) :
    Current src N s ↔ s.cbuf.fillSize ≠ 0 := by
  constructor
  · rintro ⟨a, m, cbuf, hget, -, -, -, hlt, -⟩ hempty
    rw [getNthCircBuf_empty src 512 hN hempty, Option.some.injEq, Prod.mk.injEq] at hget
    rw [← hget.2, hempty] at hlt
    omega
  · intro hfill
    obtain ⟨c', hget, hsize, hfresh⟩ := h.get src hN hfill
    obtain ⟨a, m, hptr, ha, hread⟩ := hfresh.slots N (by omega)
    refine ⟨a, m, c', by rw [hget, hptr], hptr, ha, hread, by omega, ?_⟩
    rw [hfresh.maxlen]
    exact hfresh.le

end Histories

/-- Every history of valid operations goes through, with `fill_size` as the counter says, and
every access in it returns a current message exactly if no access finds the buffer
empty. -/
theorem history_current_iff (src : MessageSource) (ops : List BufOp)
    (hops : ∀ op ∈ ops, op.Valid) :
    (∃ s, history src ops = some s ∧ s.cbuf.fillSize = fillAfter ops) ∧
    ((∀ pre N, pre ++ [.get N] <+: ops → ∀ s, history src pre = some s → Current src N s) ↔
      ∀ pre N, pre ++ [.get N] <+: ops → fillAfter pre ≠ 0) := by
  have hprefix : ∀ pre N, pre ++ [.get N] <+: ops → N < 512 ∧ ∃ s, history src pre = some s ∧
      Fresh s.epoch s.cbuf ∧ s.cbuf.fillSize = fillAfter pre := by
    intro pre N hpre
    refine ⟨hops (.get N) (hpre.subset (by simp)), ?_⟩
    exact history_fresh src pre fun op hop => hops op (hpre.subset (List.mem_append_left _ hop))
  refine ⟨?_, ?_, ?_⟩
  · obtain ⟨s, hrun, -, hfill⟩ := history_fresh src ops hops
    exact ⟨s, hrun, hfill⟩
  · intro hall pre N hpre
    obtain ⟨hN, s, hrun, hfresh, hfill⟩ := hprefix pre N hpre
    rw [← hfill]
    exact (current_iff src hN hfresh).mp (hall pre N hpre s hrun)
  · intro hall pre N hpre s hs
    obtain ⟨hN, s', hrun, hfresh, hfill⟩ := hprefix pre N hpre
    obtain rfl : s' = s := Option.some.inj (hrun.symm.trans hs)
    apply (current_iff src hN hfresh).mpr
    rw [hfill]
    exact hall pre N hpre

section Demonstration

/-- Zeros for every key, text and signature. -/
def zeroSource : MessageSource :=
  ⟨fun _ => ⟨Vector.replicate 64 0, Vector.replicate 32 0⟩, fun _ => Vector.replicate 100 0,
    fun _ _ => Vector.replicate 64 0⟩

theorem history_current_after_push : ∃ s, history zeroSource [.push] = some s ∧
    Current zeroSource 3 s := by
  have hops : ∀ op ∈ [BufOp.push, .get 3], op.Valid := by simp [BufOp.Valid]
  have hall := (history_current_iff zeroSource [.push, .get 3] hops).2.mpr (by
    intro pre N hpre
    have hpre' : pre = [.push] := by
      rcases pre with _ | ⟨o, _ | ⟨o', pre⟩⟩
      · simp at hpre
      · simp at hpre
        simp [hpre.1]
      · simp [List.prefix_cons_iff] at hpre
    subst hpre'
    decide)
  obtain ⟨s, hrun, -, -⟩ := history_fresh zeroSource [.push] (by simp [BufOp.Valid])
  exact ⟨s, hrun, hall [.push] 3 (List.prefix_refl _) s hrun⟩

/-- One message, the reset of a finished transfer, and the first access of the next one: the
access returns the message from before the reset and leaves `fill_size` at 0. -/
theorem get_after_reset_stale : ∃ s, history zeroSource [.push, .reset] = some s ∧
    s.epoch = 1 ∧ (∃ cbuf, getNthCircBuf zeroSource 512 0 s.cbuf = some (some 0, cbuf) ∧
      cbuf.fillSize = 0) ∧ ¬ Current zeroSource 0 s := by
  obtain ⟨s, hrun, hfresh, hfill⟩ := history_fresh zeroSource [.push, .reset]
    (by simp [BufOp.Valid])
  have hempty : s.cbuf.fillSize = 0 := hfill
  have hlen : createCircBuf.buffer.length = 512 := List.length_replicate
  have hpush := pushMsgCircBuf_room zeroSource (c := createCircBuf) (by decide)
    (by rw [hlen]; decide)
  have hs : s.epoch = 1 ∧ ptrAt s.cbuf.buffer 0 = some 0 := by
    simp only [history, List.foldlM_cons, List.foldlM_nil, bufStep, created, hpush,
      Option.map_some, Option.bind_eq_bind, Option.bind_some, Option.pure_def,
      Option.some.injEq] at hrun
    rw [← hrun]
    exact ⟨rfl, (ptrAt_set (by rw [hlen]; decide)).trans (if_pos rfl)⟩
  refine ⟨s, hrun, hs.1, ⟨s.cbuf, ?_, hempty⟩, ?_⟩
  · rw [getNthCircBuf_empty zeroSource 512 (by norm_num) hempty, hs.2]
  · rw [current_iff zeroSource (by norm_num) hfresh]
    exact fun h => h hempty

end Demonstration
end CBlockchain.BufferHistory
