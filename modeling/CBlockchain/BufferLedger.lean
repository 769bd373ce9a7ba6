import CBlockchain.BufferHistory

/-! What becomes of the messages. A push onto a slot that still holds a message loses it, and
so does a push that only empties the full buffer. The ledger of a history says how many slots
hold a message and how many messages are lost; with it, whether the buffer can be cleaned. -/
namespace CBlockchain.BufferLedger
open BufferHistory DataHandlers Heap Layering

/-- `fill_size`, the slots from the front that hold a message, the messages no slot holds,
and whether the buffer has been emptied. -/
structure Ledger where
  fill : ℕ
  held : ℕ
  lost : ℕ
  wrapped : Bool
  deriving DecidableEq, Repr

namespace Ledger

/-- Slots are written up to `n`. -/
def fillTo (n : ℕ) (b : Ledger) : Ledger :=
  { b with fill := n, held := max b.held n, lost := b.lost + (min b.held n - b.fill) }

def step (b : Ledger) : BufOp → Ledger
  | .push => if b.fill = 512 then ⟨0, 0, b.lost + 1, true⟩ else b.fillTo (b.fill + 1)
  | .get N => if b.fill = 0 then b else b.fillTo (max b.fill (N + 1))
  | .reset => { b with fill := 0 }

def after (ops : List BufOp) : Ledger := ops.foldl step ⟨0, 0, 0, false⟩

theorem after_append (ops : List BufOp) (op : BufOp) :
    after (ops ++ [op]) = (after ops).step op := by
  simp [after]

end Ledger

/-- The slots that hold a message are the first ones, each with a message of its own; the
others are null, or after a wrap left pointing to destroyed messages. -/
structure Balanced (b : Ledger) (c : CircBuf) : Prop where
  length : c.buffer.length = 512
  maxlen : c.maxlen = 512
  fill : c.fillSize = b.fill
  fill_le : b.fill ≤ b.held
  held_le : b.held ≤ 512
  holds : ∀ i < b.held, ∃ m, slotMsg c i = some m
  inj : ∀ i j, i < b.held → j < b.held → ptrAt c.buffer i = ptrAt c.buffer j → i = j
  known : ∀ i a, ptrAt c.buffer i = some a → a < c.msgs.cells.length
  gone : ∀ i, b.held ≤ i → slotMsg c i = none
  null : ∀ i, b.held ≤ i → i < 512 → (ptrAt c.buffer i = none ↔ b.wrapped = false)
  live : c.msgs.live = b.held + b.lost

section Operations
variable (src : MessageSource) {b : Ledger} {c c' : CircBuf} {n : ℕ}

theorem created_balanced : Balanced ⟨0, 0, 0, false⟩ createCircBuf where
  length := List.length_replicate
  maxlen := rfl
  fill := rfl
  fill_le := le_rfl
  held_le := Nat.zero_le _
  holds := fun i hi => absurd hi (Nat.not_lt_zero i)
  inj := fun i _ hi => absurd hi (Nat.not_lt_zero i)
  known := fun i a ha => by simp [createCircBuf_holdsTo.null i (Nat.zero_le i)] at ha
  gone := fun i _ => by rw [slotMsg, createCircBuf_holdsTo.null i (Nat.zero_le i)]; rfl
  null := fun i _ _ => by simp [createCircBuf_holdsTo.null i (Nat.zero_le i)]
  live := rfl

theorem live_filledTo (h : FilledTo src n c c') :
    c'.msgs.live = c.msgs.live + (n - c.fillSize) := by
  rw [live, h.cells, List.countP_append, ← live, List.countP_eq_length.mpr]
  · rw [List.length_map, List.length_range]
  · intro x hx
    obtain ⟨j, -, rfl⟩ := List.mem_map.mp hx
    rfl

/-- What is written over is lost. -/
theorem Balanced.filledTo (h : Balanced b c) (hf : FilledTo src n c c') (hn : c.fillSize ≤ n)
    (hle : n ≤ 512) : Balanced (b.fillTo n) c' := by
  have hfill := h.fill
  have hheld := h.held_le
  have hfill_le := h.fill_le
  -- the slots that are not written hold what they held
  have hkept : ∀ i, i < c.fillSize ∨ n ≤ i → slotMsg c' i = slotMsg c i := by
    intro i hi
    rw [slotMsg, slotMsg, hf.kept i hi]
    cases hp : ptrAt c.buffer i with
    | none => rfl
    | some a => exact hf.read_old (h.known i a hp)
  have hptr : ∀ i < max b.held n, ptrAt c'.buffer i = ptrAt c.buffer i ∧
        (i < c.fillSize ∨ n ≤ i) ∧ i < b.held ∨
      (c.fillSize ≤ i ∧ i < n) ∧
        ptrAt c'.buffer i = some (c.msgs.cells.length + (i - c.fillSize)) := by
    intro i hi
    by_cases hnew : c.fillSize ≤ i ∧ i < n
    · exact .inr ⟨hnew, hf.pushed i hnew.1 hnew.2⟩
    · exact .inl ⟨hf.kept i (by omega), by omega, by omega⟩
  constructor
  case length => exact hf.length.trans h.length
  case maxlen => exact hf.maxlen.trans h.maxlen
  case fill => exact hf.fillSize
  case fill_le => exact le_max_right _ _
  case held_le => exact max_le hheld hle
  case holds =>
    intro i hi
    rcases hptr i hi with ⟨-, hout, hlt⟩ | ⟨hnew, -⟩
    · rw [hkept i hout]
      exact h.holds i hlt
    · exact ⟨_, hf.slotMsg_pushed hnew.1 hnew.2⟩
  case inj =>
    intro i j hi hj heq
    rcases hptr i hi with ⟨hi', -, hilt⟩ | ⟨hinew, hi'⟩
    · rcases hptr j hj with ⟨hj', -, hjlt⟩ | ⟨-, hj'⟩
      · exact h.inj i j hilt hjlt (by rw [← hi', ← hj', heq])
      · have hknown := h.known i _ (by rw [← hi', heq, hj'])
        omega
    · rcases hptr j hj with ⟨hj', -, hjlt⟩ | ⟨hjnew, hj'⟩
      · have hknown := h.known j _ (by rw [← hj', ← heq, hi'])
        omega
      · rw [hi', hj', Option.some.injEq] at heq
        omega
  case known =>
    intro i a ha
    rw [hf.length_cells]
    by_cases hnew : c.fillSize ≤ i ∧ i < n
    · rw [hf.pushed i hnew.1 hnew.2, Option.some.injEq] at ha
      omega
    · rw [hf.kept i (by omega)] at ha
      have hknown := h.known i a ha
      omega
  case gone =>
    intro i hi
    have hi' : b.held ≤ i ∧ n ≤ i := max_le_iff.mp hi
    rw [hkept i (.inr hi'.2)]
    exact h.gone i hi'.1
  case null =>
    intro i hi hlt
    have hi' : b.held ≤ i ∧ n ≤ i := max_le_iff.mp hi
    rw [hf.kept i (.inr hi'.2)]
    exact h.null i hi'.1 hlt
  case live =>
    rw [live_filledTo src hf, h.live, hfill]
    simp only [Ledger.fillTo]
    omega

/-- The pointers of the slots that hold a message. -/
theorem Balanced.filter_live (h : Balanced b c) :
    c.buffer.filter (fun p => (c.msgs.read p).isSome) = c.buffer.take b.held := by
  have hlen := h.length
  have hheld := h.held_le
  conv_lhs => rw [← List.take_append_drop b.held c.buffer]
  rw [List.filter_append, List.filter_eq_self.mpr, List.filter_eq_nil_iff.mpr, List.append_nil]
  · intro p hp
    obtain ⟨i, hi, rfl⟩ := List.mem_iff_getElem.mp hp
    rw [List.length_drop] at hi
    have hgone := h.gone (b.held + i) (by omega)
    rw [List.getElem_drop]
    rw [slotMsg, ptrAt_eq (List.getElem?_eq_getElem (by omega))] at hgone
    simp [hgone]
  · intro p hp
    obtain ⟨i, hi, rfl⟩ := List.mem_iff_getElem.mp hp
    rw [List.length_take] at hi
    obtain ⟨m, hm⟩ := h.holds i (by omega)
    rw [List.getElem_take]
    rw [slotMsg, ptrAt_eq (List.getElem?_eq_getElem (by omega))] at hm
    simp [hm]

theorem Balanced.nodup (h : Balanced b c) : (c.buffer.take b.held).Nodup := by
  have hlen := h.length
  have hheld := h.held_le
  rw [List.nodup_iff_getElem?_ne_getElem?]
  intro i j hij hj heq
  rw [List.length_take] at hj
  rw [List.getElem?_take_of_lt (by omega), List.getElem?_take_of_lt (by omega),
    getElem?_ptrAt (by omega), getElem?_ptrAt (by omega), Option.some.injEq] at heq
  have := h.inj i j (by omega) (by omega) heq
  omega

theorem Balanced.not_mem_none (h : Balanced b c) : none ∉ c.buffer.take b.held := by
  intro hmem
  rw [← h.filter_live] at hmem
  simp at hmem

/-- No slot points to a message that is gone. -/
def Ledger.Clean (b : Ledger) : Prop := b.wrapped = false ∨ b.held = 512

theorem Balanced.filter_ne_none (h : Balanced b c) (hclean : b.Clean) :
    c.buffer.filter (· ≠ none) = c.buffer.take b.held := by
  have hlen := h.length
  rw [← h.filter_live]
  refine List.filter_congr fun p hp => ?_
  obtain ⟨i, hi, rfl⟩ := List.mem_iff_getElem.mp hp
  have hptr := ptrAt_eq (List.getElem?_eq_getElem hi)
  by_cases hlt : i < b.held
  · obtain ⟨m, hm⟩ := h.holds i hlt
    rw [slotMsg, hptr] at hm
    rw [hm]
    cases hp' : c.buffer[i] with
    | none => simp [hp'] at hm
    | some a => rfl
  · have hfalse := hclean.resolve_right (by omega)
    have hnull := (h.null i (by omega) (by omega)).mpr hfalse
    rw [hptr] at hnull
    simp [hnull]

/-- Cleaning gives back what the slots hold, and nothing else. -/
theorem Balanced.clean_returns (h : Balanced b c) (hclean : b.Clean) :
    ∃ msgs, cleanCircBuf c = some { c with msgs := msgs } ∧ msgs.live = b.lost ∧
      msgs.cells.length = c.msgs.cells.length ∧
      ∀ p, msgs.read p = if p ∈ c.buffer.take b.held then none else c.msgs.read p := by
  obtain ⟨msgs, hrun, hread⟩ := releaseAll_spec (h := c.msgs) h.nodup fun p hp => by
    rw [← h.filter_live] at hp
    exact Option.isSome_iff_exists.mp (List.mem_filter.mp hp).2
  refine ⟨msgs, ?_, ?_, length_releaseAll hrun, hread⟩
  · rw [cleanCircBuf_eq, ← releaseAll_filter, h.filter_ne_none hclean, hrun]
    rfl
  · have hlive := live_releaseAll h.not_mem_none hrun
    have hlen := h.length
    have hheld := h.held_le
    have hsum := h.live
    rw [List.length_take] at hlive
    omega

theorem Balanced.clean_faults (h : Balanced b c) (hclean : ¬ b.Clean) : cleanCircBuf c = none := by
  have hlen := h.length
  have hheld := h.held_le
  have hlt : b.held < 512 := by
    by_contra hge
    exact hclean (.inr (by omega))
  have hne : ptrAt c.buffer b.held ≠ none := fun heq =>
    hclean (.inl ((h.null b.held le_rfl hlt).mp heq))
  have hmem : ptrAt c.buffer b.held ∈ c.buffer :=
    List.mem_of_getElem? (getElem?_ptrAt (by omega))
  rw [cleanCircBuf_eq, releaseAll_dangling hmem hne (h.gone b.held le_rfl), Option.map_none]

/-- One more message, which no slot holds. -/
theorem Balanced.alloc (h : Balanced b c) (m : SignedMessage) :
    Balanced { b with lost := b.lost + 1 } { c with msgs := (c.msgs.alloc m).2 } where
  length := h.length
  maxlen := h.maxlen
  fill := h.fill
  fill_le := h.fill_le
  held_le := h.held_le
  holds := fun i hi => by
    obtain ⟨m', hm'⟩ := h.holds i hi
    exact ⟨m', Heap.alloc_extends _ _ _ _ hm'⟩
  inj := h.inj
  known := fun i a ha => by
    have hlt := h.known i a ha
    simp only [Heap.alloc, List.length_append, List.length_singleton]
    omega
  gone := fun i hi => by
    have hgone := h.gone i hi
    unfold slotMsg at hgone ⊢
    cases hp : ptrAt c.buffer i with
    | none => rfl
    | some a =>
      rw [hp, read_some] at hgone
      rw [read_some, Heap.alloc, List.getElem?_append_left (h.known i a hp), hgone]
  null := h.null
  live := by
    rw [live_alloc, h.live]
    rfl

theorem Balanced.push_full (h : Balanced b c) (hfull : b.fill = 512) :
    ∃ c', pushMsgCircBuf src c = some c' ∧ Balanced ⟨0, 0, b.lost + 1, true⟩ c' := by
  have hlen := h.length
  have hmax := h.maxlen
  have hfill := h.fill
  have hheld := h.held_le
  have hfill_le := h.fill_le
  have hall : b.held = 512 := by omega
  set m := src.lsGetASignedMsg c.msgs.cells.length with hm
  obtain ⟨msgs, hclean, hlive, hcells, hread⟩ := (h.alloc m).clean_returns (.inr hall)
  have hptr : ∀ i < 512, ptrAt c.buffer i ∈ c.buffer.take b.held := by
    intro i hi
    refine List.mem_of_getElem? (i := i) ?_
    rw [List.getElem?_take_of_lt (by omega)]
    exact getElem?_ptrAt (by omega)
  refine ⟨⟨c.buffer, 0, c.maxlen, msgs⟩, ?_, ?_⟩
  · simp only [pushMsgCircBuf, ← hm]
    rw [if_pos (by omega), hclean]
    rfl
  · constructor
    case length => exact hlen
    case maxlen => exact hmax
    case fill => rfl
    case fill_le => exact le_rfl
    case held_le => exact Nat.zero_le _
    case holds => exact fun i hi => absurd hi (Nat.not_lt_zero i)
    case inj => exact fun i _ hi => absurd hi (Nat.not_lt_zero i)
    case known =>
      intro i a ha
      rw [hcells]
      exact (h.alloc m).known i a ha
    case gone =>
      intro i _
      rw [slotMsg]
      by_cases hi : i < 512
      · exact (hread _).trans (if_pos (hptr i hi))
      · rw [ptrAt, List.getElem?_eq_none (show c.buffer.length ≤ i by omega)]
        rfl
    case null =>
      intro i _ hi
      obtain ⟨m', hm'⟩ := h.holds i (by omega)
      have hne : ptrAt c.buffer i ≠ none := by
        intro heq
        rw [slotMsg, heq] at hm'
        cases hm'
      simp [hne]
    case live => rw [hlive, Nat.zero_add]

theorem Balanced.push (h : Balanced b c) :
    ∃ c', pushMsgCircBuf src c = some c' ∧ Balanced (b.step .push) c' := by
  have hlen := h.length
  have hmax := h.maxlen
  have hfill := h.fill
  have hheld := h.held_le
  have hfill_le := h.fill_le
  by_cases hfull : b.fill = 512
  · simp only [Ledger.step, if_pos hfull]
    exact h.push_full src hfull
  · simp only [Ledger.step, if_neg hfull]
    obtain ⟨c', hpush, hf⟩ := pushMsgCircBuf_filledTo src (c := c) (by omega) (by omega)
    refine ⟨c', hpush, ?_⟩
    rw [hfill] at hf
    exact h.filledTo src hf (by omega) (by omega)

theorem Balanced.get {N : ℕ} (hN : N < 512) (h : Balanced b c) :
    ∃ c', getNthCircBuf src 512 N c = some (ptrAt c'.buffer N, c') ∧
      Balanced (b.step (.get N)) c' := by
  have hfill := h.fill
  have hheld := h.held_le
  have hfill_le := h.fill_le
  by_cases hempty : b.fill = 0
  · simp only [Ledger.step, if_pos hempty]
    exact ⟨c, getNthCircBuf_empty src 512 hN (by omega), h⟩
  · simp only [Ledger.step, if_neg hempty]
    obtain ⟨c', hf, hget⟩ := getNthCircBuf_filledTo src hN h.length h.maxlen (by omega) (by omega)
    refine ⟨c', hget 512 (by omega), ?_⟩
    rw [hfill] at hf
    exact h.filledTo src hf (by omega) (by omega)

theorem Balanced.reset (h : Balanced b c) :
    Balanced (b.step .reset) { c with fillSize := 0 } where
  length := h.length
  maxlen := h.maxlen
  fill := rfl
  fill_le := Nat.zero_le _
  held_le := h.held_le
  holds := h.holds
  inj := h.inj
  known := h.known
  gone := h.gone
  null := h.null
  live := h.live

end Operations

section Histories
variable (src : MessageSource)

theorem step_balanced {b : Ledger} {s : BufState} {op : BufOp} (hop : op.Valid)
    (h : Balanced b s.cbuf) :
    ∃ s', bufStep src op s = some s' ∧ Balanced (b.step op) s'.cbuf := by
  cases op with
  | push =>
    obtain ⟨c', hpush, hbal⟩ := h.push src
    exact ⟨_, by rw [bufStep, hpush]; rfl, hbal⟩
  | get N =>
    obtain ⟨c', hget, hbal⟩ := h.get src hop
    exact ⟨_, by rw [bufStep, hget]; rfl, hbal⟩
  | reset => exact ⟨_, rfl, h.reset⟩

theorem history_balanced (ops : List BufOp) (hops : ∀ op ∈ ops, op.Valid) :
    ∃ s, history src ops = some s ∧ Balanced (.after ops) s.cbuf := by
  induction ops using List.reverseRecOn with
  | nil => exact ⟨created, rfl, created_balanced⟩
  | append_singleton ops op ih =>
    obtain ⟨s, hrun, hbal⟩ := ih fun o ho => hops o (List.mem_append_left _ ho)
    obtain ⟨s', hstep, hbal'⟩ := step_balanced src
      (hops op (List.mem_append_right _ (List.mem_singleton_self op))) hbal
    refine ⟨s', ?_, ?_⟩
    · rw [history_append, hrun, Option.bind_some, hstep]
    · rw [Ledger.after_append]
      exact hbal'

/-- The accesses and resets of the server after its one push. -/
theorem Ledger.after_accesses (ops : List BufOp) (hops : ∀ op ∈ ops, op ≠ .push) :
    (Ledger.after (.push :: ops)).lost = 0 ∧ (Ledger.after (.push :: ops)).wrapped = false ∧
      ((Ledger.after (.push :: ops)).fill = (Ledger.after (.push :: ops)).held ∨
        (Ledger.after (.push :: ops)).fill = 0) := by
  induction ops using List.reverseRecOn with
  | nil => decide
  | append_singleton ops op ih =>
    obtain ⟨hlost, hwrapped, hfill⟩ := ih fun o ho => hops o (List.mem_append_left _ ho)
    have hop := hops op (List.mem_append_right _ (List.mem_singleton_self op))
    rw [← List.cons_append, Ledger.after_append]
    generalize Ledger.after (.push :: ops) = b at hlost hwrapped hfill
    cases op with
    | push => exact absurd rfl hop
    | get N =>
      simp only [Ledger.step]
      split_ifs with hempty
      · exact ⟨hlost, hwrapped, hfill⟩
      · have hfull := hfill.resolve_right hempty
        refine ⟨?_, hwrapped, .inl ?_⟩
        · simp only [Ledger.fillTo]
          omega
        · simp only [Ledger.fillTo]
          omega
    | reset => exact ⟨hlost, hwrapped, .inr rfl⟩

/-- Every message that is there is held by one slot or lost, and the ledger tells how many
are. -/
theorem history_accounts (ops : List BufOp) (hops : ∀ op ∈ ops, op.Valid) :
    ∃ s, history src ops = some s ∧
      s.cbuf.msgs.live = (Ledger.after ops).held + (Ledger.after ops).lost ∧
      (s.cbuf.buffer.filter fun p => (s.cbuf.msgs.read p).isSome).Nodup ∧
      (s.cbuf.buffer.filter fun p => (s.cbuf.msgs.read p).isSome).length =
        (Ledger.after ops).held := by
  obtain ⟨s, hrun, hbal⟩ := history_balanced src ops hops
  have hlen := hbal.length
  have hheld := hbal.held_le
  refine ⟨s, hrun, hbal.live, ?_, ?_⟩
  · rw [hbal.filter_live]
    exact hbal.nodup
  · rw [hbal.filter_live, List.length_take]
    omega

/-- A message written over before the next one is lost. -/
theorem history_accounts_overwritten : ∃ s,
    history zeroSource [.push, .reset, .push] = some s ∧ s.cbuf.msgs.live = 1 + 1 ∧
    (s.cbuf.buffer.filter fun p => (s.cbuf.msgs.read p).isSome).length = 1 := by
  obtain ⟨s, hrun, hlive, -, hheld⟩ := history_accounts zeroSource [.push, .reset, .push]
    (by simp [BufOp.Valid])
  exact ⟨s, hrun, hlive, hheld⟩

/-- After any history, `clean_circ_buf` goes through exactly if the buffer has never been
emptied by a push or has been filled again since; otherwise it destroys a message twice.
What is left when it goes through are the lost messages. -/
theorem history_clean_iff (ops : List BufOp) (hops : ∀ op ∈ ops, op.Valid) :
    ∃ s, history src ops = some s ∧
      ((∃ c', cleanCircBuf s.cbuf = some c') ↔ (Ledger.after ops).Clean) ∧
      ∀ c', cleanCircBuf s.cbuf = some c' → c'.msgs.live = (Ledger.after ops).lost := by
  obtain ⟨s, hrun, hbal⟩ := history_balanced src ops hops
  refine ⟨s, hrun, ?_⟩
  by_cases hclean : (Ledger.after ops).Clean
  · obtain ⟨msgs, hc, hlive, -, -⟩ := hbal.clean_returns hclean
    refine ⟨⟨fun _ => hclean, fun _ => ⟨_, hc⟩⟩, fun c' hc' => ?_⟩
    rw [hc, Option.some.injEq] at hc'
    rw [← hc', hlive]
  · have hfault := hbal.clean_faults hclean
    exact ⟨⟨fun ⟨c', hc'⟩ => by simp [hfault] at hc', fun h => absurd h hclean⟩,
      fun c' hc' => by simp [hfault] at hc'⟩

/-- The push that empties the full buffer leaves its slots pointing to destroyed messages. -/
theorem history_clean_faults : ∃ s,
    history zeroSource [.push, .get 511, .push] = some s ∧ cleanCircBuf s.cbuf = none := by
  obtain ⟨s, hrun, hiff, -⟩ := history_clean_iff zeroSource [.push, .get 511, .push]
    (by simp [BufOp.Valid])
  refine ⟨s, hrun, ?_⟩
  cases hc : cleanCircBuf s.cbuf with
  | none => rfl
  | some c' =>
    exact absurd (hiff.mp ⟨c', hc⟩) (by unfold Ledger.Clean; decide)

/-- In the server, which pushes once and then only accesses and resets, no message is lost:
cleaning the buffer gives back every message that was made. -/
theorem server_history_restored (ops : List BufOp) (hops : ∀ op ∈ ops, op.Valid ∧ op ≠ .push) :
    ∃ s c', history src (.push :: ops) = some s ∧ cleanCircBuf s.cbuf = some c' ∧
      c'.msgs.live = 0 := by
  obtain ⟨hlost, hwrapped, -⟩ := Ledger.after_accesses ops fun op hop => (hops op hop).2
  obtain ⟨s, hrun, hbal⟩ := history_balanced src (.push :: ops) (by
    intro op hop
    rcases List.mem_cons.mp hop with rfl | hop
    · exact trivial
    · exact (hops op hop).1)
  obtain ⟨msgs, hclean, hlive, -, -⟩ := hbal.clean_returns (.inl hwrapped)
  exact ⟨s, _, hrun, hclean, hlive.trans hlost⟩

theorem server_history_restored_twice : ∃ s c',
    history zeroSource [.push, .get 511, .reset, .get 3] = some s ∧
    cleanCircBuf s.cbuf = some c' ∧ c'.msgs.live = 0 :=
  server_history_restored zeroSource [.get 511, .reset, .get 3] (by simp [BufOp.Valid])

end Histories
end CBlockchain.BufferLedger
