import CBlockchain.ClientLoop
import CBlockchain.Traced

/-! The completion queue of the client's ring, counted. Every turn marks two completions
seen, that of its receive and one more behind the switch; how many requests it submits
depends on the status. The mark behind the switch is meant for the answer, and two branches
send none. Over answered frames the loop with its completions is the loop on its frames. -/
namespace CBlockchain.RingAccounting
open ClientLoop ReceiveLoop Serdes

/-- `io_uring_submit` of one request, and `io_uring_cqe_seen`. -/
inductive RingEvent where
  | submit
  | seen
  deriving DecidableEq

/-- At every point of a run, no more completions have been marked seen than requests have
been submitted. -/
def SeenCovered (es : List RingEvent) : Prop :=
  ∀ pre, pre <+: es → pre.count .seen ≤ pre.count .submit

/-- The same with `n` requests outstanding at the start, event by event. -/
def Covered : ℕ → List RingEvent → Prop
  | _, [] => True
  | n, .submit :: es => Covered (n + 1) es
  | n, .seen :: es => 0 < n ∧ Covered (n - 1) es

theorem covered_iff (es : List RingEvent) (n : ℕ) :
    Covered n es ↔ ∀ pre, pre <+: es → pre.count .seen ≤ n + pre.count .submit := by
  induction es generalizing n with
  | nil => simp [Covered]
  | cons e es ih =>
    cases e with
    | submit =>
      rw [Covered, ih]
      constructor
      · intro h pre hpre
        rcases List.prefix_cons_iff.mp hpre with rfl | ⟨rest, rfl, hrest⟩
        · simp
        · have hcount := h rest hrest
          simp
          omega
      · intro h rest hrest
        have hcount := h (.submit :: rest) (List.cons_prefix_cons.mpr ⟨rfl, hrest⟩)
        simp at hcount
        omega
    | seen =>
      rw [Covered, ih]
      constructor
      · rintro ⟨hn, h⟩ pre hpre
        rcases List.prefix_cons_iff.mp hpre with rfl | ⟨rest, rfl, hrest⟩
        · simp
        · have hcount := h rest hrest
          simp
          omega
      · intro h
        have hfirst := h [.seen] (List.cons_prefix_cons.mpr ⟨rfl, List.nil_prefix⟩)
        simp at hfirst
        refine ⟨hfirst, ?_⟩
        intro rest hrest
        have hcount := h (.seen :: rest) (List.cons_prefix_cons.mpr ⟨rfl, hrest⟩)
        simp at hcount
        omega

theorem seenCovered_iff (es : List RingEvent) : SeenCovered es ↔ Covered 0 es := by
  rw [covered_iff, SeenCovered]
  simp only [zero_add]

section Code
variable (pf : ClientPlatform)

/-- What the switch sends on the frame of a turn. -/
def answersOf (t : Turn) (st : ClientState) : Option (List (Target × List UInt8)) := do
  let status ← readOnlyStatusResponse pf.codec t.2
  let (_, sent) ← handleFlag pf.codec t.1.stamp t.2.length t.2 (receive t.2 st.loop) status
  some sent

/-- One turn of the loop: a receive and its completion, a request for every answer of the
switch, and the mark behind it. With `flag_block_filled` set the loop only waits. -/
def ringTurn (t : Turn) (st : ClientState) : Traced RingEvent ClientState :=
  if st.loop.phase = .filled then pure st
  else do
    let sent ← Traced.emit .submit (.emit .seen (.lift (answersOf pf t st)))
    let _ ← (⟨List.replicate sent.length .submit, some ()⟩ : Traced RingEvent Unit)
    let st ← .lift (frameTurn pf t st)
    .emit .seen (pure st)

def ringTurns : List Turn → ClientState → Traced RingEvent ClientState
  | [], st => pure st
  | t :: ts, st => do
    let st ← ringTurn pf t st
    ringTurns ts st

/-- Connecting, and the turns. -/
def ringRun (ts : List Turn) : Traced RingEvent ClientState :=
  .emit .submit (.emit .seen (ringTurns pf ts connected))

end Code

section Switch
variable {codec : Codec} {stamp : Stamp} {res : ℤ} {data : List UInt8} {cl cl' : Client}
  {status : Status} {sent : List (Target × List UInt8)}

theorem handleFlag_unanswered (hs : ¬ Answered status) :
    handleFlag codec stamp res data cl status = some (cl, []) := by
  cases status with
  | askNeedMsg => exact absurd trivial hs
  | ok => exact absurd trivial hs
  | messageSended => exact absurd trivial hs
  | allBlockMsgSended => exact absurd trivial hs
  | _ => rfl

/-- Every way through an answered branch submits one send. -/
theorem handleFlag_answered (hs : Answered status)
    (h : handleFlag codec stamp res data cl status = some (cl', sent)) : sent.length = 1 := by
  cases status with
  | messageSended =>
    simp only [handleFlag] at h
    split_ifs at h
    · simp only [Option.bind_eq_bind, Option.bind_eq_some_iff, Option.some.injEq,
        sendStatusInPlace, sendStatus, Prod.mk.injEq] at h
      obtain ⟨c, -, -, rfl⟩ := h
      rfl
    · simp only [Option.bind_eq_bind, Option.bind_eq_some_iff, Option.some.injEq, sendStatus,
        Prod.mk.injEq] at h
      obtain ⟨c, -, -, rfl⟩ := h
      rfl
    · simp only [Option.some.injEq, sendStatus, Prod.mk.injEq] at h
      rw [← h.2]
      rfl
  | askNeedMsg | ok | allBlockMsgSended =>
    simp only [handleFlag, Option.some.injEq, sendStatus, sendStatusInPlace, Prod.mk.injEq] at h
    rw [← h.2]
    rfl
  | _ => exact absurd hs (by simp [Answered])

end Switch

section Turns
variable {pf : ClientPlatform} {t : Turn} {st st' : ClientState}

/-- What a turn can do to the ring. -/
inductive RingTurn (pf : ClientPlatform) (t : Turn) (st : ClientState) :
    Traced RingEvent ClientState → Prop
  | waits (phase : st.loop.phase = .filled) : RingTurn pf t st ⟨[], some st⟩
  | stops (phase : st.loop.phase ≠ .filled) (turn : frameTurn pf t st = none)
      (read : ∀ status, readOnlyStatusResponse pf.codec t.2 = some status → Answered status)
      (es : List RingEvent) (hes : es = [.submit, .seen] ∨ es = [.submit, .seen, .submit]) :
      RingTurn pf t st ⟨es, none⟩
  | answers {st' : ClientState} (status : Status) (phase : st.loop.phase ≠ .filled)
      (read : readOnlyStatusResponse pf.codec t.2 = some status) (answered : Answered status)
      (turn : frameTurn pf t st = some st') :
      RingTurn pf t st ⟨[.submit, .seen, .submit, .seen], some st'⟩
  | silent {st' : ClientState} (status : Status) (phase : st.loop.phase ≠ .filled)
      (read : readOnlyStatusResponse pf.codec t.2 = some status) (answered : ¬ Answered status)
      (turn : frameTurn pf t st = some st') :
      RingTurn pf t st ⟨[.submit, .seen, .seen], some st'⟩

theorem ringTurn_cases (hphase : st.loop.phase ≠ .assembling) :
    RingTurn pf t st (ringTurn pf t st) := by
  by_cases hfilled : st.loop.phase = .filled
  · rw [ringTurn, if_pos hfilled]
    exact .waits hfilled
  rw [ringTurn, if_neg hfilled]
  cases hread : readOnlyStatusResponse pf.codec t.2 with
  | none =>
    have hturn : frameTurn pf t st = none := by
      rw [frameTurn, if_neg hfilled, hread]
      rfl
    have hsent : answersOf pf t st = none := by
      rw [answersOf, hread]
      rfl
    rw [hsent]
    refine .stops hfilled hturn ?_ _ (Or.inl rfl)
    intro status hs
    rw [hread] at hs
    cases hs
  | some status =>
    have honly : ∀ s, readOnlyStatusResponse pf.codec t.2 = some s → s = status := by
      intro s hs
      rw [hread] at hs
      exact (Option.some.inj hs).symm
    by_cases hans : Answered status
    · cases hflag : handleFlag pf.codec t.1.stamp t.2.length t.2 (receive t.2 st.loop) status with
      | none =>
        have hturn : frameTurn pf t st = none := by
          rw [frameTurn, if_neg hfilled, hread]
          simp [hflag]
        have hsent : answersOf pf t st = none := by
          rw [answersOf, hread]
          simp [hflag]
        rw [hsent]
        exact .stops hfilled hturn (fun s hs => honly s hs ▸ hans) _ (Or.inl rfl)
      | some p =>
        obtain ⟨cl, sent⟩ := p
        have hsent : answersOf pf t st = some sent := by
          rw [answersOf, hread]
          simp [hflag]
        rw [hsent]
        simp only [Traced.lift_some, Traced.emit_mk, Traced.bind_mk_some,
          handleFlag_answered hans hflag]
        cases hturn : frameTurn pf t st with
        | none => exact .stops hfilled hturn (fun s hs => honly s hs ▸ hans) _ (Or.inr rfl)
        | some st' => exact .answers status hfilled hread hans hturn
    · have hflag : handleFlag pf.codec t.1.stamp t.2.length t.2 (receive t.2 st.loop) status =
          some (receive t.2 st.loop, []) := handleFlag_unanswered hans
      have hsent : answersOf pf t st = some [] := by
        rw [answersOf, hread]
        simp [hflag]
      have hturn : frameTurn pf t st = some ⟨receive t.2 st.loop, st.shared⟩ := by
        rw [frameTurn, if_neg hfilled, hread]
        simp [hflag, show (receive t.2 st.loop).phase ≠ .assembling from hphase]
      rw [hsent, hturn]
      exact .silent status hfilled hread hans hturn

theorem ringTurn_result (hphase : st.loop.phase ≠ .assembling) :
    (ringTurn pf t st).result = frameTurn pf t st := by
  have h : RingTurn pf t st (ringTurn pf t st) := ringTurn_cases hphase
  generalize ringTurn pf t st = r at h ⊢
  cases h with
  | waits phase => exact (frameTurn_filled phase t).symm
  | stops phase turn => exact turn.symm
  | answers status phase read answered turn => exact turn.symm
  | silent status phase read answered turn => exact turn.symm

theorem phase_of_turn (hphase : st.loop.phase ≠ .assembling)
    (h : frameTurn pf t st = some st') : st'.loop.phase ≠ .assembling := by
  cases frameTurn_done h with
  | waits => exact hphase
  | handled status phase read hd phase' => exact phase'
  | finished status cl block phase read hd phase' done =>
    rw [(assembleBlock_spec done).1]
    decide

end Turns

section Runs
variable {pf : ClientPlatform} {t : Turn} {ts : List Turn} {st : ClientState}

/-- The turns from a state on. -/
def turnsFrom (pf : ClientPlatform) (ts : List Turn) (st : ClientState) : Option ClientState :=
  ts.foldlM (fun st t => frameTurn pf t st) st

/-- Every frame handled before the block is filled has a status that is answered. -/
def AllAnswered (pf : ClientPlatform) (ts : List Turn) (st : ClientState) : Prop :=
  ∀ pre t, pre ++ [t] <+: ts → ∀ st', turnsFrom pf pre st = some st' →
    st'.loop.phase ≠ .filled → ∀ status, readOnlyStatusResponse pf.codec t.2 = some status →
      Answered status

theorem allAnswered_cons : AllAnswered pf (t :: ts) st ↔
    (st.loop.phase ≠ .filled → ∀ status, readOnlyStatusResponse pf.codec t.2 = some status →
      Answered status) ∧ ∀ st', frameTurn pf t st = some st' → AllAnswered pf ts st' := by
  constructor
  · intro h
    refine ⟨?_, ?_⟩
    · exact h [] t (List.cons_prefix_cons.mpr ⟨rfl, List.nil_prefix⟩) st rfl
    · intro st' ht pre t' hpre st'' hrun
      refine h (t :: pre) t' (List.cons_prefix_cons.mpr ⟨rfl, hpre⟩) st'' ?_
      simp only [turnsFrom, List.foldlM_cons, ht, Option.bind_eq_bind, Option.bind_some]
      exact hrun
  · rintro ⟨hhead, htail⟩ pre t' hpre st'' hrun
    cases pre with
    | nil =>
      obtain ⟨rfl, -⟩ := List.cons_prefix_cons.mp hpre
      obtain rfl : st = st'' := Option.some.inj hrun
      exact hhead
    | cons t₀ pre =>
      obtain ⟨rfl, hrest⟩ := List.cons_prefix_cons.mp hpre
      simp only [turnsFrom, List.foldlM_cons, Option.bind_eq_bind, Option.bind_eq_some_iff] at hrun
      obtain ⟨st', ht, hrun⟩ := hrun
      exact htail st' ht pre t' hrest st'' hrun

/-- From a point with nothing outstanding, the marks stay covered exactly if every handled
frame is answered. -/
theorem ringTurns_covered (ts : List Turn) (hphase : st.loop.phase ≠ .assembling) :
    Covered 0 (ringTurns pf ts st).trace ↔ AllAnswered pf ts st := by
  induction ts generalizing st with
  | nil =>
    refine iff_of_true trivial ?_
    intro pre t hpre
    simp at hpre
  | cons t ts ih =>
    rw [allAnswered_cons, ringTurns]
    have h : RingTurn pf t st (ringTurn pf t st) := ringTurn_cases hphase
    generalize ringTurn pf t st = r at h ⊢
    cases h with
    | waits phase =>
      rw [Traced.bind_mk_some, List.nil_append, ih hphase, frameTurn_filled phase]
      constructor
      · intro hall
        refine ⟨fun hne => absurd phase hne, ?_⟩
        intro st' hst'
        rw [← Option.some.inj hst']
        exact hall
      · rintro ⟨-, htail⟩
        exact htail st rfl
    | stops phase turn read es hes =>
      refine iff_of_true ?_ ⟨fun _ => read, ?_⟩
      · rcases hes with rfl | rfl <;> simp [Covered]
      · intro st' hst'
        rw [turn] at hst'
        cases hst'
    | answers status phase read answered turn =>
      rw [Traced.bind_mk_some]
      simp only [List.cons_append, List.nil_append, Covered, Nat.lt_add_one, true_and,
        Nat.add_sub_cancel, ih (phase_of_turn hphase turn), turn, read, Option.some.injEq,
        forall_eq']
      exact (and_iff_right fun _ => answered).symm
    | silent status phase read answered turn =>
      rw [Traced.bind_mk_some]
      simp only [List.cons_append, List.nil_append, Covered, Nat.lt_add_one, true_and,
        Nat.add_sub_cancel, lt_irrefl, false_and, false_iff]
      rintro ⟨hhead, -⟩
      exact answered (hhead phase status read)

theorem ringTurns_result (ts : List Turn) (hphase : st.loop.phase ≠ .assembling) :
    (ringTurns pf ts st).result = turnsFrom pf ts st := by
  induction ts generalizing st with
  | nil => rfl
  | cons t ts ih =>
    rw [ringTurns, Traced.result_bind, ringTurn_result hphase, turnsFrom, List.foldlM_cons]
    cases hturn : frameTurn pf t st with
    | none => rfl
    | some st' => exact ih (phase_of_turn hphase hturn)

theorem connected_phase : connected.loop.phase ≠ .assembling := by decide

/-- The counted run is the run of the receive loop. -/
theorem ringRun_result (pf : ClientPlatform) (ts : List Turn) :
    (ringRun pf ts).result = runTurns pf ts :=
  ringTurns_result ts connected_phase

end Runs

section Completions
variable (pf : ClientPlatform)

/-- A turn by the completions: the kernel completes the receive with the frame, and the loop
acts on the first completion that it has not marked seen. Without one it waits for ever. -/
def completionTurn (t : Turn) (st : ClientState) : Option ClientState :=
  if st.loop.phase = .filled then some st
  else do
    let (cl, _) ← clientTurn pf.codec t.1.stamp (receive t.2 st.loop)
    if cl.phase = .assembling then do
      let cl ← assembleBlock pf.H t.1.machine t.1.fuel cl
      let block ← cl.block
      some ⟨cl, publishBlock pf block st.shared⟩
    else some ⟨cl, st.shared⟩

def completionRun (ts : List Turn) : Option ClientState :=
  ts.foldlM (fun st t => completionTurn pf t st) connected

/-- The client with `n` completions marked seen. -/
def atSeen (n : ℕ) (cl : Client) : Client := { cl with seen := n }

/-- The same state with every completion marked seen. -/
def caughtUp (st : ClientState) : ClientState :=
  { st with loop := atSeen st.loop.posted.length st.loop }

variable {pf} {codec : Codec} {stamp : Stamp} {res : ℤ} {data : List UInt8} {cl cl' : Client}
  {status : Status} {sent : List (Target × List UInt8)} {t : Turn} {ts : List Turn}
  {st : ClientState}

@[simp] theorem atSeen_phase (n : ℕ) (cl : Client) : (atSeen n cl).phase = cl.phase := rfl

@[simp] theorem atSeen_block (n : ℕ) (cl : Client) : (atSeen n cl).block = cl.block := rfl

theorem endTurn_atSeen (n : ℕ) (cl : Client) :
    endTurn (atSeen n cl) = atSeen (if cl.phase = .assembling then n else n + 1) cl := by
  by_cases h : cl.phase = .assembling
  · rw [if_pos h]
    exact endTurn_assembling h
  · rw [if_neg h]
    exact endTurn_of_ne h

theorem store_atSeen (n : ℕ) (cl : Client) :
    store codec data (atSeen n cl) = (store codec data cl).map (atSeen n) := by
  simp only [store, Option.bind_eq_bind, Option.map_bind, Function.comp_def, Option.map_some]
  rfl

/-- The switch does not look at the count of completions seen. -/
theorem handleFlag_atSeen (n : ℕ) (cl : Client) (status : Status) :
    handleFlag codec stamp res data (atSeen n cl) status =
      (handleFlag codec stamp res data cl status).map fun p => (atSeen n p.1, p.2) := by
  cases status with
  | messageSended =>
    simp only [handleFlag, store_atSeen]
    have hcount : (atSeen n cl).count = cl.count := rfl
    rw [hcount]
    split_ifs
    · cases store codec data cl <;> rfl
    · cases store codec data cl <;> rfl
    · rfl
  | _ => rfl

/-- An answer adds the completion of its send. -/
theorem handleFlag_posted (hs : Answered status)
    (h : handleFlag codec stamp res data cl status = some (cl', sent)) :
    cl'.posted.length = cl.posted.length + 1 := by
  have hstore : ∀ {c : Client}, store codec data cl = some c → c.posted = cl.posted := by
    intro c hc
    simp only [store, Option.bind_eq_bind, Option.bind_eq_some_iff, Option.some.injEq] at hc
    obtain ⟨slot, -, slot', -, rfl⟩ := hc
    rfl
  cases status with
  | messageSended =>
    simp only [handleFlag] at h
    split_ifs at h
    · simp only [Option.bind_eq_bind, Option.bind_eq_some_iff, Option.some.injEq,
        sendStatusInPlace, sendStatus, Prod.mk.injEq] at h
      obtain ⟨c, hc, rfl, -⟩ := h
      simp [hstore hc]
    · simp only [Option.bind_eq_bind, Option.bind_eq_some_iff, Option.some.injEq, sendStatus,
        Prod.mk.injEq] at h
      obtain ⟨c, hc, rfl, -⟩ := h
      simp [hstore hc]
    · simp only [Option.some.injEq, sendStatus, Prod.mk.injEq] at h
      rw [← h.1]
      simp
  | askNeedMsg | ok | allBlockMsgSended =>
    simp only [handleFlag, Option.some.injEq, sendStatus, sendStatusInPlace, Prod.mk.injEq] at h
    rw [← h.1]
    simp
  | _ => exact absurd hs (by simp [Answered])

/-- The assembly looks at the messages only, and marks one more completion. -/
theorem assembleBlock_atSeen (H : GenericHash) (m : BlockProcess.Machine) (fuel n : ℕ)
    (cl : Client) : assembleBlock H m fuel (atSeen n cl) =
      (assembleBlock H m fuel cl).map (atSeen (n + 1)) := by
  simp only [assembleBlock, Option.bind_eq_bind, Option.map_bind, Function.comp_def,
    Option.map_some]
  rfl

theorem assembleBlock_posted {H : GenericHash} {m : BlockProcess.Machine} {fuel : ℕ}
    (h : assembleBlock H m fuel cl = some cl') : cl'.posted = cl.posted := by
  simp only [assembleBlock, Option.bind_eq_bind, Option.bind_eq_some_iff, Option.some.injEq] at h
  obtain ⟨_, -, _, -, _, -, rfl⟩ := h
  rfl

/-- With all completions seen before it, a turn by the completions is a turn on its own frame,
and an answered frame leaves all of them seen again. -/
theorem completionTurn_caughtUp (hphase : st.loop.phase ≠ .assembling) (hfit : t.2.length ≤ 4096)
    (hans : st.loop.phase ≠ .filled → ∀ status, readOnlyStatusResponse pf.codec t.2 = some status →
      Answered status) :
    completionTurn pf t (caughtUp st) = (frameTurn pf t st).map caughtUp := by
  by_cases hfilled : st.loop.phase = .filled
  · rw [frameTurn_filled hfilled, completionTurn]
    exact if_pos hfilled
  have hwait : Waiting (caughtUp st).loop := by
    refine ⟨?_, rfl⟩
    cases hp : st.loop.phase with
    | receiving => exact hp
    | assembling => exact absurd hp hphase
    | filled => exact absurd hp hfilled
  have hunread := hwait.receive hfit
  rw [completionTurn, if_neg (show (caughtUp st).loop.phase ≠ .filled from hfilled), frameTurn,
    if_neg hfilled]
  cases hread : readOnlyStatusResponse pf.codec t.2 with
  | none => simp [clientTurn, hunread.next, hunread.bytes, hread]
  | some status =>
    have hstart : { receive t.2 (caughtUp st).loop with
        seen := (receive t.2 (caughtUp st).loop).seen + 1 } =
        atSeen (st.loop.posted.length + 1) (receive t.2 st.loop) := rfl
    rw [clientTurn_unread hunread t.1.stamp hread, hstart, handleFlag_atSeen]
    cases hflag : handleFlag pf.codec t.1.stamp t.2.length t.2 (receive t.2 st.loop) status with
    | none => simp [hflag]
    | some p =>
      obtain ⟨cl, sent⟩ := p
      have hposted : cl.posted.length = st.loop.posted.length + 1 + 1 := by
        rw [handleFlag_posted (hans hfilled status hread) hflag]
        simp [receive]
      by_cases hlast : cl.phase = .assembling
      · simp only [Option.map_some, Option.bind_eq_bind, Option.bind_some, hflag, endTurn_atSeen,
          atSeen_phase, hlast, if_true, assembleBlock_atSeen, ← hposted]
        cases hdone : assembleBlock pf.H t.1.machine t.1.fuel cl with
        | none => rfl
        | some cl' =>
          rw [← assembleBlock_posted hdone]
          cases hblock : cl'.block with
          | none => simp [hblock]
          | some block => simp [hblock, caughtUp]
      · simp only [Option.map_some, Option.bind_eq_bind, Option.bind_some, hflag, endTurn_atSeen,
          atSeen_phase, hlast, if_false, ← hposted]
        rfl

theorem runTurns_phase (h : runTurns pf ts = some st) : st.loop.phase ≠ .assembling := by
  apply runTurns_invariant _ _ h
  · exact connected_phase
  · intro ts t st st' _ hphase ht
    exact phase_of_turn hphase ht

/-- Over answered frames the loop with its completions goes through the same states. -/
theorem completionRun_eq (hans : AnswersAll pf ts) (hfit : ∀ t ∈ ts, t.2.length ≤ 4096) :
    completionRun pf ts = (runTurns pf ts).map caughtUp := by
  induction ts using List.reverseRecOn with
  | nil => rfl
  | append_singleton ts t ih =>
    have hbefore : AnswersAll pf ts := fun pre u hpre => hans pre u (hpre.trans (ts.prefix_append _))
    have hrun := ih hbefore fun u hu => hfit u (List.mem_append_left _ hu)
    rw [completionRun, List.foldlM_append, ← completionRun, hrun, runTurns_append]
    cases hst : runTurns pf ts with
    | none => rfl
    | some st =>
      have hturn := completionTurn_caughtUp (runTurns_phase hst) (hfit t (by simp))
        (hans ts t (List.prefix_refl _) st hst)
      simp [hturn]

end Completions

/-- Whatever frames the server sends: no more completions are marked seen than requests were
submitted, at any point of the run, exactly if every frame handled before the block is
filled has a status that the switch answers. -/
theorem ringRun_seenCovered_iff (pf : ClientPlatform) (ts : List Turn) :
    SeenCovered (ringRun pf ts).trace ↔
      ∀ pre t, pre ++ [t] <+: ts → ∀ st, runTurns pf pre = some st → st.loop.phase ≠ .filled →
        ∀ status, readOnlyStatusResponse pf.codec t.2 = some status → Answered status := by
  rw [seenCovered_iff]
  change 0 < 1 ∧ Covered 0 (ringTurns pf ts connected).trace ↔ AllAnswered pf ts connected
  rw [ringTurns_covered ts connected_phase, and_iff_right zero_lt_one]

section Demonstration

theorem ringRun_covered_of_ask :
    SeenCovered (ringRun wirePlatform [statusTurn .askNeedMsg]).trace := by
  apply (ringRun_seenCovered_iff wirePlatform [statusTurn .askNeedMsg]).mpr
  intro pre t hpre st _ _ status hread
  have hmem := hpre.subset (List.mem_append_right pre (List.mem_singleton_self t))
  rw [List.mem_singleton.mp hmem, statusTurn_read (by intro n; simp)] at hread
  rw [← Option.some.inj hread]
  trivial

/-- One frame with the status `FINISH`: two requests have been submitted, the connect and the
receive, and three completions marked seen. -/
theorem finish_marks_too_many :
    (ringRun wirePlatform [statusTurn .finish]).trace =
      [.submit, .seen, .submit, .seen, .seen] ∧
    ¬ SeenCovered (ringRun wirePlatform [statusTurn .finish]).trace := by
  have hread : readOnlyStatusResponse wirePlatform.codec (statusTurn .finish).2 = some .finish :=
    statusTurn_read (by intro n; simp)
  have htrace : (ringRun wirePlatform [statusTurn .finish]).trace =
      [.submit, .seen, .submit, .seen, .seen] := by
    have h : RingTurn wirePlatform (statusTurn .finish) connected
        (ringTurn wirePlatform (statusTurn .finish) connected) := ringTurn_cases connected_phase
    simp only [ringRun, ringTurns, Traced.emit]
    generalize ringTurn wirePlatform (statusTurn .finish) connected = r at h ⊢
    cases h with
    | waits phase => exact absurd phase (by decide)
    | stops phase turn read es hes => exact absurd (read _ hread) (by simp [Answered])
    | answers status phase read answered turn =>
      rw [hread] at read
      rw [← Option.some.inj read] at answered
      exact absurd answered (by simp [Answered])
    | silent status phase read answered turn => rfl
  refine ⟨htrace, ?_⟩
  intro hcovered
  rw [htrace] at hcovered
  exact absurd (hcovered _ (List.prefix_refl _)) (by decide)

end Demonstration
end CBlockchain.RingAccounting
