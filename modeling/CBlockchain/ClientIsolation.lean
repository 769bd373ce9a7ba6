import CBlockchain.MessageService

/-! What one client sees of the server. The cursor of a client moves with its own requests
only, and the messages do not depend on who asks first, so nothing that is submitted for
a client tells it what the other clients have done. Only the total at the end depends on
them, since it needs all messages to exist. -/
namespace CBlockchain.ClientIsolation
open ConnectionHandlers EventLoop Automaton MessageService RequestData Serdes

/-- The socket number an event is about. -/
def client : Event → Option Fd
  | .connected fd | .sent fd | .wants fd | .agrees fd | .done fd | .closing fd
  | .garbled fd => some fd
  | .silent => none

section View
variable (fd : Fd)

def mine (codec : Codec) (i : Completion) : Bool := client (eventOf codec i.cqe) = some fd

/-- What is submitted or printed for the client on `fd`; accepts and closes are not. -/
def sees : Effect → Bool
  | .submit (.accept _) => false
  | .submit (.send fd' _ _) => fd' = fd
  | .submit (.recv fd' _) => fd' = fd
  | .submit (.unprepared d) => requestDataClientFd d = fd
  | .serve fd' _ _ => fd' = fd
  | .merkleRoot fd' _ => fd' = fd
  | .shutdownClose _ => false

def sameCursor (v v' : Service) : Prop := v.cursor fd = v'.cursor fd

theorem sameCursor_equivalence : Equivalence (sameCursor fd) :=
  ⟨fun _ => rfl, fun h => Eq.symm h, fun h h' => Eq.trans h h'⟩

end View

/-- The client a reply is for. -/
def receiver : Reply → Option Fd
  | .ask fd | .listen fd | .deliver fd _ | .exhausted fd | .total fd => some fd
  | .listenForClients | .hangUp _ => none

section Steps
variable {pf : Platform} {stamp : Stamp} {fd : Fd} {v v' u u' : Service} {e : Event}
  {rs rs' : List Reply}

theorem render_filter (r : Reply) : (render pf stamp r).filter (sees fd) =
    if receiver r = some fd then render pf stamp r else [] := by
  cases r with
  | listenForClients => simp [render, receiver, sees, addAcceptRequest]
  | hangUp => simp [render, receiver, sees]
  | _ fd' =>
    by_cases h : fd' = fd
    · simp [render, receiver, sees, h]
    · simp [render, receiver, sees, h]

theorem renders_filter (rs : List Reply) : (rs.flatMap (render pf stamp)).filter (sees fd) =
    (rs.filter fun r => receiver r = some fd).flatMap (render pf stamp) := by
  induction rs with
  | nil => rfl
  | cons r rs ih =>
    rw [List.flatMap_cons, List.filter_append, render_filter, ih]
    by_cases h : receiver r = some fd
    · rw [if_pos h, List.filter_cons_of_pos (by simpa using h), List.flatMap_cons]
    · rw [if_neg h, List.filter_cons_of_neg (by simpa using h), List.nil_append]

/-- An event of another client leaves the cursor and has no reply for this one. -/
theorem serviceStep_others (he : client e ≠ some fd) (h : serviceStep v e = some (v', rs)) :
    sameCursor fd v v' ∧ rs.filter (fun r => receiver r = some fd) = [] := by
  cases e with
  | wants fd' =>
    have hne : fd' ≠ fd := fun heq => he (congrArg some heq)
    rw [serviceStep] at h
    split at h
    · simp only [Option.some.injEq, Prod.mk.injEq] at h
      obtain ⟨rfl, rfl⟩ := h
      simp [sameCursor, receiver, hne, Function.update_of_ne hne.symm]
    · simp only [Option.some.injEq, Prod.mk.injEq] at h
      obtain ⟨rfl, rfl⟩ := h
      simp [sameCursor, receiver, hne]
  | done fd' =>
    have hne : fd' ≠ fd := fun heq => he (congrArg some heq)
    rw [serviceStep] at h
    split at h
    · simp only [Option.some.injEq, Prod.mk.injEq] at h
      obtain ⟨rfl, rfl⟩ := h
      simp [sameCursor, receiver, hne, Function.update_of_ne hne.symm]
    · cases h
  | garbled => cases h
  | silent =>
    simp only [serviceStep, Option.some.injEq, Prod.mk.injEq] at h
    obtain ⟨rfl, rfl⟩ := h
    exact ⟨rfl, rfl⟩
  | _ fd' =>
    have hne : fd' ≠ fd := fun heq => he (congrArg some heq)
    simp only [serviceStep, Option.some.injEq, Prod.mk.injEq] at h
    obtain ⟨rfl, rfl⟩ := h
    simp [sameCursor, receiver, hne, Function.update_of_ne hne.symm]

/-- An event of the client has the same replies for it wherever its cursor is the same. -/
theorem serviceStep_own (hsame : sameCursor fd v u) (he : client e = some fd)
    (h : serviceStep v e = some (v', rs)) (h' : serviceStep u e = some (u', rs')) :
    sameCursor fd v' u' ∧ rs.filter (fun r => receiver r = some fd) =
      rs'.filter fun r => receiver r = some fd := by
  have hcursor : v.cursor fd = u.cursor fd := hsame
  cases e with
  | wants fd' =>
    obtain rfl : fd' = fd := Option.some.inj he
    rw [serviceStep] at h h'
    rw [← hcursor] at h'
    split at h
    · rename_i hlt
      rw [if_pos hlt] at h'
      simp only [Option.some.injEq, Prod.mk.injEq] at h h'
      obtain ⟨rfl, rfl⟩ := h
      obtain ⟨rfl, rfl⟩ := h'
      exact ⟨by simp [sameCursor], rfl⟩
    · rename_i hlt
      rw [if_neg hlt] at h'
      simp only [Option.some.injEq, Prod.mk.injEq] at h h'
      obtain ⟨rfl, rfl⟩ := h
      obtain ⟨rfl, rfl⟩ := h'
      exact ⟨hsame, rfl⟩
  | done fd' =>
    obtain rfl : fd' = fd := Option.some.inj he
    rw [serviceStep] at h h'
    split at h
    · split at h'
      · simp only [Option.some.injEq, Prod.mk.injEq] at h h'
        obtain ⟨rfl, rfl⟩ := h
        obtain ⟨rfl, rfl⟩ := h'
        exact ⟨by simp [sameCursor], rfl⟩
      · cases h'
    · cases h
  | garbled => cases h
  | silent => cases he
  | _ fd' =>
    obtain rfl : fd' = fd := Option.some.inj he
    simp only [serviceStep, Option.some.injEq, Prod.mk.injEq] at h h'
    obtain ⟨rfl, rfl⟩ := h
    obtain ⟨rfl, rfl⟩ := h'
    simp [sameCursor, receiver, hcursor]

theorem service_unwinds (pf : Platform) (fd : Fd) :
    Unwinds (service pf) (mine fd pf.codec) (sees fd) (sameCursor fd) where
  equiv := sameCursor_equivalence fd
  others := by
    intro i v v' effects hmine hstep
    obtain ⟨rs, hservice, rfl⟩ := service_eq_some.mp hstep
    obtain ⟨hsame, hnil⟩ := serviceStep_others (by simpa [mine] using hmine) hservice
    exact ⟨hsame, by rw [renders_filter, hnil, List.flatMap_nil]⟩
  own := by
    intro i v u v' u' effects effects' hmine hsame hstep hstep'
    obtain ⟨rs, hservice, rfl⟩ := service_eq_some.mp hstep
    obtain ⟨rs', hservice', rfl⟩ := service_eq_some.mp hstep'
    obtain ⟨hsame', heq⟩ := serviceStep_own hsame (by simpa [mine] using hmine) hservice hservice'
    exact ⟨hsame', by rw [renders_filter, renders_filter, heq]⟩

/-- Only a total can depend on what the other clients have asked for. -/
theorem serviceStep_goes_on (hsame : sameCursor fd v u) (he : client e = some fd)
    (h : serviceStep v e = some (v', rs)) (htotal : .total fd ∉ rs) :
    ∃ u' rs', serviceStep u e = some (u', rs') := by
  have hcursor : v.cursor fd = u.cursor fd := hsame
  cases e with
  | wants fd' =>
    obtain rfl : fd' = fd := Option.some.inj he
    rw [serviceStep]
    split
    · exact ⟨_, _, rfl⟩
    · exact ⟨_, _, rfl⟩
  | done fd' =>
    obtain rfl : fd' = fd := Option.some.inj he
    rw [serviceStep] at h
    split at h
    · simp only [Option.some.injEq, Prod.mk.injEq] at h
      rw [← h.2] at htotal
      exact absurd (List.mem_singleton_self _) htotal
    · cases h
  | garbled => cases h
  | _ => exact ⟨_, _, rfl⟩

theorem service_goes_on {i : Completion} {effects : List Effect}
    (hmine : mine fd pf.codec i = true) (hsame : sameCursor fd v u)
    (hstep : service pf i v = some (v', effects))
    (hopen : ∀ hash, .merkleRoot fd hash ∉ effects) :
    ∃ u' effects', service pf i u = some (u', effects') := by
  obtain ⟨rs, hservice, rfl⟩ := service_eq_some.mp hstep
  have htotal : .total fd ∉ rs := by
    intro hmem
    exact hopen (blockRoot pf) (List.mem_flatMap.mpr ⟨_, hmem, List.mem_cons_self⟩)
  obtain ⟨u', rs', hstep'⟩ := serviceStep_goes_on hsame (by simpa [mine] using hmine) hservice htotal
  exact ⟨u', _, service_eq_some.mpr ⟨rs', hstep', rfl⟩⟩

end Steps

section Runs
variable {pf : Platform} {fd : Fd} {is js : List Completion} {s t : Server}
  {effects effects' : List Effect}

/-- Two runs of the server in which the same completes for the client on `fd`, whatever
completes for all others: if neither faults, the same is submitted for that client and its
counter is the same at the end. -/
theorem serverRun_congr (hin : is.filter (mine fd pf.codec) = js.filter (mine fd pf.codec))
    (his : serverRun pf is = some (s, effects)) (hjs : serverRun pf js = some (t, effects')) :
    effects.filter (sees fd) = effects'.filter (sees fd) ∧
      s.befferSendedN fd = t.befferSendedN fd := by
  obtain ⟨v, hv, hrep⟩ := serverRun_eq_some his
  obtain ⟨u, hu, hrep'⟩ := serverRun_eq_some hjs
  obtain ⟨os, hrun, rfl⟩ := serviceRun_eq_some.mp hv
  obtain ⟨os', hrun', rfl⟩ := serviceRun_eq_some.mp hu
  obtain ⟨hsame, hout⟩ := (service_unwinds pf fd).run rfl hin hrun hrun'
  refine ⟨?_, ?_⟩
  · simpa [addAcceptRequest, sees] using hout
  · rw [hrep.counters, hrep'.counters]
    exact hsame

theorem serverRun_alone (his : serverRun pf is = some (s, effects))
    (hopen : ∀ hash, .merkleRoot fd hash ∉ effects) :
    ∃ t effects', serverRun pf (is.filter (mine fd pf.codec)) = some (t, effects') := by
  obtain ⟨v, hv, -⟩ := serverRun_eq_some his
  obtain ⟨os, hrun, rfl⟩ := serviceRun_eq_some.mp hv
  have hgo : ∀ i v u v' os, mine fd pf.codec i = true → sameCursor fd v u →
      service pf i v = some (v', os) → (∀ o ∈ os, ∀ hash, o ≠ .merkleRoot fd hash) →
      ∃ u' os', service pf i u = some (u', os') :=
    fun i v u v' os hmine hsame hstep hok =>
      service_goes_on hmine hsame hstep fun hash hmem => hok _ hmem hash rfl
  obtain ⟨u, os', hrun'⟩ := (service_unwinds pf fd).run_alone hgo
    ((sameCursor_equivalence fd).refl opened) hrun
    fun o ho hash heq => hopen hash (List.mem_cons_of_mem _ (heq ▸ ho))
  have hagree := serverRun_agrees pf (is.filter (mine fd pf.codec))
  rw [serviceRun_eq_some.mpr ⟨os', hrun', rfl⟩] at hagree
  obtain ⟨t, ht, -⟩ := hagree.exists_left
  exact ⟨t, _, ht⟩

/-- As long as no transfer to the client on `fd` has been finished, the run of the server with
the completions for this client alone goes on as well, submits the same for it, frames
included, and ends with the same counter. -/
theorem serverRun_isolated (his : serverRun pf is = some (s, effects))
    (hopen : ∀ hash, .merkleRoot fd hash ∉ effects) :
    ∃ t effects', serverRun pf (is.filter (mine fd pf.codec)) = some (t, effects') ∧
      effects.filter (sees fd) = effects'.filter (sees fd) ∧
      s.befferSendedN fd = t.befferSendedN fd := by
  obtain ⟨t, effects', ht⟩ := serverRun_alone his hopen
  refine ⟨t, effects', ht, serverRun_congr ?_ his ht⟩
  rw [List.filter_filter]
  simp

end Runs

section Demonstration
open ServerClosing

/-- Clients connect on 5 and 6, and the first asks for a message. -/
def besideAnother : List Completion :=
  [connects 5 (by decide), connects 6 (by decide), asks 5 (by decide)]

theorem besideAnother_runs : ∃ s effects,
    serverRun plainPlatform besideAnother = some (s, effects) ∧
    ∀ fd hash, .merkleRoot fd hash ∉ effects := by
  have hrun := run_cons_eq_some.mpr ⟨_, _, _, service_connects 5 (by decide) opened,
    run_cons_eq_some.mpr ⟨_, _, _, service_connects 6 (by decide) ⟨fun _ => 0, 1, 5⟩,
      run_cons_eq_some.mpr ⟨_, _, _, service_asks 5 (by decide) ⟨fun _ => 0, 1, 6⟩,
        run_nil _ _, rfl⟩, rfl⟩, rfl⟩
  have hagree := serverRun_agrees plainPlatform besideAnother
  rw [serviceRun, besideAnother, hrun] at hagree
  obtain ⟨s, hs, -⟩ := hagree.exists_left
  exact ⟨s, _, hs, by simp [render, addAcceptRequest]⟩

theorem besideAnother_mine : besideAnother.filter (mine 5 plainPlatform.codec) =
    firstRequest 5 (by decide) := by
  have h5 : mine 5 plainPlatform.codec (connects 5 (by decide)) = true := by
    rw [mine, eventOf_connects]
    decide
  have h6 : mine 5 plainPlatform.codec (connects 6 (by decide)) = false := by
    rw [mine, eventOf_connects]
    decide
  have hask : mine 5 plainPlatform.codec (asks 5 (by decide)) = true := by
    rw [mine, eventOf_asks]
    decide
  rw [besideAnother, firstRequest, List.filter_cons_of_pos h5,
    List.filter_cons_of_neg (by rw [h6]; decide), List.filter_cons_of_pos hask, List.filter_nil]

/-- The client on 5 is served the same with and without the one on 6. -/
theorem serverRun_isolated_beside_another : ∃ s t effects effects',
    serverRun plainPlatform besideAnother = some (s, effects) ∧
    serverRun plainPlatform (firstRequest 5 (by decide)) = some (t, effects') ∧
    effects.filter (sees 5) = effects'.filter (sees 5) ∧
    s.befferSendedN 5 = t.befferSendedN 5 := by
  obtain ⟨s, effects, hs, hopen⟩ := besideAnother_runs
  obtain ⟨t, effects', ht, hsees, hcounter⟩ := serverRun_isolated hs (hopen 5)
  rw [besideAnother_mine] at ht
  exact ⟨s, t, effects, effects', hs, ht, hsees, hcounter⟩

end Demonstration
end CBlockchain.ClientIsolation
