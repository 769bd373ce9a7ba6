import CBlockchain.LockStep
import CBlockchain.RingRuns

/-! With one client the transfer over the ring is in lock-step. The client has left its loop
when the server finishes it, and is finished once, so at most one frame is sent again and
nobody reads it. -/
namespace CBlockchain.Transfer
open ConnectionHandlers DataHandlers EventLoop ReceiveLoop RequestData Serdes
variable {pf : Platform} {net net' ideal : Net} {fd : Fd}

section Linked

theorem onLink_linked {fd' : Fd} (f : Link → Link) (h : net.links fd ≠ none) :
    (net.onLink fd' f).links fd ≠ none := by
  by_cases hfd : fd = fd'
  · subst hfd
    simpa [Net.onLink] using h
  · simpa [Net.onLink, Function.update_of_ne hfd] using h

theorem perform_linked (e : Effect) (h : net.links fd ≠ none) : (perform net e).links fd ≠ none := by
  cases e with
  | submit sqe =>
    cases sqe with
    | send fd' data d =>
      have hadded : ((net.fill fd' data).addOp fd' (.send fd' data d)).links fd ≠ none := h
      exact onLink_linked _ hadded
    | _ => exact h
  | shutdownClose fd' => exact onLink_linked _ h
  | _ => exact h

theorem foldl_perform_linked (effects : List Effect) :
    ∀ net : Net, net.links fd ≠ none → (effects.foldl perform net).links fd ≠ none := by
  induction effects with
  | nil => exact fun _ h => h
  | cons e effects ih => exact fun net h => ih _ (perform_linked e h)

theorem submitLeftover_linked {d : BitVec 64} (h : net.links fd ≠ none) :
    (net.submitLeftover d).links fd ≠ none := by
  obtain ⟨link, on⟩ := Option.ne_none_iff_exists'.mp h
  obtain ⟨link', on', -⟩ := submitLeftover_client (d := d) on
  rw [on']
  exact Option.some_ne_none _

theorem foldl_execute_linked (effects : List Effect) :
    ∀ net : Net, net.links fd ≠ none → (effects.foldl execute net).links fd ≠ none := by
  induction effects with
  | nil => exact fun _ h => h
  | cons e effects ih =>
    intro net h
    apply ih
    by_cases he : ∃ d, e = .submit (.unprepared d)
    · obtain ⟨d, rfl⟩ := he
      exact submitLeftover_linked h
    · rw [execute_eq (fun d hd => he ⟨d, hd⟩)]
      exact perform_linked e h

theorem update_linked {links : Fd → Option Link} {fd' : Fd} {l : Option Link}
    (h : links fd ≠ none) (hl : links fd' ≠ none → l ≠ none) :
    Function.update links fd' l fd ≠ none := by
  by_cases hfd : fd = fd'
  · subst hfd
    simpa using hl h
  · simpa [Function.update_of_ne hfd] using h

/-- A connection stays known, by the protocol and over the ring. -/
theorem step_linked (hstep : Step pf net net') (h : net.links fd ≠ none) : net'.links fd ≠ none := by
  cases hstep with
  | accepted => exact foldl_perform_linked _ _ (update_linked h fun _ => Option.some_ne_none _)
  | refused => exact foldl_perform_linked _ _ h
  | post outstanding completes => exact update_linked h completes.keeps
  | handle => exact foldl_perform_linked _ _ h
  | deliver => exact update_linked h fun _ => Option.some_ne_none _
  | clientTurn => exact update_linked h fun _ => Option.some_ne_none _
  | assemble => exact update_linked h fun _ => Option.some_ne_none _

theorem ring_linked (hstep : RingStep pf net net') (h : net.links fd ≠ none) :
    net'.links fd ≠ none := by
  rcases hstep with haccept | ⟨fd', hwork⟩
  · cases haccept with
    | accepted => exact foldl_execute_linked _ _ (update_linked h fun _ => Option.some_ne_none _)
    | refused => exact foldl_execute_linked _ _ h
  · cases hwork with
    | post outstanding completes => exact update_linked h completes.keeps
    | strayAccepted => exact update_linked h fun _ => Option.some_ne_none _
    | strayRefused => exact h
    | handle => exact foldl_execute_linked _ _ h
    | deliver => exact update_linked h fun _ => Option.some_ne_none _
    | clientTurn => exact update_linked h fun _ => Option.some_ne_none _
    | assemble => exact update_linked h fun _ => Option.some_ne_none _

theorem RingStep.alone (hstep : RingStep pf net net') (alone : ∀ fd' ≠ fd, net'.links fd' = none) :
    ∀ fd' ≠ fd, net.links fd' = none := by
  intro fd' hne
  by_contra h
  exact ring_linked hstep h (alone fd' hne)

end Linked

section Once

/-- The server has printed no root, or one, for the only client, whose connection is closing. -/
inductive FinishedOnce (fd : Fd) (net : Net) : Prop
  | before (none : net.roots = [])
  | after {hash : Digest} (once : net.roots = [(fd, hash)]) (linked : net.links fd ≠ none)
      (closing : Closing fd (net.ops fd))

variable {stamp : Stamp} {cqe : Cqe} {s server : Server} {effects : List Effect} {l₁ l₂ : List Op}

theorem Closing.handle {ops : List Op} (h : Closing fd ops) (sign : fd.msb = false)
    (hops : ops = l₁ ++ .posted cqe :: l₂)
    (turn : eventLoopStep pf stamp cqe s = some (server, effects)) :
    effects = [.shutdownClose s.currentClientFd] ∧ l₁ ++ l₂ = [] := by
  cases h with
  | pending => cases (singleton_split hops).2.1
  | handled => simp at hops
  | posted res =>
    obtain ⟨rfl, heq, rfl⟩ := singleton_split hops
    cases heq
    rw [step_close sign, Option.some.injEq, Prod.mk.injEq] at turn
    exact ⟨turn.2.symm, rfl⟩

theorem Turns.ops_other {fd' : Fd} (h : Turns fd' s server effects) (hne : fd ≠ fd') (net : Net) :
    (effects.foldl perform net).ops fd = net.ops fd := by
  have hother : ∀ sqe, ((net.addOp fd' sqe).ops fd) = net.ops fd :=
    fun _ => Function.update_of_ne hne _ _
  cases h with
  | nothing => rfl
  | closes => rfl
  | receives => exact hother _
  | responds sign responds =>
    cases responds with
    | nothing => rfl
    | status frame => exact hother (.send fd' frame _)
    | serves cbuf m frame => exact hother (.send fd' frame _)
    | finishes cbuf hash => simp [perform, Net.addOp, Function.update_of_ne hne]

theorem FinishedOnce.keep (h : FinishedOnce fd net) (roots : net'.roots = net.roots)
    (linked : net.links fd ≠ none → net'.links fd ≠ none)
    (closing : net.links fd ≠ none → Closing fd (net.ops fd) → Closing fd (net'.ops fd)) :
    FinishedOnce fd net' := by
  cases h with
  | before none => exact .before (roots.trans none)
  | after once hlinked hclosing =>
    exact .after (roots.trans once) (linked hlinked) (closing hlinked hclosing)

theorem handle_finishedOnce (h : FinishedOnce fd net) (hs : Sound pf net)
    (alone : ∀ fd' ≠ fd, net.links fd' = none) {fd₁ : Fd}
    (hops : net.ops fd₁ = l₁ ++ .posted cqe :: l₂)
    (turn : eventLoopStep pf stamp cqe net.server = some (server, effects)) :
    FinishedOnce fd (effects.foldl perform
      { net with server, ops := Function.update net.ops fd₁ (l₁ ++ l₂) }) := by
  have hstep : Step pf net _ := .handle stamp hops turn
  have hmem : .posted cqe ∈ net.ops fd₁ := by rw [hops]; simp
  have hturns := (hs.tagged hmem).turns turn
  rcases hturns.prints with ⟨-, hroots⟩ | ⟨sign, cbuf, hash, -, rfl⟩
  · refine h.keep (hroots _) (step_linked hstep) fun linked closing => ?_
    by_cases hfd : fd = fd₁
    · subst hfd
      obtain ⟨rfl, hnil⟩ := closing.handle (hs.sign linked) hops turn
      simpa [perform, Net.onLink, hnil] using Closing.handled
    · rw [hturns.ops_other hfd]
      simpa [Function.update_of_ne hfd] using closing
  · obtain ⟨link, on, -, hclosing⟩ := finishes_idle hs hops sign turn
    obtain rfl : fd₁ = fd := by
      by_contra hne
      simp [alone fd₁ hne] at on
    cases h with
    | after once linked closing => simpa using (closing.handle sign hops turn).1
    | before none =>
      have hno : ¬ net.Other fd₁ := by
        rintro ⟨fd', hne, hlinked⟩
        exact hlinked (alone fd' hne)
      refine .after (?_ : _ = [(fd₁, hash)])
        (step_linked hstep (by rw [on]; exact Option.some_ne_none _)) ?_
      · simp [perform, Net.addOp, none]
      · simpa [perform, Net.addOp] using hclosing.resolve_left hno

theorem FinishedOnce.step (h : FinishedOnce fd net) (hs : Sound pf net)
    (alone : ∀ fd' ≠ fd, net'.links fd' = none) (hstep : Step pf net net') :
    FinishedOnce fd net' := by
  have hlinked : net.links fd ≠ none → net'.links fd ≠ none := step_linked hstep
  have halone : ∀ fd' ≠ fd, net.links fd' = none := by
    intro fd' hne
    by_contra hlink
    exact step_linked hstep hlink (alone fd' hne)
  cases hstep with
  | @accepted server effects n stamp fd₁ outstanding sign unused turn =>
    rw [step_accepted, Option.some.injEq, Prod.mk.injEq] at turn
    obtain ⟨rfl, rfl⟩ := turn
    refine h.keep rfl hlinked fun linked closing => ?_
    have hne : fd ≠ fd₁ := fun heq => linked (heq ▸ unused)
    simpa [perform, addAcceptRequest, Net.addOp, Net.onLink, Function.update_of_ne hne] using closing
  | @refused server effects n stamp res outstanding sign turn =>
    rw [step_accepted, Option.some.injEq, Prod.mk.injEq] at turn
    obtain ⟨rfl, rfl⟩ := turn
    refine h.keep rfl hlinked fun linked closing => ?_
    have hne : fd ≠ res := fun heq => by simp [heq ▸ hs.sign linked] at sign
    simpa [perform, addAcceptRequest, Net.addOp, Net.onLink, Function.update_of_ne hne] using closing
  | @post fd₁ l₁ l₂ sqe cqe l outstanding completes =>
    refine h.keep rfl hlinked fun _ closing => ?_
    by_cases hfd : fd = fd₁
    · subst hfd
      simpa using (closing.post outstanding completes).2
    · simpa [Function.update_of_ne hfd] using closing
  | handle stamp waiting turn => exact handle_finishedOnce h hs halone waiting turn
  | deliver => exact h.keep rfl hlinked fun _ closing => closing
  | clientTurn => exact h.keep rfl hlinked fun _ closing => closing
  | assemble => exact h.keep rfl hlinked fun _ closing => closing

end Once

section Alone

theorem Mirrors.alone (h : Mirrors net ideal) (alone : ∀ fd' ≠ fd, net.links fd' = none) :
    ∀ fd' ≠ fd, ideal.links fd' = none := fun fd' hne => h.unused (alone fd' hne)

/-- With one client every finish is harmless. -/
theorem alone_harmlessFinish (h : Mirrors net ideal) (hs : Sound pf ideal)
    (alone : ∀ fd' ≠ fd, net.links fd' = none) (hstep : RingStep pf net net') :
    HarmlessFinish net net' := by
  rcases hstep with haccept | ⟨fd₁, hwork⟩
  · refine harmlessFinish_of_quiet ?_
    cases haccept with
    | accepted stamp outstanding sign unused turn => exact accepted_roots turn _
    | refused stamp outstanding sign turn => exact accepted_roots turn _
  · cases hwork with
    | @handle server effects l₁ l₂ cqe stamp waiting turn =>
      obtain ⟨m₁, cqe', m₂, hideal, -, hturn⟩ := h.posted waiting turn
      have hmem : .posted cqe' ∈ ideal.ops fd₁ := by rw [hideal]; simp
      rcases ((hs.tagged hmem).turns hturn).prints with ⟨hno, hroots⟩ | ⟨sign, cbuf, hash, -, rfl⟩
      · refine harmlessFinish_of_quiet ?_
        rw [foldl_execute hno]
        exact hroots _
      · obtain ⟨il, on, hidle, -⟩ := finishes_idle hs hideal sign hturn
        obtain rfl : fd₁ = fd := by
          by_contra hne
          simp [h.alone alone fd₁ hne] at on
        refine fun _ _ _ => harmless_of_alone alone fun link hlink => ?_
        obtain ⟨il', on', hshadow⟩ := LinkMirrors.exists_ideal (hlink ▸ h.links fd₁)
          (.inr (by rw [on]; exact Option.some_ne_none _))
        obtain rfl := Option.some.inj (on.symm.trans on')
        rwa [Link.Idle, hshadow.isOpen, hshadow.client]
    | _ => exact harmlessFinish_of_quiet rfl

theorem RingReaches.exists_alone (h : RingReaches pf (fun _ _ => True) net)
    (alone : ∀ fd' ≠ fd, net.links fd' = none) :
    ∃ ideal, Reaches pf ideal ∧ Mirrors net ideal ∧ FinishedOnce fd ideal := by
  obtain ⟨start, hstart, hrun⟩ := h
  induction hrun with
  | refl =>
    refine ⟨start, ⟨start, hstart, .refl⟩, initial_mirrors hstart, .before ?_⟩
    obtain ⟨cbuf, hinit, -⟩ := initial_spec pf
    rw [hinit, Option.some.injEq] at hstart
    rw [← hstart]
    rfl
  | tail _ hstep ih =>
    have hbefore := hstep.1.alone alone
    obtain ⟨ideal, hreach, hm, honce⟩ := ih hbefore
    have hs := reaches_sound hreach
    obtain ⟨ideal', hstep', hm'⟩ :=
      ring_follows hm hs hstep.1 (alone_harmlessFinish hm hs hbefore hstep.1)
    obtain ⟨start, hstart, hrun⟩ := hreach
    exact ⟨ideal', ⟨start, hstart, hrun.tail hstep'⟩, hm', honce.step hs (hm'.alone alone) hstep'⟩

end Alone

section LockStep
variable {entries : List Sqe} {ops iops : List Op} {link il : Link}

theorem OpMirrors.isUnread {op iop : Op} (h : OpMirrors entries op iop) :
    op.isUnread = iop.isUnread := by
  cases h with
  | same => rfl
  | pending => rfl
  | posted closes res => rfl

theorem countP_isUnread (h : List.Forall₂ (OpMirrors entries) ops iops) :
    ops.countP Op.isUnread = iops.countP Op.isUnread := by
  induction h with
  | nil => rfl
  | cons hop _ ih => rw [List.countP_cons, List.countP_cons, hop.isUnread, ih]

theorem mem_of_mirrors {cqe : Cqe} (h : List.Forall₂ (OpMirrors entries) ops iops)
    (htag : requestDataEventType cqe.userData = some .testResponse) (hmem : .posted cqe ∈ ops) :
    .posted cqe ∈ iops := by
  induction h with
  | nil => exact hmem
  | cons hop _ ih =>
    rcases List.mem_cons.mp hmem with rfl | hmem
    · cases hop with
      | same => exact List.mem_cons_self
      | posted closes res =>
        rw [Closes, htag] at closes
        cases closes
    · exact List.mem_cons_of_mem _ (ih hmem)

/-- A connection of which the server has not heard. -/
theorem stray_lockStep {isOpen : Bool} (h : Mirrors net ideal) (hs : Sound pf ideal)
    (sign : fd.msb = false) (hnone : ideal.links fd = none) :
    LockStep pf.codec net fd ⟨isOpen, [], [], connectedClient⟩ := by
  have hok := hs.fd fd
  have hops := h.ops fd
  rw [Net.Ok, hnone] at hok
  cases hok with
  | refused sign' => simp [sign] at sign'
  | unused _ idle counter =>
    rw [idle, List.forall₂_nil_right_iff] at hops
    have hwaits : Waiting connectedClient := ⟨rfl, rfl⟩
    refine ⟨?_, fun cqe _ next => ?_, fun cqe hmem => ?_, fun _ => ⟨fun hunder => ?_, fun _ => ?_⟩⟩
    · simp [framesUnderWay, hops, hwaits.unreadFrames]
    · simp [hwaits.next] at next
    · simp [hops] at hmem
    · simp [MessageUnderWay, hwaits.nextStatus] at hunder
    · rw [h.server]
      exact counter

theorem Shadows.toClient_eq {again : Prop} (h : Shadows 0 again link il) :
    link.toClient = il.toClient :=
  (h.kept.eq_of_length_le (by simpa using h.extra)).symm

theorem Closing.tag {d : BitVec 64} {res : BitVec 32} {data : List UInt8}
    (h : Closing fd [.posted ⟨d, res, data⟩]) (sign : fd.msb = false) : Closes d := by
  cases h with
  | posted => exact closes_make sign

theorem Awaiting.not_closing (h : Awaiting fd ops) (sign : fd.msb = false) : ¬ Closing fd ops := by
  intro closing
  cases h with
  | sending => cases closing
  | receiving => cases closing
  | sent => exact absurd (closing.tag sign) (not_closes_make (by decide))

/-- A connection that is closing carries nothing more. -/
theorem Closing.quiet (hs : Sound pf net) (on : net.links fd = some link)
    (alone : ∀ fd' ≠ fd, net.links fd' = none) (closing : Closing fd (net.ops fd)) :
    link.toClient = [] ∧ link.toServer = [] ∧ unreadFrames link.client = 0 ∧
      (net.ops fd).countP Op.isUnread = 0 := by
  have hok := hs.fd fd
  rw [Net.Ok, on] at hok
  cases hok with
  | abandoned _ _ others =>
    obtain ⟨fd', hne, hlinked⟩ := others
    exact absurd (alone fd' hne) hlinked
  | exchange sign joint =>
    cases joint with
    | toClient _ waits => exact absurd closing (waits.not_closing sign)
    | atClient _ waits => exact absurd closing (waits.not_closing sign)
    | toServer _ waits => exact absurd closing (waits.not_closing sign)
    | atServer _ arrived =>
      rw [arrived] at closing
      exact absurd (closing.tag sign) (not_closes_make (by decide))
    | finished _ complete _ out back =>
      exact ⟨out, back, complete.quiet, closing.countP_isUnread sign⟩

/-- One server and one client are in lock-step in every reachable state. -/
theorem transfer_lockStep {pf : Platform} {net : Net} (h : RingReaches pf (fun _ _ => True) net)
    {fd : Fd} {link : Link} (on : net.links fd = some link)
    (alone : ∀ fd' ≠ fd, net.links fd' = none) : LockStep pf.codec net fd link := by
  obtain ⟨ideal, hreach, hm, honce⟩ := h.exists_alone alone
  have hs := reaches_sound hreach
  have hlink := hm.links fd
  rw [on] at hlink
  generalize hil : ideal.links fd = l at hlink
  cases hlink with
  | stray sign => exact stray_lockStep hm hs sign hil
  | @shadowed _ il hshadow =>
    have hlock := reaches_lockStep hreach hil (hm.alone alone)
    have hunread := countP_isUnread (hm.ops fd)
    refine ⟨?_, ?_, fun cqe hmem htag => ?_, fun hfin => ?_⟩
    · cases honce with
      | before none =>
        rw [hm.roots, none] at hshadow
        have hle := hlock.atMostOne
        have hback : link.toServer.length ≤ il.toServer.length := by
          rcases hshadow.back with hsame | hnil
          · rw [hsame]
          · simp [hnil]
        rw [framesUnderWay, ← hshadow.client, ← hshadow.toClient_eq, ← hunread] at hle
        rw [framesUnderWay]
        omega
      | after once linked closing =>
        -- what the ring may have sent again is the only frame
        obtain ⟨hto, hback, hclient, hops⟩ := closing.quiet hs hil (hm.alone alone)
        have hextra := hshadow.extra
        have hserver : link.toServer = [] := hshadow.back.elim (·.trans hback) id
        rw [hto, hm.roots, once, List.length_nil, List.length_singleton] at hextra
        rw [framesUnderWay, hserver, hshadow.client, hclient, hunread, hops]
        simpa using hextra
    · rw [hshadow.client]
      exact hlock.clientReads
    · exact hlock.serverReads cqe (mem_of_mirrors (hm.ops fd) htag hmem) htag
    · rw [Net.Finished, hm.roots] at hfin
      cases honce with
      | before none =>
        rw [hm.roots, none] at hshadow
        have hcount := hlock.counter hfin
        rw [MessageUnderWay, ← hshadow.client, ← hshadow.toClient_eq, ← hm.server] at hcount
        exact hcount
      | after once linked closing => exact absurd ⟨_, by rw [once]; exact List.mem_singleton_self _⟩ hfin

theorem transfer_lockStep_before_last :
    ∃ net link, RingReaches ServerClosing.plainPlatform (fun _ _ => True) net ∧
      net.links 5 = some link ∧ (∀ fd' ≠ 5, net.links fd' = none) ∧ link.client.stored = 511 ∧
      LockStep ServerClosing.plainPlatform.codec net 5 link := by
  have hfit : FitsBuffers ServerClosing.plainPlatform.codec ServerClosing.zeroStamp :=
    wireCodec_fits (Nat.zero_le _)
  obtain ⟨start, net, cl, hstart, hrun, h, -, hbeside⟩ := exists_asked hfit
    (by decide : (5 : Fd).msb = false) (by norm_num : 511 < 512)
  have hreach : RingReaches ServerClosing.plainPlatform (fun _ _ => True) net :=
    ⟨start, hstart, steps_ring (fun _ _ _ _ => trivial) (initial_sound hstart) hrun hbeside.roots⟩
  have halone : ∀ fd' ≠ 5, net.links fd' = none := fun fd' hne =>
    (hbeside.links fd' hne).trans (initial_links hstart fd')
  exact ⟨net, _, hreach, h.link, halone, h.part.taken.stored, transfer_lockStep hreach h.link halone⟩

end LockStep

end CBlockchain.Transfer
