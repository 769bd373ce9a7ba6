import CBlockchain.RingSimulation
import CBlockchain.ServerClosing
import CBlockchain.TransferProgress

/-! Runs over the ring. A run of the protocol that finishes nobody is a run over the ring
of the same states, so what the protocol can do until a client has finished the ring can do
as well; and the steps over the ring are bounded as those of the protocol are. -/
namespace CBlockchain.Transfer
open Amortized ConnectionHandlers DataHandlers EventLoop ReceiveLoop RequestData Serdes
variable {pf : Platform} {net net' ideal : Net} {fd : Fd}

/-- The steps of a run in which every finish is harmless. -/
def CarefulStep (pf : Platform) (net net' : Net) : Prop :=
  RingStep pf net net' ∧ HarmlessFinish net net'

/-- Those that take no accept. -/
def CarefulWork (pf : Platform) (net net' : Net) : Prop :=
  (∃ fd, RingWork pf fd net net') ∧ HarmlessFinish net net'

section Quiet
variable {server : Server} {effects : List Effect}

theorem execute_eq {e : Effect} (h : ∀ d, e ≠ .submit (.unprepared d)) (net : Net) :
    execute net e = perform net e := by
  cases e with
  | submit sqe =>
    cases sqe with
    | unprepared d => exact absurd rfl (h d)
    | _ => rfl
  | _ => rfl

theorem foldl_execute (h : ∀ e ∈ effects, ∀ d, e ≠ .submit (.unprepared d)) :
    ∀ net : Net, effects.foldl execute net = effects.foldl perform net := by
  induction effects with
  | nil => exact fun _ => rfl
  | cons e effects ih =>
    intro net
    rw [List.foldl_cons, List.foldl_cons, execute_eq (h e List.mem_cons_self),
      ih fun e' he' => h e' (List.mem_cons_of_mem e he')]

/-- A turn on one of a client's requests prints no root, or finishes the client. -/
theorem Turns.prints {s : Server} (h : Turns fd s server effects) :
    ((∀ e ∈ effects, ∀ d, e ≠ .submit (.unprepared d)) ∧
      ∀ net : Net, (effects.foldl perform net).roots = net.roots) ∨
    fd.msb = false ∧ ∃ cbuf hash, server = ⟨cbuf, Function.update s.befferSendedN fd 0, s.currentClientFd⟩ ∧
      effects = [.merkleRoot fd hash,
        .submit (.unprepared (makeRequestData fd .flagCloseConnection))] := by
  cases h with
  | nothing => exact .inl ⟨by simp, fun _ => rfl⟩
  | closes => exact .inl ⟨by simp, fun _ => rfl⟩
  | receives => exact .inl ⟨by simp, fun _ => rfl⟩
  | responds sign responds =>
    cases responds with
    | nothing => exact .inl ⟨by simp, fun _ => rfl⟩
    | status frame => exact .inl ⟨by simp, fun _ => rfl⟩
    | serves cbuf m frame => exact .inl ⟨by simp, fun _ => rfl⟩
    | finishes cbuf hash => exact .inr ⟨sign, cbuf, hash, rfl, rfl⟩

theorem perform_roots (net : Net) (e : Effect) : net.roots <+: (perform net e).roots := by
  cases e with
  | merkleRoot fd hash => exact List.prefix_append _ _
  | submit sqe => cases sqe <;> exact List.prefix_rfl
  | _ => exact List.prefix_rfl

theorem foldl_perform_roots (effects : List Effect) {roots : List (Fd × Digest)} :
    ∀ net : Net, roots <+: net.roots → roots <+: (effects.foldl perform net).roots := by
  induction effects with
  | nil => exact fun _ h => h
  | cons e effects ih => exact fun net h => ih _ (h.trans (perform_roots net e))

theorem step_roots (hstep : Step pf net net') : net.roots <+: net'.roots := by
  cases hstep with
  | accepted => exact foldl_perform_roots _ _ List.prefix_rfl
  | refused => exact foldl_perform_roots _ _ List.prefix_rfl
  | handle => exact foldl_perform_roots _ _ List.prefix_rfl
  | _ => exact List.prefix_rfl

theorem steps_roots (run : Relation.ReflTransGen (Step pf) net net') : net.roots <+: net'.roots := by
  induction run with
  | refl => exact List.prefix_rfl
  | tail _ hstep ih => exact ih.trans (step_roots hstep)

theorem harmlessFinish_of_quiet (quiet : net'.roots = net.roots) : HarmlessFinish net net' := by
  intro fd hash h
  simp [quiet] at h

theorem accepted_execute {stamp : Stamp} {fd : Fd} {s : Server}
    (turn : eventLoopStep pf stamp ⟨makeRequestData 0 .flagAccept, fd, []⟩ s = some (server, effects))
    (net : Net) : effects.foldl execute net = effects.foldl perform net := by
  rw [step_accepted, Option.some.injEq, Prod.mk.injEq] at turn
  obtain ⟨rfl, rfl⟩ := turn
  exact foldl_execute (by simp [addAcceptRequest]) net

theorem accepted_roots {stamp : Stamp} {fd : Fd} {s : Server}
    (turn : eventLoopStep pf stamp ⟨makeRequestData 0 .flagAccept, fd, []⟩ s = some (server, effects))
    (net : Net) : (effects.foldl execute net).roots = net.roots := by
  rw [accepted_execute turn]
  rw [step_accepted, Option.some.injEq, Prod.mk.injEq] at turn
  rw [← turn.2]
  rfl

/-- The steps of the protocol that finish nobody are steps over the ring. -/
theorem step_ring (hs : Sound pf net) (hstep : Step pf net net') (quiet : net'.roots = net.roots) :
    CarefulStep pf net net' := by
  refine ⟨?_, harmlessFinish_of_quiet quiet⟩
  cases hstep with
  | accepted stamp outstanding sign unused turn =>
    rw [← accepted_execute turn]
    exact .inl (.accepted stamp outstanding sign unused turn)
  | refused stamp outstanding sign turn =>
    rw [← accepted_execute turn]
    exact .inl (.refused stamp outstanding sign turn)
  | @post fd l₁ l₂ sqe cqe l outstanding completes =>
    have hsocket := (hs.requested (by rw [outstanding]; simp : .pending sqe ∈ net.ops fd)).socket
    have hwork : RingWork pf fd net _ := .post outstanding (l := l) (by rwa [hsocket])
    rw [hsocket] at hwork
    exact .inr ⟨fd, hwork⟩
  | @handle server effects fd l₁ l₂ cqe stamp waiting turn =>
    have hmem : .posted cqe ∈ net.ops fd := by rw [waiting]; simp
    rcases ((hs.tagged hmem).turns turn).prints with ⟨hno, -⟩ | ⟨-, cbuf, hash, -, rfl⟩
    · rw [← foldl_execute hno]
      exact .inr ⟨fd, .handle stamp waiting turn⟩
    · simp [perform, Net.addOp] at quiet
  | deliver on isOpen next hne fits waits => exact .inr ⟨_, .deliver on isOpen next hne fits waits⟩
  | clientTurn stamp on isOpen phase turn => exact .inr ⟨_, .clientTurn stamp on isOpen phase turn⟩
  | assemble m fuel on phase done => exact .inr ⟨_, .assemble m fuel on phase done⟩

theorem steps_ring {P : Net → Net → Prop}
    (h : ∀ net net', Sound pf net → HarmlessFinish net net' → P net net') (hs : Sound pf net)
    (run : Relation.ReflTransGen (Step pf) net net') (quiet : net'.roots = net.roots) :
    Relation.ReflTransGen (fun net net' => RingStep pf net net' ∧ P net net') net net' := by
  induction run with
  | refl => exact .refl
  | @tail mid net' hrun hstep ih =>
    have hmid := steps_roots hrun
    have hlast := step_roots hstep
    rw [quiet] at hlast
    have hroots : mid.roots = net.roots := hlast.eq_of_length_le hmid.length_le
    have hs' := steps_sound hs hrun
    obtain ⟨hring, harmless⟩ := step_ring hs' hstep (quiet.trans hroots.symm)
    exact (ih hroots).tail ⟨hring, h _ _ hs' harmless⟩

/-- Where the server prints a root for a client, this client has left its receive loop, or its
connection was closed for another one. -/
theorem finishes_idle {stamp : Stamp} {cqe : Cqe} {l₁ l₂ : List Op} {hash : Digest}
    (hs : Sound pf net) (hops : net.ops fd = l₁ ++ .posted cqe :: l₂) (sign : fd.msb = false)
    (turn : eventLoopStep pf stamp cqe net.server = some (server, [.merkleRoot fd hash,
      .submit (.unprepared (makeRequestData fd .flagCloseConnection))])) :
    ∃ link, net.links fd = some link ∧ link.Idle ∧ (net.Other fd ∨ Closing fd
      (l₁ ++ l₂ ++ [.pending (.unprepared (makeRequestData fd .flagCloseConnection))])) := by
  have hstep : Step pf net _ := .handle stamp hops turn
  have hok := (step_sound hs hstep).fd fd
  have hlast : Op.pending (.unprepared (makeRequestData fd .flagCloseConnection)) ∈
      l₁ ++ l₂ ++ [.pending (.unprepared (makeRequestData fd .flagCloseConnection))] := by simp
  simp only [Net.Ok, List.foldl_cons, List.foldl_nil, perform, Net.addOp, Net.enter,
    requestDataClientFd_make, Function.update_self] at hok
  generalize hl : net.links fd = l at hok
  generalize l₁ ++ l₂ ++ [.pending (.unprepared (makeRequestData fd .flagCloseConnection))] = ops
    at hok hlast ⊢
  cases hok with
  | unused _ idle => simp [idle] at hlast
  | refused neg => simp [sign] at neg
  | @abandoned link _ late others => exact ⟨link, rfl, .inl late.closed, .inl others⟩
  | @exchange link _ joint =>
    cases joint with
    | toClient _ waits => cases waits <;> simp at hlast
    | atClient _ waits => cases waits <;> simp at hlast
    | toServer _ waits => cases waits <;> simp at hlast
    | atServer _ arrived => simp [arrived] at hlast
    | finished closing complete => exact ⟨link, rfl, .inr complete.phase, .inr closing⟩

end Quiet

section Finishing

/-- The client of a connection, unless the server has not heard of it, is that of the protocol. -/
theorem Mirrors.client_cases {link : Link} (h : Mirrors net ideal) (on : net.links fd = some link) :
    link.client = connectedClient ∨ ∃ il, ideal.links fd = some il ∧ il.client = link.client := by
  have hlink := h.links fd
  rw [on] at hlink
  generalize ideal.links fd = l at hlink
  cases hlink with
  | stray => exact .inl rfl
  | @shadowed _ il hshadow => exact .inr ⟨il, rfl, hshadow.client.symm⟩

theorem initial_links {start : Net} (h : initial pf = some start) (fd : Fd) :
    start.links fd = none := by
  obtain ⟨cbuf, hinit, -⟩ := initial_spec pf
  rw [hinit, Option.some.injEq] at h
  rw [← h]
  rfl

/-- With one client, which nobody serves any more, whatever the next entry holds is harmless. -/
theorem harmless_of_alone (alone : ∀ fd' ≠ fd, net.links fd' = none)
    (idle : ∀ link, net.links fd = some link → link.Idle) : net.Harmless := by
  intro sqe s link _ _ on
  by_cases hs : s = fd
  · subst hs
    exact idle link on
  · rw [alone s hs] at on
    cases on

theorem Link.push_client (link : Link) (frame : List UInt8) : (link.push frame).client = link.client := by
  rw [Link.push]
  split <;> rfl

theorem submitLeftover_client {d : BitVec 64} {link : Link} (on : net.links fd = some link) :
    ∃ link', (net.submitLeftover d).links fd = some link' ∧ link'.client = link.client := by
  obtain ⟨links, heq, hlinks⟩ := submitLeftover_eq net d
  rw [heq]
  rcases hlinks fd with hsame | ⟨-, frame, hpush⟩
  · exact ⟨link, hsame.trans on, rfl⟩
  · exact ⟨link.push frame, hpush.trans (by rw [on, Option.map_some]), link.push_client frame⟩

/-- The net after the finish of a client. -/
theorem finished_client {server : Server} {ops : Fd → List Op} {hash : Digest} {d : BitVec 64}
    {link : Link} (on : net.links fd = some link) : ∃ link',
    (Net.submitLeftover { net with server, ops, roots := net.roots ++ [(fd, hash)] } d).links fd =
      some link' ∧ link'.client = link.client ∧
    (Net.submitLeftover { net with server, ops, roots := net.roots ++ [(fd, hash)] } d).Finished fd := by
  set net₁ : Net := { net with server, ops, roots := net.roots ++ [(fd, hash)] }
  have on₁ : net₁.links fd = some link := on
  obtain ⟨link', on', hclient⟩ := submitLeftover_client on₁
  refine ⟨link', on', hclient, hash, ?_⟩
  rw [submitLeftover_roots]
  exact List.mem_append_right _ (List.mem_singleton_self _)

theorem enough_turn (stamp : Stamp) {sentAt : Stamp} {res : BitVec 32} {s : Server} (ready : Ready s.cbuf)
    (sign : fd.msb = false) (hres : 0 < res.toInt) (slots : ∀ i < 512, ∃ m, slotMsg s.cbuf i = some m) :
    ∃ server hash, Grows s.cbuf server.cbuf ∧
      eventLoopStep pf stamp ⟨makeRequestData fd .testResponse, res,
        sendOnlyStatusCode pf.codec sentAt .enough⟩ s = some (server, [.merkleRoot fd hash,
          .submit (.unprepared (makeRequestData fd .flagCloseConnection))]) := by
  obtain ⟨msg, hmsg⟩ := exists_messages slots
  refine ⟨_, _, ?_, (step_status sign stamp hres sentAt .enough (by simp [Status.Named]) s).trans
    (finishSending_spec pf ready fd hmsg).1⟩
  exact fun _ _ h => h

theorem RingWork.finish {stamp : Stamp} {cqe : Cqe} {server : Server} {hash : Digest}
    (hops : net.ops fd = [.posted cqe])
    (turn : eventLoopStep pf stamp cqe net.server = some (server, [.merkleRoot fd hash,
      .submit (.unprepared (makeRequestData fd .flagCloseConnection))])) :
    RingWork pf fd net (Net.submitLeftover { net with
      server := server
      ops := Function.update net.ops fd []
      roots := net.roots ++ [(fd, hash)] } (makeRequestData fd .flagCloseConnection)) := by
  have hops : net.ops fd = [] ++ .posted cqe :: [] := hops
  have hwork : RingWork pf fd net _ := .handle stamp hops turn
  exact hwork

/-- The server prints the root for a client whose `ENOUGH` has arrived. -/
theorem Arrived.ring_finish {stamp : Stamp} {cl : Client} (hfit : FitsBuffers pf.codec stamp)
    (hs : Sound pf net) (h : Arrived net fd (sendOnlyStatusCode pf.codec stamp .enough) cl)
    (sign : fd.msb = false) (taken : Taken net.server.cbuf 512 cl) :
    cl.phase ≠ .receiving ∧ ∃ server hash, Grows net.server.cbuf server.cbuf ∧
      RingWork pf fd net (Net.submitLeftover { net with
        server := server
        ops := Function.update net.ops fd []
        roots := net.roots ++ [(fd, hash)] } (makeRequestData fd .flagCloseConnection)) := by
  have hlen := List.length_pos_iff.mpr (sendOnlyStatusCode_ne_nil pf.codec stamp .enough)
  have hres := ofNat_toInt (hfit.status .enough (by simp [Status.Named]))
  obtain ⟨server, hash, hgrow, hturn⟩ := enough_turn stamp hs.ready sign
    (by rw [hres]; exact_mod_cast hlen) taken.slots
  have hops : net.ops fd = [] ++ .posted _ :: [] := h.ops
  obtain ⟨link, on, hidle, -⟩ := finishes_idle hs hops sign hturn
  rw [h.link, Option.some.injEq] at on
  subst on
  exact ⟨by simpa [Link.Idle] using hidle, server, hash, hgrow, .finish h.ops hturn⟩

/-- One client can be served to its end over the ring. -/
theorem exists_ring_served {stamp : Stamp} (hfit : FitsBuffers pf.codec stamp)
    (sign : fd.msb = false) : ∃ start net link, initial pf = some start ∧
      Relation.ReflTransGen (CarefulStep pf) start net ∧ net.links fd = some link ∧
      link.client.stored = 512 ∧ net.Finished fd := by
  obtain ⟨start, net₁, cl₁, hstart, hrun₁, h, hb, hbeside₁⟩ :=
    exists_asked hfit sign (by norm_num : 0 < 512)
  obtain ⟨net₂, cl, hrun₂, hs₂, harrived, htaken, hbeside₂⟩ := h.served hfit hb
  have hbeside := hbeside₁.trans hbeside₂
  have hcareful := steps_ring (fun _ _ _ harmless => harmless) (initial_sound hstart)
    (hrun₁.trans hrun₂) hbeside.roots
  have halone : ∀ fd' ≠ fd, net₂.links fd' = none := fun fd' hne =>
    (hbeside.links fd' hne).trans (initial_links hstart fd')
  obtain ⟨hphase, server, hash, -, hwork⟩ := harrived.ring_finish hfit hs₂ sign htaken
  have hidle : ∀ link, net₂.links fd = some link → link.Idle := by
    intro link on
    rw [harrived.link, Option.some.injEq] at on
    rw [← on]
    exact .inr hphase
  obtain ⟨link, on, hclient, hfinished⟩ := finished_client harrived.link
  refine ⟨start, _, link, hstart, hcareful.tail ⟨.inr ⟨fd, hwork⟩, fun _ _ _ =>
    harmless_of_alone halone hidle⟩, on, ?_, hfinished⟩
  rw [hclient]
  exact htaken.stored

end Finishing

section Bound

/-- No run over the ring goes on for ever while every finish is harmless: in whatever order
things happen, the steps that take no accept are at most 6149 for each accept. -/
theorem transfer_work_bounded {start : Net} {n a : ℕ} (hstart : initial pf = some start)
    (run : Run (CarefulWork pf) (RingAccept pf) start n a net) : n ≤ 6149 * a := by
  have hwork : ∀ {s s' t : Net}, Sound pf t ∧ Mirrors s t → CarefulWork pf s s' →
      ∃ t', Works pf t t' ∧ Sound pf t' ∧ Mirrors s' t' := by
    rintro s s' t ⟨hs, hm⟩ ⟨⟨fd, hstep⟩, harmless⟩
    obtain ⟨t', hworks, hm'⟩ := work_follows hm hs hstep harmless
    exact ⟨t', hworks, step_sound hs hworks.1, hm'⟩
  have haccept : ∀ {s s' t : Net}, Sound pf t ∧ Mirrors s t → RingAccept pf s s' →
      ∃ t', Step pf t t' ∧ Sound pf t' ∧ Mirrors s' t' := by
    rintro s s' t ⟨hs, hm⟩ hstep
    obtain ⟨t', hstep', hm'⟩ := accept_follows hm hstep
    exact ⟨t', hstep', step_sound hs hstep', hm'⟩
  obtain ⟨ideal, hrun, -⟩ := run.follow (fun s t => Sound pf t ∧ Mirrors s t)
    hwork haccept ⟨initial_sound hstart, initial_mirrors hstart⟩
  exact works_bounded hstart hrun

theorem transfer_work_bounded_served : ∃ start net link n a,
    initial ServerClosing.plainPlatform = some start ∧
    Run (CarefulWork ServerClosing.plainPlatform) (RingAccept ServerClosing.plainPlatform) start n a net ∧
    net.links 5 = some link ∧ link.client.stored = 512 ∧ n ≤ 6149 * a := by
  have hfit : FitsBuffers ServerClosing.plainPlatform.codec ServerClosing.zeroStamp :=
    wireCodec_fits (Nat.zero_le _)
  obtain ⟨start, net, link, hstart, hrun, on, hstored, -⟩ :=
    exists_ring_served hfit (by decide : (5 : Fd).msb = false)
  have hsplit : ∀ s s', CarefulStep ServerClosing.plainPlatform s s' →
      CarefulWork ServerClosing.plainPlatform s s' ∨ RingAccept ServerClosing.plainPlatform s s' := by
    rintro s s' ⟨haccept | hwork, harmless⟩
    · exact .inr haccept
    · exact .inl ⟨hwork, harmless⟩
  obtain ⟨n, a, run⟩ := Run.of_steps (Relation.ReflTransGen.mono hsplit _ _ hrun)
  exact ⟨start, net, link, n, a, hstart, run, on, hstored, transfer_work_bounded hstart run⟩

end Bound

end CBlockchain.Transfer
