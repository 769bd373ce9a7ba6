import CBlockchain.RingMirror

/-! The protocol follows the ring. As long as every finish is harmless, each step over the
ring is one step of the protocol on a net that mirrors it, of the same kind; so what holds
of every run of the protocol holds of every such run over the ring. -/
namespace CBlockchain.Transfer
open Amortized ConnectionHandlers DataHandlers EventLoop ReceiveLoop RequestData Serdes
variable {pf : Platform} {net net' ideal ideal' : Net} {fd : Fd}

section Turns
variable {stamp : Stamp} {cqe : Cqe} {s server : Server} {effects : List Effect}

/-- The tags of the requests on one socket number. -/
inductive Tagged (fd : Fd) : BitVec 64 → Prop
  | sent : Tagged fd (makeRequestData fd .readResponse)
  | received (sign : fd.msb = false) : Tagged fd (makeRequestData fd .testResponse)
  | close (sign : fd.msb = false) : Tagged fd (makeRequestData fd .flagCloseConnection)

/-- What a turn of the server on one of these does. -/
inductive Turns (fd : Fd) (s : Server) : Server → List Effect → Prop
  | responds {server : Server} {effects : List Effect} (sign : fd.msb = false)
      (h : Responds fd s server effects) : Turns fd s server effects
  | nothing : Turns fd s s []
  | receives : Turns fd s s [.submit (.recv fd (makeRequestData fd .testResponse))]
  | closes : Turns fd s { s with befferSendedN := Function.update s.befferSendedN fd 0 }
      [.shutdownClose s.currentClientFd]

theorem Tagged.turns (h : Tagged fd cqe.userData)
    (turn : eventLoopStep pf stamp cqe s = some (server, effects)) : Turns fd s server effects := by
  obtain ⟨d, res, data⟩ := cqe
  dsimp only at h
  cases h with
  | sent =>
    cases sign : fd.msb with
    | true =>
      rw [step_negative sign, Option.some.injEq, Prod.mk.injEq] at turn
      obtain ⟨rfl, rfl⟩ := turn
      exact .nothing
    | false =>
      rw [step_sent sign] at turn
      split at turn
      · rw [readStatusResponse, Option.some.injEq, Prod.mk.injEq] at turn
        obtain ⟨rfl, rfl⟩ := turn
        exact .receives
      · rw [Option.some.injEq, Prod.mk.injEq] at turn
        obtain ⟨rfl, rfl⟩ := turn
        exact .nothing
  | received sign => exact .responds sign (received_responds sign turn)
  | close sign =>
    rw [step_close sign, Option.some.injEq, Prod.mk.injEq] at turn
    obtain ⟨rfl, rfl⟩ := turn
    exact .closes

theorem Turns.no_accept (h : Turns fd s server effects) :
    ∀ e ∈ effects, ∀ d, e ≠ .submit (.accept d) := by
  cases h with
  | responds sign h => exact fun e he => (responds_local h e he).no_accept
  | nothing => exact List.forall_mem_nil _
  | receives =>
    intro e he d heq
    rw [List.mem_singleton.mp he] at heq
    cases heq
  | closes =>
    intro e he d heq
    rw [List.mem_singleton.mp he] at heq
    cases heq

/-- A turn on a closing tag looks at nothing but the tag. -/
theorem eventLoopStep_closes (hcloses : Closes cqe.userData) (res : BitVec 32)
    (data : List UInt8) :
    eventLoopStep pf stamp ⟨cqe.userData, res, data⟩ s = eventLoopStep pf stamp cqe s := by
  rw [Closes] at hcloses
  simp only [eventLoopStep, hcloses]

theorem Awaiting.tagged {ops : List Op} (h : Awaiting fd ops) (hmem : .posted cqe ∈ ops) :
    Tagged fd cqe.userData := by
  cases h with
  | sending => cases List.mem_singleton.mp hmem
  | receiving => cases List.mem_singleton.mp hmem
  | sent =>
    rw [Op.posted.inj (List.mem_singleton.mp hmem)]
    exact .sent

theorem Closing.tagged {ops : List Op} (h : Closing fd ops) (sign : fd.msb = false)
    (hmem : .posted cqe ∈ ops) : Tagged fd cqe.userData := by
  cases h with
  | pending => cases List.mem_singleton.mp hmem
  | handled => cases hmem
  | posted =>
    rw [Op.posted.inj (List.mem_singleton.mp hmem)]
    exact .close sign

theorem Sound.tagged (hs : Sound pf net) (hmem : .posted cqe ∈ net.ops fd) :
    Tagged fd cqe.userData := by
  have hok := hs.fd fd
  rw [Net.Ok] at hok
  generalize net.ops fd = ops at hok hmem
  generalize net.links fd = l at hok
  cases hok with
  | unused _ idle => simp [idle] at hmem
  | refused _ all =>
    cases all _ hmem
    exact .sent
  | exchange sign joint =>
    cases joint with
    | toClient _ waits => exact waits.tagged hmem
    | atClient _ waits => exact waits.tagged hmem
    | toServer _ waits => exact waits.tagged hmem
    | atServer _ arrived =>
      rw [arrived] at hmem
      rw [Op.posted.inj (List.mem_singleton.mp hmem)]
      exact .received sign
    | finished closing => exact closing.tagged sign hmem
  | abandoned sign late =>
    cases late.ops _ hmem with
    | sent => exact .sent
    | received => exact .received sign
    | ended => exact .received sign
    | closing _ closing => exact closing.tagged sign (List.mem_singleton_self _)

/-- Where there is a request, the server knows the socket. -/
theorem Sound.known (hs : Sound pf net) (hops : net.ops fd ≠ []) : Known net fd := by
  have hok := hs.fd fd
  rw [Net.Ok] at hok
  rw [Known]
  generalize net.links fd = l at hok ⊢
  cases hok with
  | unused _ idle => exact absurd idle hops
  | refused sign => exact .inl sign
  | exchange => exact .inr (Option.some_ne_none _)
  | abandoned => exact .inr (Option.some_ne_none _)

theorem Sound.sign (hs : Sound pf net) (linked : net.links fd ≠ none) : fd.msb = false := by
  have hok := hs.fd fd
  rw [Net.Ok] at hok
  generalize net.links fd = l at hok linked
  cases hok with
  | unused => exact absurd rfl linked
  | refused => exact absurd rfl linked
  | exchange sign => exact sign
  | abandoned sign => exact sign

end Turns

section Leftover

@[simp] theorem userData_leftover (net : Net) (d : BitVec 64) : (net.leftover d).userData = d := by
  rw [Net.leftover]
  cases net.lastUse with
  | none => rfl
  | some sqe => cases sqe <;> rfl

theorem socketOf_leftover (net : Net) (d : BitVec 64) :
    socketOf (net.leftover d) = net.lastUse.bind socketOf := by
  rw [Net.leftover]
  cases net.lastUse with
  | none => rfl
  | some sqe => cases sqe <;> rfl

theorem lastUse_mem {sqe : Sqe} (h : net.lastUse = some sqe) : sqe ∈ net.entries := by
  rw [Net.lastUse] at h
  split at h
  · exact List.mem_of_getElem? h
  · cases h

/-- The submission of a leftover entry: its request, and perhaps a frame on its socket. -/
theorem submitLeftover_eq (net : Net) (d : BitVec 64) : ∃ links,
    net.submitLeftover d =
      { net.addOp (requestDataClientFd d) (net.leftover d) with links := links } ∧
    ∀ s, links s = net.links s ∨ socketOf (net.leftover d) = some s ∧
      ∃ frame, links s = (net.links s).map (Link.push frame) := by
  rw [Net.submitLeftover]
  cases hsqe : net.leftover d with
  | send fd data d' =>
    refine ⟨_, rfl, fun s => ?_⟩
    by_cases hs : s = fd
    · subst hs
      exact .inr ⟨rfl, data, Function.update_self _ _ _⟩
    · exact .inl (Function.update_of_ne hs _ _)
  | _ => exact ⟨net.links, rfl, fun _ => .inl rfl⟩

theorem submitLeftover_roots (net : Net) (d : BitVec 64) :
    (net.submitLeftover d).roots = net.roots := by
  obtain ⟨links, heq, -⟩ := submitLeftover_eq net d
  rw [heq]
  rfl

end Leftover

section Effects
variable {server : Server} {effects : List Effect} {ops iops : List Op}

/-- The turn that finishes a client: the protocol does nothing where the ring executes the
leftover entry. -/
theorem Mirrors.finish (h : Mirrors net ideal) (harmless : net.Harmless) (sign : fd.msb = false)
    (hash : Digest) (opsAt : List.Forall₂ (OpMirrors net.entries) ops iops) :
    Mirrors (Net.submitLeftover { net with
        server := server
        ops := Function.update net.ops fd ops
        roots := net.roots ++ [(fd, hash)] } (makeRequestData fd .flagCloseConnection))
      (perform { ideal with
        server := server
        ops := Function.update ideal.ops fd iops
        roots := ideal.roots ++ [(fd, hash)] }
          (.submit (.unprepared (makeRequestData fd .flagCloseConnection)))) := by
  set d := makeRequestData fd .flagCloseConnection
  set net₁ : Net := { net with
    server := server
    ops := Function.update net.ops fd ops
    roots := net.roots ++ [(fd, hash)] }
  have hd : Closes d := closes_make sign
  obtain ⟨links, heq, hlinks⟩ := submitLeftover_eq net₁ d
  set sqe := net₁.leftover d
  have hsock : ∀ s, socketOf sqe = some s →
      ∃ old ∈ net.entries, socketOf old = some s ∧ ∀ link, net.links s = some link → link.Idle := by
    intro s hs
    rw [socketOf_leftover] at hs
    obtain ⟨old, hold, hsocket⟩ := Option.bind_eq_some_iff.mp hs
    have hlast : net.lastUse = some old := hold
    exact ⟨old, lastUse_mem hlast, hsocket, fun link on => harmless old s link hlast hsocket on⟩
  have hcloses : Closes sqe.userData := by rw [userData_leftover]; exact hd
  have hfd : requestDataClientFd d = fd := requestDataClientFd_make _ _
  have hagain : ∀ s, net.RanAgain s →
      Net.RanAgain { net₁.addOp (requestDataClientFd d) sqe with links := links } s :=
    fun s ⟨x, hx, hrest⟩ => ⟨x, List.mem_append_left _ hx, hrest⟩
  rw [heq]
  refine ⟨rfl, h.accepts, congrArg (· ++ [(fd, hash)]) h.roots, fun fd' => ?_, fun s => ?_,
    fun x s hx hs => ?_, fun s link ha on => ?_⟩
  · have hmono : ∀ {op op' : Op}, OpMirrors net.entries op op' →
        OpMirrors (net.entries ++ [sqe]) op op' := fun hop => hop.mono (List.subset_append_left _ _)
    by_cases hne : fd' = fd
    · subst hne
      simp only [perform, Net.addOp, hfd, Function.update_self, net₁]
      refine List.rel_append (opsAt.imp fun _ _ hop => hmono hop) (.cons ?_ .nil)
      have hop : OpMirrors (net.entries ++ [sqe]) (.pending sqe) (.pending (.unprepared sqe.userData)) :=
        .pending hcloses (List.mem_append_right _ (List.mem_singleton_self _))
      rwa [userData_leftover] at hop
    · simp only [perform, Net.addOp, hfd, Function.update_of_ne hne, net₁]
      exact (h.ops fd').imp fun _ _ hop => hmono hop
  · have hold := h.links s
    have hlen : (net.roots ++ [(fd, hash)]).length = net.roots.length + 1 := List.length_append
    change LinkMirrors s (net.roots ++ [(fd, hash)]).length _ (links s) (ideal.links s)
    rw [hlen]
    rcases hlinks s with hsame | ⟨hs, frame, hpush⟩
    · rw [hsame]
      exact hold.mono (Nat.le_succ _) (hagain s)
    · obtain ⟨old, hmem, hsocket, -⟩ := hsock s hs
      rw [hpush]
      exact hold.push_again frame (h.known old s hmem hsocket)
        ⟨sqe, List.mem_append_right _ (List.mem_singleton_self _), hcloses, hs⟩
  · rcases List.mem_append.mp hx with hx | hx
    · exact h.known x s hx hs
    · rw [List.mem_singleton.mp hx] at hs
      obtain ⟨old, hmem, hsocket, -⟩ := hsock s hs
      exact h.known old s hmem hsocket
  · have hidle : ∀ old, net.links s = some old → old.Idle := by
      obtain ⟨x, hx, hxc, hxs⟩ := ha
      rcases List.mem_append.mp hx with hx | hx
      · exact fun old hold => h.idle s old ⟨x, hx, hxc, hxs⟩ hold
      · rw [List.mem_singleton.mp hx] at hxs
        exact (hsock s hxs).choose_spec.2.2
    change links s = some link at on
    rcases hlinks s with hsame | ⟨-, frame, hpush⟩
    · rw [hsame] at on
      exact hidle link on
    · rw [hpush, Option.map_eq_some_iff] at on
      obtain ⟨old, hold, rfl⟩ := on
      exact (hidle old hold).push frame

theorem Mirrors.sent (h : Mirrors net ideal) (known : Known ideal fd) (frame : List UInt8) :
    Mirrors (perform net (.submit (.send fd frame (makeRequestData fd .readResponse))))
      (perform ideal (.submit (.send fd frame (makeRequestData fd .readResponse)))) := by
  have hlinks := (h.links fd).push frame known
  refine h.at_fd fd [.send fd frame (makeRequestData fd .readResponse)] h.server h.accepts ⟨rfl, rfl⟩ rfl
    (fun sqe hmem => ?_) (fun sqe s hmem hs => ?_)
    (fun _ hne => ⟨Function.update_of_ne hne _ _, Function.update_of_ne hne _ _⟩)
    (fun _ hne => ⟨Function.update_of_ne hne _ _, Function.update_of_ne hne _ _⟩) (fun hne => ?_) ?_ ?_
    fun link ha on => ?_
  · rw [List.mem_singleton.mp hmem]
    exact not_closes_make (by decide)
  · rw [List.mem_singleton.mp hmem] at hs
    obtain rfl : fd = s := Option.some.inj hs
    simpa [Known, perform, Net.addOp, Net.onLink] using known
  · simpa [perform, Net.addOp, Net.onLink] using hne
  · simp only [perform, Net.addOp, Net.onLink, Net.enter, Net.fill, Function.update_self]
    exact List.rel_append (h.ops fd) (.cons (.same _) .nil)
  · simpa [perform, Net.addOp, Net.onLink] using hlinks
  · simp only [perform, Net.addOp, Net.onLink, Net.enter, Net.fill, Function.update_self,
      Option.map_eq_some_iff] at on
    obtain ⟨old, hold, rfl⟩ := on
    exact (h.idle fd old ha hold).push frame

theorem Mirrors.received (h : Mirrors net ideal) (known : Known ideal fd) :
    Mirrors (perform net (.submit (.recv fd (makeRequestData fd .testResponse))))
      (perform ideal (.submit (.recv fd (makeRequestData fd .testResponse)))) := by
  refine h.at_fd fd [.recv fd (makeRequestData fd .testResponse)] h.server h.accepts ⟨rfl, rfl⟩ rfl
    (fun sqe hmem => ?_) (fun sqe s hmem hs => ?_)
    (fun _ hne => ⟨Function.update_of_ne hne _ _, Function.update_of_ne hne _ _⟩)
    (fun _ _ => ⟨rfl, rfl⟩) id ?_ (h.links fd) (h.idle fd)
  · rw [List.mem_singleton.mp hmem]
    exact not_closes_make (by decide)
  · rw [List.mem_singleton.mp hmem] at hs
    obtain rfl : fd = s := Option.some.inj hs
    exact known
  · simp only [perform, Net.addOp, Net.enter, Function.update_self]
    exact List.rel_append (h.ops fd) (.cons (.same _) .nil)

theorem Mirrors.accepting (h : Mirrors net ideal) :
    Mirrors (perform net addAcceptRequest) (perform ideal addAcceptRequest) := by
  refine h.at_fd 0 [.accept (makeRequestData 0 .flagAccept)] h.server ?_ ⟨rfl, rfl⟩ rfl
    (fun sqe hmem => ?_) (fun sqe s hmem hs => ?_) (fun _ _ => ⟨rfl, rfl⟩) (fun _ _ => ⟨rfl, rfl⟩) id
    (h.ops 0) (h.links 0) (h.idle 0)
  · simp [perform, addAcceptRequest, h.accepts]
  · rw [List.mem_singleton.mp hmem]
    exact not_closes_make (by decide)
  · rw [List.mem_singleton.mp hmem] at hs
    cases hs

theorem Mirrors.serve (h : Mirrors net ideal) (server : Server) :
    Mirrors { net with server } { ideal with server } :=
  ⟨rfl, h.accepts, h.roots, h.ops, h.links, h.known, h.idle⟩

/-- The requests on one socket number change on both sides. -/
theorem Mirrors.ops_at (h : Mirrors net ideal) (fd : Fd)
    (opsAt : List.Forall₂ (OpMirrors net.entries) ops iops) :
    Mirrors { net with ops := Function.update net.ops fd ops }
      { ideal with ops := Function.update ideal.ops fd iops } := by
  refine h.at_fd fd [] h.server h.accepts ⟨rfl, rfl⟩ (List.append_nil _).symm (List.forall_mem_nil _)
    (fun _ _ hmem => absurd hmem List.not_mem_nil)
    (fun _ hne => ⟨Function.update_of_ne hne _ _, Function.update_of_ne hne _ _⟩)
    (fun _ _ => ⟨rfl, rfl⟩) id ?_ (h.links fd) (h.idle fd)
  simpa using opsAt

/-- The buffers are no part of the comparison. -/
theorem Mirrors.buffers (h : Mirrors net ideal) (buffers ibuffers : Fd → List UInt8) :
    Mirrors { net with buffers } { ideal with buffers := ibuffers } :=
  ⟨h.server, h.accepts, h.roots, h.ops, h.links, h.known, h.idle⟩

theorem Mirrors.turn (h : Mirrors net ideal) (known : Known ideal fd)
    (turns : Turns fd ideal.server server effects)
    (opsAt : List.Forall₂ (OpMirrors net.entries) ops iops)
    (harmless : HarmlessFinish net (effects.foldl execute
      { net with server, ops := Function.update net.ops fd ops })) :
    Mirrors (effects.foldl execute { net with server, ops := Function.update net.ops fd ops })
      (effects.foldl perform { ideal with server, ops := Function.update ideal.ops fd iops }) := by
  have hturn := (h.ops_at fd opsAt).serve server
  cases turns with
  | nothing => exact hturn
  | closes => exact hturn.shut ideal.server.currentClientFd
  | receives => exact hturn.received known
  | responds sign responds =>
    cases responds with
    | nothing => exact hturn
    | status frame => exact hturn.sent known frame
    | serves cbuf m frame hlt => exact (hturn.buffers _ _).sent known frame
    | finishes cbuf hash =>
      exact h.finish (harmless fd hash (submitLeftover_roots _ _)) sign hash opsAt

end Effects

section Accepting

theorem Mirrors.unused (h : Mirrors net ideal) (unused : net.links fd = none) :
    ideal.links fd = none := by
  by_contra hne
  exact (h.links fd).ne_none hne unused

/-- A client connects on both sides. -/
theorem Mirrors.connect (h : Mirrors net ideal) (sign : fd.msb = false) (unused : net.links fd = none)
    (server : Server) (n : ℕ) :
    Mirrors { net with
        server, accepts := n
        links := Function.update net.links fd (some ⟨true, [], [], connectedClient⟩) }
      { ideal with
        server, accepts := n
        links := Function.update ideal.links fd (some ⟨true, [], [], connectedClient⟩) } := by
  have hagain := h.not_again sign (h.unused unused)
  have hlinks := h.link_at fd (fun _ => Option.some_ne_none _)
    (.shadowed (.refl ⟨true, [], [], connectedClient⟩)) fun ha => absurd ha hagain
  exact ⟨rfl, rfl, hlinks.roots, hlinks.ops, hlinks.links, hlinks.known, hlinks.idle⟩

theorem accept_follows (h : Mirrors net ideal) (hstep : RingAccept pf net net') :
    ∃ ideal', Step pf ideal ideal' ∧ Mirrors net' ideal' := by
  cases hstep with
  | @accepted server effects n stamp fd outstanding sign unused turn =>
    rw [h.accepts] at outstanding
    rw [h.server] at turn
    refine ⟨_, .accepted stamp outstanding sign (h.unused unused) turn, ?_⟩
    rw [step_accepted, Option.some.injEq, Prod.mk.injEq] at turn
    obtain ⟨rfl, rfl⟩ := turn
    have hconnect := (h.connect sign unused { ideal.server with currentClientFd := fd } n).accepting
    exact hconnect.sent (.inr (by simp [perform, addAcceptRequest])) _
  | @refused server effects n stamp res outstanding sign turn =>
    rw [h.accepts] at outstanding
    rw [h.server] at turn
    refine ⟨_, .refused stamp outstanding sign turn, ?_⟩
    rw [step_accepted, Option.some.injEq, Prod.mk.injEq] at turn
    obtain ⟨rfl, rfl⟩ := turn
    have hturn : Mirrors { net with server := { ideal.server with currentClientFd := res }, accepts := n }
        { ideal with server := { ideal.server with currentClientFd := res }, accepts := n } :=
      ⟨rfl, rfl, h.roots, h.ops, h.links, h.known, h.idle⟩
    exact hturn.accepting.sent (.inl sign) _

end Accepting

section Working

theorem forall₂_split {α β : Type*} {R : α → β → Prop} {x : α} {l₁ l₂ : List α} {l : List β}
    (h : List.Forall₂ R (l₁ ++ x :: l₂) l) :
    ∃ m₁ y m₂, l = m₁ ++ y :: m₂ ∧ List.Forall₂ R l₁ m₁ ∧ R x y ∧ List.Forall₂ R l₂ m₂ := by
  induction l₁ generalizing l with
  | nil =>
    obtain ⟨y, m₂, hy, hm₂, rfl⟩ := List.forall₂_cons_left_iff.mp h
    exact ⟨[], y, m₂, rfl, .nil, hy, hm₂⟩
  | cons z l₁ ih =>
    obtain ⟨w, m, hw, hm, rfl⟩ := List.forall₂_cons_left_iff.mp h
    obtain ⟨m₁, y, m₂, rfl, hm₁, hy, hm₂⟩ := ih hm
    exact ⟨w :: m₁, y, m₂, rfl, .cons hw hm₁, hy, hm₂⟩

theorem OpMirrors.replace {entries : List Sqe} {x y : Op} {l₁ l₂ m₁ m₂ : List Op}
    (h₁ : List.Forall₂ (OpMirrors entries) l₁ m₁) (h : OpMirrors entries x y)
    (h₂ : List.Forall₂ (OpMirrors entries) l₂ m₂) :
    List.Forall₂ (OpMirrors entries) (l₁ ++ x :: l₂) (m₁ ++ y :: m₂) :=
  List.rel_append h₁ (.cons h h₂)

theorem ClosedLink.follows {n : ℕ} {again : Prop} {l il : Option Link}
    (h : LinkMirrors fd n again l il) (closed : ClosedLink l) : ClosedLink il := by
  intro ilink on
  subst on
  cases h with
  | shadowed h => exact h.isOpen.symm.trans (closed _ rfl)

/-- The server's own requests complete on both sides alike. -/
theorem Completes.follows {n : ℕ} {again : Prop} {l l' il : Option Link} {sqe : Sqe} {cqe : Cqe}
    (hc : Completes l sqe cqe l') (h : LinkMirrors fd n again l il) (known : fd.msb = true ∨ il ≠ none) :
    ∃ il', Completes il sqe cqe il' ∧ LinkMirrors fd n again l' il' := by
  cases hc with
  | sent isOpen hres =>
    obtain ⟨il, rfl, hshadow⟩ := h.exists_ideal known
    exact ⟨_, .sent (hshadow.isOpen.symm.trans isOpen) hres, h⟩
  | unsent res closed => exact ⟨_, .unsent res (closed.follows h), h⟩
  | ended closed hres => exact ⟨_, .ended (closed.follows h) hres, h⟩
  | unprepared res => exact ⟨_, .unprepared res, h⟩
  | @received link _ _ res gs rest next hne fits hres =>
    obtain ⟨il, rfl, hshadow⟩ := h.exists_ideal known
    rcases hshadow.back with hback | hback
    · refine ⟨_, .received (hback.symm.trans next) hne fits hres, .shadowed ?_⟩
      exact ⟨hshadow.isOpen, hshadow.client, fun ha => ⟨(hshadow.same ha).1, rfl⟩, hshadow.kept,
        hshadow.extra, .inl rfl⟩
    · rw [hback] at next
      exact absurd (List.append_eq_nil_iff.mp next.symm).1 hne

theorem Completes.idle {l l' : Option Link} {sqe : Sqe} {cqe : Cqe} (hc : Completes l sqe cqe l')
    (h : ∀ link, l = some link → link.Idle) : ∀ link, l' = some link → link.Idle := by
  cases hc with
  | @received link =>
    intro link' on
    rw [← Option.some.inj on]
    exact h link rfl
  | _ => exact h

theorem Completes.userData {l l' : Option Link} {sqe : Sqe} {cqe : Cqe}
    (hc : Completes l sqe cqe l') : cqe.userData = sqe.userData := by
  cases hc <;> rfl

theorem Requested.socket {sqe : Sqe} (h : Requested fd sqe) : (socketOf sqe).getD fd = fd := by
  cases h <;> rfl

section Posting
variable {l₁ l₂ m₁ m₂ : List Op} {sqe : Sqe} {cqe : Cqe} {l : Option Link}

/-- A completion for an operation executed again: a frame may be taken from its socket, and
by the protocol nothing is done. -/
theorem again_follows (h : Mirrors net ideal) {s : Fd} {res : BitVec 32} {buffers : Fd → List UInt8}
    (hideal : ideal.ops fd = m₁ ++ .pending (.unprepared sqe.userData) :: m₂)
    (ops : List.Forall₂ (OpMirrors net.entries) (l₁ ++ .posted cqe :: l₂)
      (m₁ ++ .posted ⟨sqe.userData, res, []⟩ :: m₂))
    (link : LinkMirrors s net.roots.length (net.RanAgain s) l (ideal.links s))
    (idle : net.RanAgain s → ∀ link, l = some link → link.Idle) :
    ∃ ideal', Works pf ideal ideal' ∧ Mirrors { net with
      ops := Function.update net.ops fd (l₁ ++ .posted cqe :: l₂)
      links := Function.update net.links s l
      buffers := buffers } ideal' := by
  have hworks : Works pf ideal _ := works_post hideal (.unprepared res)
  rw [Function.update_eq_self] at hworks
  have hlinks := h.link_again s link idle
  exact ⟨_, hworks, (hlinks.ops_at fd ops).buffers _ _⟩

/-- A frame received by an operation executed again leaves none on its connection. -/
theorem again_link (h : Mirrors net ideal) (hs : Sound pf ideal) (mem : sqe ∈ net.entries)
    (closes : Closes sqe.userData)
    (hc : Completes (net.links ((socketOf sqe).getD fd)) sqe cqe l) :
    LinkMirrors ((socketOf sqe).getD fd) net.roots.length (net.RanAgain ((socketOf sqe).getD fd)) l
      (ideal.links ((socketOf sqe).getD fd)) := by
  have hlink := h.links ((socketOf sqe).getD fd)
  generalize hl : net.links ((socketOf sqe).getD fd) = l₀ at hc hlink
  cases hc with
  | @received link fd' d res gs rest next hne fits hres =>
    obtain ⟨il, on, hshadow⟩ := hlink.exists_ideal (h.known _ fd' mem rfl)
    rw [on]
    refine .shadowed ⟨hshadow.isOpen, hshadow.client, fun ha => ?_, hshadow.kept, hshadow.extra, ?_⟩
    · exact absurd ⟨_, mem, closes, rfl⟩ ha
    · rcases hshadow.back with hback | hback
      · exact .inr (hs.toServer_front on (hback.symm.trans next) hne).choose_spec.2
      · exact absurd (List.append_eq_nil_iff.mp (next.symm.trans hback)).1 hne
  | _ => exact hlink

theorem post_follows (h : Mirrors net ideal) (hs : Sound pf ideal)
    (hops : net.ops fd = l₁ ++ .pending sqe :: l₂)
    (hc : Completes (net.links ((socketOf sqe).getD fd)) sqe cqe l) :
    ∃ ideal', Works pf ideal ideal' ∧ Mirrors { net.fill ((socketOf sqe).getD fd) cqe.data with
      ops := Function.update net.ops fd (l₁ ++ .posted cqe :: l₂)
      links := Function.update net.links ((socketOf sqe).getD fd) l } ideal' := by
  have hforall := h.ops fd
  rw [hops] at hforall
  obtain ⟨m₁, op, m₂, hideal, h₁, hop, h₂⟩ := forall₂_split hforall
  have hidle : ∀ s, net.RanAgain s → (∀ link, net.links s = some link → link.Idle) :=
    fun s ha link on => h.idle s link ha on
  cases hop with
  | same =>
    have hmem : .pending sqe ∈ ideal.ops fd := by rw [hideal]; simp
    rw [(hs.requested hmem).socket] at hc ⊢
    obtain ⟨il, hic, hlink⟩ := hc.follows (h.links fd) (hs.known (by rw [hideal]; simp))
    have hlinks := h.link_at fd hic.keeps hlink fun ha => hc.idle (hidle fd ha)
    exact ⟨_, works_post hideal hic,
      (hlinks.ops_at fd (OpMirrors.replace h₁ (.same _) h₂)).buffers _ _⟩
  | pending closes mem =>
    have hud := hc.userData
    have hposted : OpMirrors net.entries (.posted cqe) (.posted ⟨sqe.userData, 0, []⟩) := by
      rw [← hud] at closes ⊢
      exact .posted closes 0
    apply again_follows h hideal (OpMirrors.replace h₁ hposted h₂)
    · exact again_link h hs mem closes hc
    · exact fun ha => hc.idle (hidle _ ha)

/-- A client that the server has not heard of connects, or an accept fails; by the protocol
nothing is done. -/
theorem stray_follows (h : Mirrors net ideal) (hs : Sound pf ideal) {d : BitVec 64} (res : BitVec 32)
    (hops : net.ops fd = l₁ ++ .pending (.accept d) :: l₂) :
    ∃ ideal', Works pf ideal ideal' ∧ Mirrors { net with
      ops := Function.update net.ops fd (l₁ ++ .posted ⟨d, res, []⟩ :: l₂) } ideal' := by
  have hforall := h.ops fd
  rw [hops] at hforall
  obtain ⟨m₁, op, m₂, hideal, h₁, hop, h₂⟩ := forall₂_split hforall
  cases hop with
  | same =>
    have hmem : .pending (.accept d) ∈ ideal.ops fd := by rw [hideal]; simp
    cases hs.requested hmem
  | pending closes mem =>
    rw [Sqe.userData] at closes hideal
    have hworks : Works pf ideal _ := works_post hideal (.unprepared 0)
    rw [Function.update_eq_self] at hworks
    have hposted : OpMirrors net.entries (.posted ⟨d, res, []⟩) (.posted ⟨d, 0, []⟩) :=
      .posted (by exact closes) 0
    exact ⟨_, hworks, (h.ops_at fd (OpMirrors.replace h₁ hposted h₂)).buffers net.buffers _⟩

theorem Mirrors.stray (h : Mirrors net ideal) {s : Fd} (sign : s.msb = false)
    (unused : net.links s = none) :
    Mirrors { net with links := Function.update net.links s (some ⟨true, [], [], connectedClient⟩) }
      ideal := by
  have hunused := h.unused unused
  refine h.link_again s ?_ fun ha => absurd ha (h.not_again sign hunused)
  rw [hunused]
  exact .stray sign true

/-- The completion that the server handles, on both sides. -/
theorem Mirrors.posted (h : Mirrors net ideal) {stamp : Stamp} {server : Server}
    {effects : List Effect} (hops : net.ops fd = l₁ ++ .posted cqe :: l₂)
    (turn : eventLoopStep pf stamp cqe net.server = some (server, effects)) :
    ∃ m₁ cqe' m₂, ideal.ops fd = m₁ ++ .posted cqe' :: m₂ ∧
      List.Forall₂ (OpMirrors net.entries) (l₁ ++ l₂) (m₁ ++ m₂) ∧
      eventLoopStep pf stamp cqe' ideal.server = some (server, effects) := by
  rw [h.server] at turn
  have hforall := h.ops fd
  rw [hops] at hforall
  obtain ⟨m₁, op, m₂, hideal, h₁, hop, h₂⟩ := forall₂_split hforall
  have hrest := List.rel_append h₁ h₂
  cases hop with
  | same => exact ⟨m₁, cqe, m₂, hideal, hrest, turn⟩
  | posted closes res =>
    exact ⟨m₁, _, m₂, hideal, hrest, (eventLoopStep_closes closes res []).trans turn⟩

theorem handle_follows (h : Mirrors net ideal) (hs : Sound pf ideal) {stamp : Stamp} {server : Server}
    {effects : List Effect} (hops : net.ops fd = l₁ ++ .posted cqe :: l₂)
    (turn : eventLoopStep pf stamp cqe net.server = some (server, effects))
    (harmless : HarmlessFinish net (effects.foldl execute
      { net with server, ops := Function.update net.ops fd (l₁ ++ l₂) })) :
    ∃ ideal', Works pf ideal ideal' ∧ Mirrors (effects.foldl execute
      { net with server, ops := Function.update net.ops fd (l₁ ++ l₂) }) ideal' := by
  obtain ⟨m₁, cqe', m₂, hideal, hrest, hturn⟩ := h.posted hops turn
  have hmem : .posted cqe' ∈ ideal.ops fd := by rw [hideal]; simp
  have hturns := (hs.tagged hmem).turns hturn
  exact ⟨_, works_handle hideal hturn hturns.no_accept,
    h.turn (hs.known (List.ne_nil_of_mem hmem)) hturns hrest harmless⟩

end Posting

section Clients
variable {link : Link}

/-- A connection that is still served is the same on both sides. -/
theorem Mirrors.served (h : Mirrors net ideal) (on : net.links fd = some link)
    (busy : ¬ link.Idle) : ¬ net.RanAgain fd ∧
      (ideal.links fd = some link ∨ link.toClient = [] ∧ link.client = connectedClient) := by
  have hagain : ¬ net.RanAgain fd := fun ha => busy (h.idle fd link ha on)
  have hlink := h.links fd
  rw [on] at hlink
  generalize ideal.links fd = l at hlink
  refine ⟨hagain, ?_⟩
  cases hlink with
  | stray => exact .inr ⟨rfl, rfl⟩
  | @shadowed _ il hshadow =>
    obtain ⟨hto, hback⟩ := hshadow.same hagain
    refine .inl (congrArg some ?_)
    cases link
    cases il
    simp only [Link.mk.injEq]
    exact ⟨hshadow.isOpen.symm, hto.symm, hback.symm, hshadow.client.symm⟩

theorem not_idle (isOpen : link.isOpen = true) (phase : link.client.phase = .receiving) :
    ¬ link.Idle := by
  simp [Link.Idle, isOpen, phase]

/-- The same client step on both sides. -/
theorem Mirrors.client (h : Mirrors net ideal) {link' : Link} (hagain : ¬ net.RanAgain fd) :
    Mirrors { net with links := Function.update net.links fd (some link') }
      { ideal with links := Function.update ideal.links fd (some link') } :=
  h.link_at fd (fun _ => Option.some_ne_none _) (.shadowed (.refl link')) fun ha =>
    absurd ha hagain

theorem Mirrors.assembled (h : Mirrors net ideal) {cl : Client} (on : net.links fd = some link)
    (phase : link.client.phase = .assembling) (left : cl.phase ≠ .receiving) :
    ∃ il, ideal.links fd = some il ∧ il.client = link.client ∧
      Mirrors { net with links := Function.update net.links fd (some { link with client := cl }) }
        { ideal with links := Function.update ideal.links fd (some { il with client := cl }) } := by
  have hlink := h.links fd
  rw [on] at hlink
  cases hil : ideal.links fd with
  | none =>
    rw [hil] at hlink
    cases hlink with
    | stray => cases phase
  | some il =>
    rw [hil] at hlink
    cases hlink with
    | shadowed hshadow =>
      refine ⟨il, rfl, hshadow.client.symm, ?_⟩
      refine h.link_at fd (fun _ => Option.some_ne_none _) (.shadowed ?_) fun _ link' on' => ?_
      · exact ⟨hshadow.isOpen, rfl, hshadow.same, hshadow.kept, hshadow.extra, hshadow.back⟩
      · rw [← Option.some.inj on']
        exact .inr left

end Clients

/-- One step over the ring is one step of the protocol. -/
theorem work_follows (h : Mirrors net ideal) (hs : Sound pf ideal) (hstep : RingWork pf fd net net')
    (harmless : HarmlessFinish net net') : ∃ ideal', Works pf ideal ideal' ∧ Mirrors net' ideal' := by
  cases hstep with
  | post outstanding completes => exact post_follows h hs outstanding completes
  | strayAccepted outstanding sign unused =>
    exact stray_follows (h.stray sign unused) hs _ outstanding
  | strayRefused outstanding sign => exact stray_follows h hs _ outstanding
  | handle stamp waiting turn => exact handle_follows h hs waiting turn harmless
  | @deliver link fs rest on isOpen next hne fits waits =>
    obtain ⟨hagain, hideal | ⟨hnone, -⟩⟩ := h.served on (not_idle isOpen waits.phase)
    · have hquiet : Step pf ideal.quiet _ := .deliver hideal isOpen next hne fits waits
      exact ⟨_, ⟨.deliver hideal isOpen next hne fits waits, hquiet⟩, h.client hagain⟩
    · rw [hnone] at next
      exact absurd (List.append_eq_nil_iff.mp next.symm).1 hne
  | @clientTurn link cl sent stamp on isOpen phase turn =>
    obtain ⟨hagain, hideal | ⟨-, hclient⟩⟩ := h.served on (not_idle isOpen phase)
    · exact ⟨_, works_answer hideal isOpen phase turn, h.client hagain⟩
    · have hwaits : Waiting connectedClient := ⟨rfl, rfl⟩
      rw [hclient, hwaits.no_turn] at turn
      cases turn
  | @assemble link cl m fuel on phase done =>
    have hleft : cl.phase ≠ .receiving := by rw [(assembleBlock_spec done).1]; decide
    obtain ⟨il, hideal, hclient, hmirrors⟩ := h.assembled on phase hleft
    rw [← hclient] at phase done
    exact ⟨_, works_assemble hideal phase done, hmirrors⟩

end Working

section Runs

theorem mirrors_first (cbuf : CircBuf) : Mirrors (firstNet cbuf) (firstNet cbuf) where
  server := rfl
  accepts := rfl
  roots := rfl
  ops := fun _ => .nil
  links := fun _ => .unused
  known := by
    intro sqe s hmem hs
    rw [List.mem_singleton.mp hmem] at hs
    cases hs
  idle := fun _ _ _ on => by cases on

theorem initial_mirrors {start : Net} (h : initial pf = some start) : Mirrors start start := by
  obtain ⟨cbuf, hinit, -⟩ := initial_spec pf
  rw [hinit, Option.some.injEq] at h
  rw [← h]
  exact mirrors_first cbuf

theorem ring_follows (h : Mirrors net ideal) (hs : Sound pf ideal) (hstep : RingStep pf net net')
    (harmless : HarmlessFinish net net') : ∃ ideal', Step pf ideal ideal' ∧ Mirrors net' ideal' := by
  rcases hstep with haccept | ⟨fd, hwork⟩
  · exact accept_follows h haccept
  · obtain ⟨ideal', hworks, hmirrors⟩ := work_follows h hs hwork harmless
    exact ⟨ideal', hworks.1, hmirrors⟩

/-- A run over the ring whose finishes are all harmless mirrors a run of the protocol. -/
theorem RingReaches.exists_ideal (h : RingReaches pf HarmlessFinish net) :
    ∃ ideal, Reaches pf ideal ∧ Mirrors net ideal := by
  obtain ⟨start, hstart, hrun⟩ := h
  induction hrun with
  | refl => exact ⟨start, ⟨start, hstart, .refl⟩, initial_mirrors hstart⟩
  | tail _ hstep ih =>
    obtain ⟨ideal, hreach, hmirrors⟩ := ih
    obtain ⟨ideal', hstep', hmirrors'⟩ := ring_follows hmirrors (reaches_sound hreach) hstep.1 hstep.2
    obtain ⟨start, hstart, hrun⟩ := hreach
    exact ⟨ideal', ⟨start, hstart, hrun.tail hstep'⟩, hmirrors'⟩

end Runs

end CBlockchain.Transfer
