import CBlockchain.TransferSteps

/-! The server's turns keep the joint invariant: on a completion of a client's socket it
receives the reply, answers it or closes a connection. The closing turn acts on the
connection accepted last, which need not be the one that finished. -/
namespace CBlockchain.Transfer
open ConnectionHandlers DataHandlers EventLoop ReceiveLoop RequestData Serdes
variable {pf : Platform} {net : Net} {fd : Fd}

/-- A turn of the server that touches one socket number. -/
theorem Sound.turn (hs : Sound pf net) (fd : Fd) (server : Server) (ops : List Op) (l : Option Link)
    (roots : List (Fd × Digest)) (entries : List Sqe) (buffers : Fd → List UInt8)
    (hready : Ready server.cbuf)
    (hgrow : Grows net.server.cbuf server.cbuf)
    (hcount : ∀ fd' ≠ fd, server.befferSendedN fd' = net.server.befferSendedN fd')
    (hnew : ∀ e ∈ roots, IsBlockRoot pf server.cbuf e.2)
    (hkeep : net.links fd ≠ none → l ≠ none)
    (hat : FdOk pf.codec server.cbuf fd (∃ hash, (fd, hash) ∈ net.roots ++ roots) (net.Other fd)
      (server.befferSendedN fd) ops l) :
    Sound pf { net with
      server := server
      ops := Function.update net.ops fd ops
      links := Function.update net.links fd l
      roots := net.roots ++ roots
      entries := entries
      buffers := buffers } := by
  refine hs.at_fd fd hready hgrow (fun _ h => List.mem_append_left _ h) (fun e he => ?_)
    (fun _ h => Function.update_of_ne h _ _) (fun h => ?_) (fun _ h => Function.update_of_ne h _ _)
    hcount ?_
  · rcases List.mem_append.mp he with he | he
    · exact Or.inl he
    · exact Or.inr (hnew e he)
  · simp only [Function.update_self]
    exact hkeep h
  · simp only [Function.update_self]
    exact hat

theorem Sound.quiet (hs : Sound pf net) (fd : Fd) (server : Server) (ops : List Op)
    (entries : List Sqe) (buffers : Fd → List UInt8) (hready : Ready server.cbuf)
    (hgrow : Grows net.server.cbuf server.cbuf)
    (hcount : ∀ fd' ≠ fd, server.befferSendedN fd' = net.server.befferSendedN fd')
    (hat : FdOk pf.codec server.cbuf fd (net.Finished fd) (net.Other fd) (server.befferSendedN fd) ops
      (net.links fd)) :
    Sound pf { net with
      server := server
      ops := Function.update net.ops fd ops
      entries := entries
      buffers := buffers } := by
  have h := hs.turn fd server ops (net.links fd) [] entries buffers hready hgrow hcount (by simp) id
    (by rw [List.append_nil]; exact hat)
  rwa [Function.update_eq_self, List.append_nil] at h

theorem Sound.send (hs : Sound pf net) {server : Server} {ops : List Op} {frame : List UInt8}
    {d : BitVec 64} {buffers : Fd → List UInt8} (hready : Ready server.cbuf) (hgrow : Grows net.server.cbuf server.cbuf)
    (hcount : ∀ fd' ≠ fd, server.befferSendedN fd' = net.server.befferSendedN fd')
    (hat : FdOk pf.codec server.cbuf fd (net.Finished fd) (net.Other fd) (server.befferSendedN fd)
      (ops ++ [.pending (.send fd frame d)]) ((net.links fd).map (Link.push frame))) :
    Sound pf (perform
      { net with server := server, ops := Function.update net.ops fd ops, buffers := buffers }
      (.submit (.send fd frame d))) := by
  refine hs.at_fd fd hready hgrow (fun _ h => h) (fun _ h => Or.inl h)
    (fun _ h => Function.update_of_ne h _ _) (fun h => ?_) (fun fd' h => ?_) hcount ?_
  · simpa [perform, Net.addOp, Net.enter, Net.fill, Net.onLink] using h
  · simp [perform, Net.addOp, Net.enter, Net.fill, Net.onLink, Function.update_of_ne h]
  · simpa [perform, Net.addOp, Net.enter, Net.fill, Net.onLink, Net.Finished] using hat

theorem step_status (hfd : fd.msb = false) (stamp : Stamp) {res : BitVec 32} (hres : 0 < res.toInt)
    (sentAt : Stamp) (status : Status) (hn : status.Named) (s : Server) :
    eventLoopStep pf stamp
        ⟨makeRequestData fd .testResponse, res, sendOnlyStatusCode pf.codec sentAt status⟩ s =
      handleStatus pf stamp fd s status := by
  rw [step_received hfd, if_pos hres, readOnlyStatusResponse_send _ _ hn, Option.bind_some]

/-- An acknowledgement is answered by asking whether the client needs a message. -/
theorem step_acknOk (hfd : fd.msb = false) (stamp : Stamp) {res : BitVec 32} (hres : 0 < res.toInt)
    (sentAt : Stamp) (s : Server) :
    eventLoopStep pf stamp
        ⟨makeRequestData fd .testResponse, res, sendOnlyStatusCode pf.codec sentAt .acknOk⟩ s =
      some (s, [.submit (.send fd (sendOnlyStatusCode pf.codec stamp .askNeedMsg)
        (makeRequestData fd .readResponse))]) := by
  rw [step_status hfd stamp hres sentAt .acknOk (by simp [Status.Named]), handleStatus,
    requestAskNeedMsg, requestSendStatus]

theorem finish_sound (hs : Sound pf net) {stamp : Stamp} {ops : List Op} {server : Server}
    {effects : List Effect} (hall : ∀ i < 512, ∃ m, slotMsg net.server.cbuf i = some m)
    (turn : handleStatus pf stamp fd net.server .enough = some (server, effects))
    (hat : ∀ fin : Prop, fin → ∀ b, FdOk pf.codec net.server.cbuf fd fin (net.Other fd) b
      (ops ++ [.pending (.unprepared (makeRequestData fd .flagCloseConnection))]) (net.links fd)) :
    Sound pf (effects.foldl perform
      { net with server := server, ops := Function.update net.ops fd ops }) := by
  obtain ⟨msg, hmsg⟩ := exists_messages hall
  obtain ⟨hrun, hready⟩ := finishSending_spec pf hs.ready fd hmsg
  rw [handleStatus, hrun, Option.some.injEq, Prod.mk.injEq] at turn
  obtain ⟨rfl, rfl⟩ := turn
  have hfin : ∃ hash, (fd, hash) ∈ net.roots ++
      [(fd, PerfectTree.root (Hashing.calcHash pf.H) (Hashing.merge2hashses pf.H) 9 msg)] :=
    ⟨_, List.mem_append_right _ (List.mem_singleton_self _)⟩
  have hgrow : Grows net.server.cbuf { net.server.cbuf with fillSize := 0 } := fun _ _ h => h
  have hok := (hat _ hfin (Function.update net.server.befferSendedN fd 0 fd)).grow hgrow id id
  have h := hs.turn fd
    ⟨_, Function.update net.server.befferSendedN fd 0, net.server.currentClientFd⟩ _ _ _
    (net.entries ++ [.unprepared (makeRequestData fd .flagCloseConnection)]) net.buffers hready hgrow
    (fun _ h => Function.update_of_ne h _ _)
    (fun e he => ⟨msg, hmsg, by rw [List.mem_singleton.mp he]⟩) id hok
  rw [Function.update_eq_self] at h
  simpa [perform, Net.addOp, Net.enter] using h

theorem reply_sound (hs : Sound pf net) {link : Link} (on : net.links fd = some link)
    (hfd : fd.msb = false) {g : List UInt8} {res : BitVec 32} {stamp : Stamp} {server : Server}
    {effects : List Effect} (isOpen : link.isOpen = true) (hres : 0 < res.toInt)
    (reply : Reply pf.codec net.server.cbuf link.client (net.server.befferSendedN fd) g)
    (out : link.toClient = []) (back : link.toServer = [])
    (turn : eventLoopStep pf stamp ⟨makeRequestData fd .testResponse, res, g⟩ net.server =
      some (server, effects)) :
    Sound pf (effects.foldl perform
      { net with server := server, ops := Function.update net.ops fd [] }) := by
  have hpush : ∀ frame, (net.links fd).map (Link.push frame) =
      some { link with toClient := [frame] } := by
    intro frame
    rw [on, Option.map_some, Link.push, if_pos isOpen, out]
    rfl
  generalize hb : net.server.befferSendedN fd = b at reply
  cases reply with
  | needMore sentAt waits part =>
    rw [step_status hfd stamp hres sentAt .needMore (by simp [Status.Named]), handleStatus] at turn
    obtain ⟨cbuf, m, hrun, hslot, hready, hgrow, -⟩ :=
      handleResponseNeedMoreMsg_serves pf hs.ready stamp (hb.trans_lt part.lt)
    rw [hrun, Option.some.injEq, Prod.mk.injEq] at turn
    obtain ⟨rfl, rfl⟩ := turn
    rw [hb] at hslot
    apply hs.send hready hgrow (fun _ h => Function.update_of_ne h _ _)
    rw [hpush]
    simp only [Function.update_self, hb]
    exact .exchange hfd (.toClient isOpen (.sending (serializeDataV2_ne_nil _ _ _))
      (.message stamp hslot) waits (part.grow hgrow) rfl back)
  | acknOk sentAt waits part =>
    rw [step_acknOk hfd stamp hres, Option.some.injEq, Prod.mk.injEq] at turn
    obtain ⟨rfl, rfl⟩ := turn
    apply hs.send hs.ready (Grows.refl _) (fun _ _ => rfl)
    rw [hpush, hb]
    exact .exchange hfd (.toClient isOpen (.sending (sendOnlyStatusCode_ne_nil _ _ _))
      (.ask stamp) waits part rfl back)
  | enough sentAt complete =>
    rw [step_status hfd stamp hres sentAt .enough (by simp [Status.Named])] at turn
    apply finish_sound hs complete.taken.slots turn
    intro fin hfin b
    rw [on]
    exact .exchange hfd (.finished .pending complete hfin out back)

theorem Awaiting.handle {ops l₁ l₂ : List Op} {cqe : Cqe} {stamp : Stamp} {s server : Server}
    {effects : List Effect} (h : Awaiting fd ops) (hfd : fd.msb = false)
    (hops : ops = l₁ ++ .posted cqe :: l₂)
    (turn : eventLoopStep pf stamp cqe s = some (server, effects)) :
    server = s ∧ effects = [.submit (.recv fd (makeRequestData fd .testResponse))] ∧
      l₁ ++ l₂ = [] := by
  cases h with
  | sending hne => cases (singleton_split hops).2.1
  | receiving => cases (singleton_split hops).2.1
  | sent hres =>
    obtain ⟨rfl, heq, rfl⟩ := singleton_split hops
    cases heq
    rw [step_sent hfd, if_pos hres, readStatusResponse, Option.some.injEq, Prod.mk.injEq] at turn
    exact ⟨turn.1.symm, turn.2.symm, rfl⟩

theorem receive_sound (hs : Sound pf net) {l₁ l₂ : List Op} {cqe : Cqe} {stamp : Stamp}
    {server : Server} {effects : List Effect} (hfd : fd.msb = false)
    (waits : Awaiting fd (l₁ ++ .posted cqe :: l₂))
    (turn : eventLoopStep pf stamp cqe net.server = some (server, effects))
    (hat : ∀ ops, Awaiting fd ops → FdOk pf.codec net.server.cbuf fd (net.Finished fd)
      (net.Other fd) (net.server.befferSendedN fd) ops (net.links fd)) :
    Sound pf (effects.foldl perform
      { net with server := server, ops := Function.update net.ops fd (l₁ ++ l₂) }) := by
  obtain ⟨rfl, rfl, hnil⟩ := waits.handle hfd rfl turn
  have h := hs.quiet fd _ _ (net.entries ++ [.recv fd (makeRequestData fd .testResponse)]) net.buffers
    hs.ready (Grows.refl _) (fun _ _ => rfl) (hat _ .receiving)
  simpa [perform, Net.addOp, Net.enter, hnil] using h

section Late
variable {link : Link} {l₁ l₂ : List Op} {stamp : Stamp} {server : Server} {effects : List Effect}

theorem Abandoned.replace {codec : Codec} {cbuf : CircBuf} {op : Op}
    (late : Abandoned codec cbuf fd (l₁ ++ op :: l₂) link) (ops : List Op)
    (hops : ∀ op ∈ ops, LateOp codec fd link.client.stored op) :
    Abandoned codec cbuf fd (l₁ ++ l₂ ++ ops) link where
  closed := late.closed
  taken := late.taken
  frames := late.frames
  ops := List.forall_mem_append.mpr ⟨forall_mem_rest late.ops, hops⟩

theorem Abandoned.push {codec : Codec} {cbuf : CircBuf} {ops : List Op}
    (late : Abandoned codec cbuf fd ops link) (frame : List UInt8) :
    (some link).map (Link.push frame) = some link := by
  rw [Option.map_some, Link.push, if_neg (by rw [late.closed]; decide)]

theorem late_reply_sound (hs : Sound pf net) (on : net.links fd = some link) (hfd : fd.msb = false)
    {g : List UInt8} {res : BitVec 32} (others : net.Other fd)
    (late : Abandoned pf.codec net.server.cbuf fd
      (l₁ ++ .posted ⟨makeRequestData fd .testResponse, res, g⟩ :: l₂) link)
    (frame : LateFrame pf.codec link.client.stored g) (hres : 0 < res.toInt)
    (turn : eventLoopStep pf stamp ⟨makeRequestData fd .testResponse, res, g⟩ net.server =
      some (server, effects)) :
    Sound pf (effects.foldl perform
      { net with server := server, ops := Function.update net.ops fd (l₁ ++ l₂) }) := by
  have hsend : ∀ (data : List UInt8), ∀ op ∈ [Op.pending (.send fd data
      (makeRequestData fd .readResponse))], LateOp pf.codec fd link.client.stored op := by
    intro data op hmem
    rw [List.mem_singleton.mp hmem]
    exact .sending data
  cases frame with
  | needMore sentAt =>
    rw [step_status hfd stamp hres sentAt .needMore (by simp [Status.Named]), handleStatus] at turn
    by_cases hlt : net.server.befferSendedN fd < 512
    · obtain ⟨cbuf, m, hrun, hslot, hready, hgrow, -⟩ :=
        handleResponseNeedMoreMsg_serves pf hs.ready stamp hlt
      rw [hrun, Option.some.injEq, Prod.mk.injEq] at turn
      obtain ⟨rfl, rfl⟩ := turn
      apply hs.send hready hgrow (fun _ h => Function.update_of_ne h _ _)
      rw [on, late.push]
      exact .abandoned hfd ((late.replace _ (hsend _)).grow hgrow) others
    · rw [handleResponseNeedMoreMsg, if_pos (by omega), requestSendStatus, Option.some.injEq,
        Prod.mk.injEq] at turn
      obtain ⟨rfl, rfl⟩ := turn
      apply hs.send hs.ready (Grows.refl _) (fun _ _ => rfl)
      rw [on, late.push]
      exact .abandoned hfd (late.replace _ (hsend _)) others
  | acknOk sentAt =>
    rw [step_acknOk hfd stamp hres, Option.some.injEq, Prod.mk.injEq] at turn
    obtain ⟨rfl, rfl⟩ := turn
    apply hs.send hs.ready (Grows.refl _) (fun _ _ => rfl)
    rw [on, late.push]
    exact .abandoned hfd (late.replace _ (hsend _)) others
  | enough sentAt all =>
    rw [step_status hfd stamp hres sentAt .enough (by simp [Status.Named])] at turn
    apply finish_sound hs (all ▸ late.taken).slots turn
    intro fin hfin b
    rw [on]
    refine .abandoned hfd (late.replace _ ?_) others
    intro op hmem
    rw [List.mem_singleton.mp hmem]
    exact .closing _ .pending

end Late

section Shutting
variable {codec : Codec} {cbuf : CircBuf} {ops : List Op} {cl : Client} {b : ℕ} {g : List UInt8}

theorem Awaiting.late (h : Awaiting fd ops) (n : ℕ) : ∀ op ∈ ops, LateOp codec fd n op := by
  cases h with
  | sending hne => exact fun op hmem => List.mem_singleton.mp hmem ▸ .sending _
  | sent hres => exact fun op hmem => List.mem_singleton.mp hmem ▸ .sent _
  | receiving => exact fun op hmem => List.mem_singleton.mp hmem ▸ .receiving

theorem Reply.late (h : Reply codec cbuf cl b g) : LateFrame codec cl.stored g := by
  cases h with
  | needMore stamp => exact .needMore stamp
  | acknOk stamp => exact .acknOk stamp
  | enough stamp complete => exact .enough stamp complete.taken.stored

theorem Taken.self {k : ℕ} (h : Taken cbuf k cl) : Taken cbuf cl.stored cl := h.stored ▸ h

theorem Reply.taken (h : Reply codec cbuf cl b g) : Taken cbuf cl.stored cl := by
  cases h with
  | needMore _ _ part => exact part.taken.self
  | acknOk _ _ part => exact part.taken.self
  | enough _ complete => exact complete.taken.self

theorem Exchange.shut {fin : Prop} {link : Link} (h : Exchange codec cbuf fd fin b ops link) :
    Exchange codec cbuf fd fin b ops link.shut ∨ Abandoned codec cbuf fd ops link.shut := by
  cases h with
  | toClient isOpen waits question idle part out back =>
    exact Or.inr ⟨rfl, part.taken.self, waits.late _, Or.inl back⟩
  | atClient isOpen waits question unread part out back =>
    exact Or.inr ⟨rfl, part.taken.self, waits.late _, Or.inl back⟩
  | toServer isOpen waits reply out back =>
    exact Or.inr ⟨rfl, reply.taken, waits.late _, Or.inr ⟨_, back, reply.late⟩⟩
  | atServer isOpen arrived hres reply out back =>
    refine Or.inr ⟨rfl, reply.taken, fun op hmem => ?_, Or.inl back⟩
    rw [arrived, List.mem_singleton] at hmem
    exact hmem ▸ .received _ reply.late
  | finished closing complete done out back =>
    exact Or.inl (.finished closing complete done out back)

theorem FdOk.shut {fin other : Prop} {l : Option Link} (h : FdOk codec cbuf fd fin other b ops l)
    (hother : other) : FdOk codec cbuf fd fin other b ops (l.map Link.shut) := by
  cases h with
  | unused sign idle counter => exact .unused sign idle counter
  | refused sign all => exact .refused sign all
  | exchange sign joint =>
    rcases joint.shut with joint | late
    · exact .exchange sign joint
    · exact .abandoned sign late hother
  | abandoned sign late others =>
    exact .abandoned sign ⟨rfl, late.taken, late.ops, late.frames⟩ others

theorem Sound.shut (hs : Sound pf net)
    (hat : FdOk pf.codec net.server.cbuf fd (net.Finished fd) (net.Other fd)
      (net.server.befferSendedN fd) (net.ops fd) ((net.links fd).map Link.shut)) :
    Sound pf (net.onLink fd Link.shut) := by
  have h := hs.off_server fd (by simp) hat
  rwa [Function.update_eq_self] at h

end Shutting

/-- The closing turn: the counter of the client that finished is reset and the
connection accepted last is closed. -/
theorem close_sound (hs : Sound pf net) {link : Link} (on : net.links fd = some link)
    (hfd : fd.msb = false) {l₁ l₂ : List Op} {res : BitVec 32} {stamp : Stamp} {server : Server}
    {effects : List Effect}
    (turn : eventLoopStep pf stamp ⟨makeRequestData fd .flagCloseConnection, res, []⟩ net.server =
      some (server, effects))
    (hat : ∀ link' ∈ [link, link.shut], FdOk pf.codec net.server.cbuf fd (net.Finished fd)
      (net.Other fd) 0 (l₁ ++ l₂) (some link')) :
    Sound pf (effects.foldl perform
      { net with server := server, ops := Function.update net.ops fd (l₁ ++ l₂) }) := by
  rw [step_close hfd, Option.some.injEq, Prod.mk.injEq] at turn
  obtain ⟨rfl, rfl⟩ := turn
  have hcount : ∀ fd' ≠ fd, Function.update net.server.befferSendedN fd 0 fd' =
      net.server.befferSendedN fd' := fun _ h => Function.update_of_ne h _ _
  set server := { net.server with befferSendedN := Function.update net.server.befferSendedN fd 0 }
  have hzero : server.befferSendedN fd = 0 := Function.update_self _ _ _
  have h : Sound pf { net with server := server, ops := Function.update net.ops fd (l₁ ++ l₂) } :=
    hs.quiet fd _ _ _ _ hs.ready (Grows.refl _) hcount (by rw [hzero, on]; exact hat link (by simp))
  by_cases hcur : net.server.currentClientFd = fd
  · apply h.shut
    simp only [hcur, on, hzero, Option.map_some, Function.update_self]
    exact hat link.shut (by simp)
  · exact h.shut ((h.fd _).shut ⟨fd, Ne.symm hcur, by simp [on]⟩)

section Completions
variable {l₁ l₂ : List Op} {cqe : Cqe} {stamp : Stamp} {server : Server} {effects : List Effect}

/-- A completion the server does nothing about. -/
theorem idle_sound (hs : Sound pf net)
    (turn : eventLoopStep pf stamp cqe net.server = some (server, effects))
    (hstep : eventLoopStep pf stamp cqe net.server = some (net.server, []))
    (hat : FdOk pf.codec net.server.cbuf fd (net.Finished fd) (net.Other fd)
      (net.server.befferSendedN fd) (l₁ ++ l₂) (net.links fd)) :
    Sound pf (effects.foldl perform
      { net with server := server, ops := Function.update net.ops fd (l₁ ++ l₂) }) := by
  rw [hstep, Option.some.injEq, Prod.mk.injEq] at turn
  obtain ⟨rfl, rfl⟩ := turn
  exact hs.quiet fd _ _ _ _ hs.ready (Grows.refl _) (fun _ _ => rfl) hat

theorem exchange_sound (hs : Sound pf net) {link : Link} (on : net.links fd = some link)
    (hfd : fd.msb = false)
    (joint : Exchange pf.codec net.server.cbuf fd (net.Finished fd) (net.server.befferSendedN fd)
      (l₁ ++ .posted cqe :: l₂) link)
    (turn : eventLoopStep pf stamp cqe net.server = some (server, effects)) :
    Sound pf (effects.foldl perform
      { net with server := server, ops := Function.update net.ops fd (l₁ ++ l₂) }) := by
  cases joint with
  | toClient isOpen waits question idle part out back =>
    exact receive_sound hs hfd waits turn fun ops h =>
      on ▸ .exchange hfd (.toClient isOpen h question idle part out back)
  | atClient isOpen waits question unread part out back =>
    exact receive_sound hs hfd waits turn fun ops h =>
      on ▸ .exchange hfd (.atClient isOpen h question unread part out back)
  | toServer isOpen waits reply out back =>
    exact receive_sound hs hfd waits turn fun ops h =>
      on ▸ .exchange hfd (.toServer isOpen h reply out back)
  | atServer isOpen arrived hres reply out back =>
    obtain ⟨rfl, heq, rfl⟩ := singleton_split arrived.symm
    cases heq
    exact reply_sound hs on hfd isOpen hres reply out back turn
  | finished closing complete done out back =>
    generalize hops : l₁ ++ .posted cqe :: l₂ = ops at closing
    cases closing with
    | pending => cases (singleton_split hops.symm).2.1
    | handled => simp at hops
    | posted res =>
      obtain ⟨rfl, heq, rfl⟩ := singleton_split hops.symm
      cases heq
      apply close_sound hs on hfd turn
      intro link' hmem
      rcases List.mem_pair.mp hmem with rfl | rfl
      · exact .exchange hfd (.finished .handled complete done out back)
      · exact .exchange hfd (.finished .handled complete done out back)

theorem abandoned_sound (hs : Sound pf net) {link : Link} (on : net.links fd = some link)
    (hfd : fd.msb = false)
    (late : Abandoned pf.codec net.server.cbuf fd (l₁ ++ .posted cqe :: l₂) link)
    (others : net.Other fd)
    (turn : eventLoopStep pf stamp cqe net.server = some (server, effects)) :
    Sound pf (effects.foldl perform
      { net with server := server, ops := Function.update net.ops fd (l₁ ++ l₂) }) := by
  have hrest := late.replace [] (by simp)
  rw [List.append_nil] at hrest
  have hidle : FdOk pf.codec net.server.cbuf fd (net.Finished fd) (net.Other fd)
      (net.server.befferSendedN fd) (l₁ ++ l₂) (net.links fd) :=
    on ▸ .abandoned hfd hrest others
  have hop := late.ops (.posted cqe) (by simp)
  cases hop with
  | sent res =>
    by_cases hres : res = 0
    · apply idle_sound hs turn _ hidle
      rw [step_sent hfd, if_neg (not_not.mpr hres)]
    · rw [step_sent hfd, if_pos hres, readStatusResponse, Option.some.injEq, Prod.mk.injEq] at turn
      obtain ⟨rfl, rfl⟩ := turn
      have hlate := late.replace [.pending (.recv fd (makeRequestData fd .testResponse))]
        fun op hmem => List.mem_singleton.mp hmem ▸ .receiving
      have h := hs.quiet fd _ _ (net.entries ++ [.recv fd (makeRequestData fd .testResponse)])
        net.buffers hs.ready (Grows.refl _) (fun _ _ => rfl)
        (by rw [on]; exact .abandoned hfd hlate others)
      simpa [perform, Net.addOp, Net.enter] using h
  | received res frame =>
    by_cases hres : 0 < res.toInt
    · exact late_reply_sound hs on hfd others late frame hres turn
    · apply idle_sound hs turn _ hidle
      rw [step_received hfd, if_neg hres]
  | @ended res hres =>
    apply idle_sound hs turn _ hidle
    rw [step_received hfd, if_neg (by omega)]
  | closing op hclose =>
    cases hclose with
    | posted res =>
      apply close_sound hs on hfd turn
      intro link' hmem
      rcases List.mem_pair.mp hmem with rfl | rfl
      · exact .abandoned hfd hrest others
      · exact .abandoned hfd ⟨rfl, hrest.taken, hrest.ops, hrest.frames⟩ others

theorem handle_sound (hs : Sound pf net) (hops : net.ops fd = l₁ ++ .posted cqe :: l₂)
    (turn : eventLoopStep pf stamp cqe net.server = some (server, effects)) :
    Sound pf (effects.foldl perform
      { net with server := server, ops := Function.update net.ops fd (l₁ ++ l₂) }) := by
  have hok := hs.fd fd
  rw [Net.Ok, hops] at hok
  generalize hl : net.links fd = l at hok
  cases hok with
  | unused sign idle => simp at idle
  | refused sign all =>
    have hop := all (.posted cqe) (by simp)
    cases hop
    apply idle_sound hs turn (step_negative sign _ _ _ _ _)
    exact hl ▸ .refused sign (forall_mem_rest all)
  | exchange sign joint => exact exchange_sound hs hl sign joint turn
  | abandoned sign late others => exact abandoned_sound hs hl sign late others turn

end Completions

theorem connectedClient_partway (cbuf : CircBuf) : Partway cbuf 0 connectedClient where
  lt := by norm_num
  count := rfl
  taken := {
    stored := rfl
    length := List.length_replicate
    room := fun slot hmem => by rw [List.eq_of_mem_replicate hmem]; exact List.length_replicate
    held := fun j hj => absurd hj (Nat.not_lt_zero j) }

theorem accepted_sound (hs : Sound pf net) {stamp : Stamp} {server : Server} {effects : List Effect}
    {n : ℕ} (outstanding : net.accepts = n + 1) (sign : fd.msb = false) (unused : net.links fd = none)
    (turn : eventLoopStep pf stamp ⟨makeRequestData 0 .flagAccept, fd, []⟩ net.server =
      some (server, effects)) :
    Sound pf (effects.foldl perform { net with
      server := server, accepts := n,
      links := Function.update net.links fd (some ⟨true, [], [], connectedClient⟩) }) := by
  rw [step_accepted, Option.some.injEq, Prod.mk.injEq] at turn
  obtain ⟨rfl, rfl⟩ := turn
  set ask := sendOnlyStatusCode pf.codec stamp .askNeedMsg
  have hok := hs.fd fd
  rw [Net.Ok, unused] at hok
  cases hok with
  | refused sign' => simp [sign] at sign'
  | unused _ idle counter =>
    have h := hs.turn fd { net.server with currentClientFd := fd }
      [.pending (.send fd ask (makeRequestData fd .readResponse))]
      (some ⟨true, [ask], [], connectedClient⟩) []
      (net.entries ++ [.accept (makeRequestData 0 .flagAccept)] ++
        [.send fd ask (makeRequestData fd .readResponse)]) (net.fill fd ask).buffers
      hs.ready (Grows.refl _) (fun _ _ => rfl) (by simp) (by simp) (.exchange sign ?_)
    · simpa [perform, Net.addOp, Net.enter, Net.fill, Net.onLink, addAcceptRequest, idle, outstanding, Link.push]
        using h
    · rw [counter]
      exact .toClient rfl (.sending (sendOnlyStatusCode_ne_nil _ _ _)) (.ask stamp) ⟨rfl, rfl⟩
        (connectedClient_partway _) rfl rfl

/-- After a failed accept the server sends to the error code. -/
theorem refused_sound (hs : Sound pf net) {stamp : Stamp} {server : Server} {effects : List Effect}
    {n : ℕ} (outstanding : net.accepts = n + 1) (sign : fd.msb = true)
    (turn : eventLoopStep pf stamp ⟨makeRequestData 0 .flagAccept, fd, []⟩ net.server =
      some (server, effects)) :
    Sound pf (effects.foldl perform { net with server := server, accepts := n }) := by
  rw [step_accepted, Option.some.injEq, Prod.mk.injEq] at turn
  obtain ⟨rfl, rfl⟩ := turn
  set ask := sendOnlyStatusCode pf.codec stamp .askNeedMsg
  have hok := hs.fd fd
  rw [Net.Ok] at hok
  generalize hl : net.links fd = l at hok
  cases hok with
  | unused sign' => simp [sign] at sign'
  | exchange sign' => simp [sign] at sign'
  | abandoned sign' => simp [sign] at sign'
  | refused _ all =>
    have hlinks : Function.update net.links fd none = net.links := by
      rw [← hl, Function.update_eq_self]
    have h := hs.quiet fd { net.server with currentClientFd := fd }
      (net.ops fd ++ [.pending (.send fd ask (makeRequestData fd .readResponse))])
      (net.entries ++ [.accept (makeRequestData 0 .flagAccept)] ++
        [.send fd ask (makeRequestData fd .readResponse)]) (net.fill fd ask).buffers
      hs.ready (Grows.refl _) (fun _ _ => rfl) ?_
    · simpa [perform, Net.addOp, Net.enter, Net.fill, Net.onLink, addAcceptRequest, outstanding, hl, hlinks] using h
    · rw [hl]
      apply FdOk.refused sign
      intro op hmem
      rcases List.mem_append.mp hmem with hmem | hmem
      · exact all op hmem
      · rw [List.mem_singleton.mp hmem]
        exact .sending _

theorem step_sound {net' : Net} (hs : Sound pf net) (h : Step pf net net') : Sound pf net' := by
  cases h with
  | accepted stamp outstanding sign unused turn =>
    exact accepted_sound hs outstanding sign unused turn
  | refused stamp outstanding sign turn => exact refused_sound hs outstanding sign turn
  | post outstanding completes =>
    have h := post_sound hs outstanding completes
    exact ⟨h.ready, h.fd, h.roots⟩
  | handle stamp waiting turn => exact handle_sound hs waiting turn
  | deliver on isOpen next hne fits => exact deliver_sound hs on isOpen next hne fits
  | clientTurn stamp on isOpen phase turn => exact answer_sound hs stamp on isOpen phase turn
  | assemble m fuel on phase done => exact assemble_sound hs on phase done

/-- The net with the first accept submitted. -/
def firstNet (cbuf : CircBuf) : Net where
  server := ⟨cbuf, fun _ => 0, -1⟩
  accepts := 1
  ops := fun _ => []
  links := fun _ => none
  roots := []
  entries := [.accept (makeRequestData 0 .flagAccept)]
  buffers := fun _ => zeroBuffer

theorem initial_spec (pf : Platform) :
    ∃ cbuf, initial pf = some (firstNet cbuf) ∧ Ready cbuf := by
  obtain ⟨cbuf, hstart, hready, -⟩ := eventLoopStart_spec pf
  refine ⟨cbuf, ?_, hready⟩
  rw [initial, hstart]
  rfl

theorem initial_sound {start : Net} (h : initial pf = some start) : Sound pf start := by
  obtain ⟨cbuf, hstart, hready⟩ := initial_spec pf
  rw [hstart, Option.some.injEq] at h
  subst h
  refine ⟨hready, fun fd => ?_, fun e he => absurd he List.not_mem_nil⟩
  cases hfd : fd.msb with
  | false => exact .unused hfd rfl rfl
  | true => exact .refused hfd fun op hmem => absurd hmem List.not_mem_nil

theorem steps_sound {net' : Net} (hs : Sound pf net)
    (h : Relation.ReflTransGen (Step pf) net net') : Sound pf net' := by
  induction h with
  | refl => exact hs
  | tail _ hstep ih => exact step_sound ih hstep

/-- Every reachable net is in one of the joint states on every socket number. -/
theorem reaches_sound (h : Reaches pf net) : Sound pf net := by
  obtain ⟨start, hstart, hsteps⟩ := h
  exact steps_sound (initial_sound hstart) hsteps

end CBlockchain.Transfer
