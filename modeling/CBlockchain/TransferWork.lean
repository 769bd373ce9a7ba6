import CBlockchain.TransferCosts

/-! Every step of the transfer but the taking of an accept makes the work that is left
smaller: one lemma for each kind of step, and for a turn of the server one for each state
its connection can be in. -/
namespace CBlockchain.Transfer
open ConnectionHandlers DataHandlers EventLoop ReceiveLoop RequestData Serdes
variable {pf : Platform} {net net' : Net} {fd : Fd}

section Steps
variable {l₁ l₂ : List Op} {link : Link}

theorem post_work (hs : Sound pf net) {sqe : Sqe} {cqe : Cqe} {l : Option Link}
    (hops : net.ops fd = l₁ ++ .pending sqe :: l₂) (hc : Completes (net.links fd) sqe cqe l) :
    Net.work pf.codec { net with
      ops := Function.update net.ops fd (l₁ ++ .posted cqe :: l₂)
      links := Function.update net.links fd l } < net.work pf.codec := by
  apply work_lt fd
  · simp only [Net.cost, Function.update_self, hops]
    generalize hl : net.links fd = l₀ at hc
    have hreq : Requested fd sqe := hs.requested (by rw [hops]; simp)
    have hreplace : l = l₀ → (∀ isOpen b, Op.cost pf.codec isOpen b (.posted cqe) <
        Op.cost pf.codec isOpen b (.pending sqe)) →
        sideCost pf.codec (net.server.befferSendedN fd) (l₁ ++ .posted cqe :: l₂) l <
          sideCost pf.codec (net.server.befferSendedN fd) (l₁ ++ .pending sqe :: l₂) l₀ := by
      rintro rfl hlt
      have h : sideCost pf.codec (net.server.befferSendedN fd) (l₁ ++ [.posted cqe] ++ l₂) l <
          sideCost pf.codec (net.server.befferSendedN fd) (l₁ ++ .pending sqe :: l₂) l :=
        sideCost_replace _ _ (by simpa using hlt _ _)
      simpa using h
    have hsent : ∀ (isOpen : Bool) (b : ℕ) (res : BitVec 32), Op.cost pf.codec isOpen b
        (.posted ⟨makeRequestData fd .readResponse, res, []⟩) < 4 := by
      intro isOpen b res
      cases hfd : fd.msb with
      | false => rw [cost_sent hfd]; norm_num
      | true => rw [cost_negative hfd]; norm_num
    cases hreq with
    | send data =>
      cases hc with
      | sent => exact hreplace rfl fun isOpen b => hsent isOpen b _
      | unsent => exact hreplace rfl fun isOpen b => hsent isOpen b _
    | recv sign =>
      cases hc with
      | ended _ hres =>
        apply hreplace rfl
        intro isOpen b
        rw [cost_ended sign isOpen (by omega)]
        norm_num
      | @received link _ _ res gs rest next hne fits hres =>
        obtain ⟨g, rfl, rfl⟩ := hs.toServer_front hl next hne
        rw [List.flatten_singleton] at hres ⊢
        have hle : Op.cost pf.codec link.isOpen (net.server.befferSendedN fd)
            (.posted ⟨makeRequestData fd .testResponse, res, g⟩) ≤
            1 + arrivalCost link.isOpen (net.server.befferSendedN fd)
              (readOnlyStatusResponse pf.codec g) := by
          by_cases hpos : 0 < res.toInt
          · exact (cost_received sign _ hpos g).le
          · rw [cost_ended sign _ hpos]
            exact Nat.le_add_right 1 _
        simp only [sideCost, isOpenLink, Option.any_some, Option.map_some, Option.getD_some,
          Link.cost, next, List.map_append, List.map_cons, List.map_nil, List.sum_append,
          List.sum_cons, List.sum_nil, cost_receiving]
        omega
    | close =>
      cases hc
      apply hreplace rfl
      intro isOpen b
      cases hfd : fd.msb with
      | false => rw [cost_closed hfd]; norm_num
      | true => rw [cost_negative hfd]; norm_num
  · intro fd' hne
    simp only [Net.cost, Function.update_of_ne hne]
    exact le_rfl

/-- A step of the client on `fd`. -/
theorem client_lt {link' : Link} (on : net.links fd = some link) (same : link'.isOpen = link.isOpen)
    (hlt : link'.cost pf.codec (net.server.befferSendedN fd) <
      link.cost pf.codec (net.server.befferSendedN fd)) :
    Net.work pf.codec { net with links := Function.update net.links fd (some link') } <
      net.work pf.codec := by
  apply work_lt fd
  · simp only [Net.cost, Function.update_self, on, sideCost, isOpenLink, Option.any_some, same,
      Option.map_some, Option.getD_some]
    omega
  · intro fd' hne
    simp only [Net.cost, Function.update_of_ne hne]
    exact le_rfl

theorem unreadCost_waiting {cl : Client} (h : Waiting cl) (codec : Codec) (b : ℕ) :
    unreadCost codec b cl = 0 := by
  rw [unreadCost, h.nextStatus]
  exact ite_self _

theorem unreadCost_unread {cl : Client} {f : List UInt8} (h : Unread f cl) {codec : Codec} (b : ℕ)
    {status : Status} (hs : readOnlyStatusResponse codec f = some status) :
    unreadCost codec b cl = 1 + frameCost b (some status) := by
  rw [unreadCost, if_pos h.phase, h.nextStatus, hs]
  rfl

theorem Question.read {codec : Codec} {cbuf : CircBuf} {k b : ℕ} {f : List UInt8}
    (h : Question codec cbuf k b f) : ∃ status, readOnlyStatusResponse codec f = some status := by
  cases h with
  | ask stamp => exact ⟨_, readOnlyStatusResponse_send _ _ (by simp [Status.Named])⟩
  | message stamp slot => exact ⟨_, readOnlyStatusResponse_serialize _ _ _⟩

theorem deliver_work (hs : Sound pf net) {fs rest : List (List UInt8)}
    (on : net.links fd = some link) (isOpen : link.isOpen = true)
    (next : link.toClient = fs ++ rest) (hne : fs ≠ []) (fits : fs.flatten.length ≤ 4096) :
    Net.work pf.codec { net with links := Function.update net.links fd (some { link with
      toClient := rest, client := receive fs.flatten link.client }) } < net.work pf.codec := by
  apply client_lt on
  · rfl
  have hok := hs.fd fd
  rw [Net.Ok, on] at hok
  cases hok with
  | abandoned sign late => simp [late.closed] at isOpen
  | exchange sign joint =>
    cases joint with
    | @toClient k f _ waits question idle part out back =>
      obtain ⟨rfl, rfl⟩ := singleton_front (out.symm.trans next) hne
      obtain ⟨status, hstatus⟩ := question.read
      rw [List.flatten_singleton] at fits ⊢
      have hphase : (receive f link.client).phase = link.client.phase := rfl
      simp only [Link.cost, isOpen, if_true, out, List.map_cons, List.map_nil, List.sum_cons,
        List.sum_nil, unreadCost_waiting idle,
        unreadCost_unread (idle.receive fits) _ hstatus, hstatus, blockCost,
        hphase]
      omega
    | atClient _ _ _ _ _ out => simp [out, hne] at next
    | toServer _ _ _ out => simp [out, hne] at next
    | atServer _ _ _ _ out => simp [out, hne] at next
    | finished _ _ _ out => simp [out, hne] at next

theorem assemble_work {cl : Client} {m : BlockProcess.Machine} {fuel : ℕ}
    (on : net.links fd = some link) (phase : link.client.phase = .assembling)
    (done : assembleBlock pf.H m fuel link.client = some cl) :
    Net.work pf.codec { net with links := Function.update net.links fd (some { link with
      client := cl }) } < net.work pf.codec := by
  apply client_lt on
  · rfl
  have hfilled := (assembleBlock_spec done).1
  simp only [Link.cost, blockCost, unreadCost, phase, hfilled, reduceCtorEq, if_false, if_true]
  omega

/-- The client answers the frame it has received with one that costs as much. -/
theorem answer_lt {codec : Codec} {b : ℕ} {cl : Client} {f g : List UInt8} {status status' : Status}
    (isOpen : link.isOpen = true) (unread : Unread f link.client)
    (read : readOnlyStatusResponse codec f = some status)
    (sent : readOnlyStatusResponse codec g = some status')
    (after : framesAfter b (some status') = framesAfter b (some status))
    (quiet : unreadCost codec b cl = 0) (block : blockCost cl = 1) :
    Link.cost codec b { link with
      toServer := link.toServer ++ framesToServer [(.server, g)], client := cl } <
        link.cost codec b := by
  have hblock : blockCost link.client = 1 := by rw [blockCost, unread.phase]; rfl
  have hframes : framesToServer [(.server, g)] = [g] := rfl
  simp only [Link.cost, isOpen, if_true, hframes, List.map_append, List.map_cons, List.map_nil,
    List.sum_append, List.sum_cons, List.sum_nil, quiet, block, hblock, sent, arrivalCost, frameCost,
    after, unreadCost_unread unread b read]
  omega

theorem answer_work (hs : Sound pf net) {cl : Client} {sent : List (Target × List UInt8)}
    {stamp : Stamp} (on : net.links fd = some link) (isOpen : link.isOpen = true)
    (phase : link.client.phase = .receiving)
    (turn : clientTurn pf.codec stamp link.client = some (cl, sent)) :
    Net.work pf.codec { net with links := Function.update net.links fd (some { link with
      toServer := link.toServer ++ framesToServer sent, client := cl }) } < net.work pf.codec := by
  apply client_lt on
  · rfl
  have hok := hs.fd fd
  rw [Net.Ok, on] at hok
  generalize net.server.befferSendedN fd = b at hok ⊢
  cases hok with
  | abandoned sign late => simp [late.closed] at isOpen
  | exchange sign joint =>
    cases joint with
    | toClient _ _ _ idle => simp [idle.no_turn] at turn
    | toServer _ _ reply => simp [reply.no_turn phase] at turn
    | atServer _ _ _ reply => simp [reply.no_turn phase] at turn
    | finished _ complete => exact absurd phase complete.phase
    | @atClient k f _ waits question unread part out back =>
      have hsent : ∀ (stamp : Stamp) (status : Status), status.Named →
          readOnlyStatusResponse pf.codec (sendOnlyStatusCode pf.codec stamp status) = some status :=
        fun stamp status hn => readOnlyStatusResponse_send pf.codec stamp hn
      cases question with
      | ask sentAt =>
        have hread := hsent sentAt .askNeedMsg (by simp [Status.Named])
        obtain ⟨cl', hturn, hwait, -⟩ := clientTurn_ask unread stamp hread
        rw [hturn, Option.some.injEq, Prod.mk.injEq] at turn
        obtain ⟨rfl, rfl⟩ := turn
        apply answer_lt isOpen unread hread (hsent stamp .needMore (by simp [Status.Named])) rfl
        · exact unreadCost_waiting hwait _ _
        · rw [blockCost, hwait.phase]
          rfl
      | @message sentAt m slot =>
        have hm := hs.ready.length_le slot
        have hread := readOnlyStatusResponse_serialize pf.codec sentAt m
        by_cases hlast : k = 511
        · obtain ⟨cl', slot', hturn, hphase, -⟩ := clientTurn_last unread stamp rfl hm
            (part.count.trans hlast) part.taken.length part.taken.room
          rw [hturn, Option.some.injEq, Prod.mk.injEq] at turn
          obtain ⟨rfl, rfl⟩ := turn
          apply answer_lt isOpen unread hread (hsent stamp .enough (by simp [Status.Named])) rfl
          · rw [unreadCost, hphase]
            rfl
          · rw [blockCost, hphase]
            rfl
        · have hlt := part.lt
          obtain ⟨cl', slot', hturn, hwait, -⟩ := clientTurn_message unread stamp rfl hm
            (by rw [part.count]; omega) part.taken.length part.taken.room
          rw [hturn, Option.some.injEq, Prod.mk.injEq] at turn
          obtain ⟨rfl, rfl⟩ := turn
          apply answer_lt isOpen unread hread (hsent stamp .acknOk (by simp [Status.Named])) rfl
          · exact unreadCost_waiting hwait _ _
          · rw [blockCost, hwait.phase]
            rfl

end Steps

section Handling
variable {l₁ l₂ : List Op} {link : Link} {cqe : Cqe} {stamp : Stamp} {server : Server}
  {effects : List Effect}

/-- A completion the server does nothing about. -/
theorem idle_work (hops : net.ops fd = l₁ ++ .posted cqe :: l₂)
    (turn : eventLoopStep pf stamp cqe net.server = some (server, effects))
    (hstep : eventLoopStep pf stamp cqe net.server = some (net.server, []))
    (hpos : ∀ isOpen b, 0 < Op.cost pf.codec isOpen b (.posted cqe)) :
    (effects.foldl perform { net with
      server := server, ops := Function.update net.ops fd (l₁ ++ l₂) }).work pf.codec <
        net.work pf.codec := by
  rw [hstep, Option.some.injEq, Prod.mk.injEq] at turn
  obtain ⟨rfl, rfl⟩ := turn
  apply turn_lt (List.forall_mem_nil _) fun _ _ => rfl
  have h : sideCost pf.codec (net.server.befferSendedN fd) (l₁ ++ [] ++ l₂) (net.links fd) <
      sideCost pf.codec (net.server.befferSendedN fd) (l₁ ++ .posted cqe :: l₂) (net.links fd) :=
    sideCost_replace _ _ (hpos _ _)
  simpa [Net.cost, hops] using h

/-- Behind a completed send the server receives. -/
theorem sent_work (hops : net.ops fd = l₁ ++ .posted cqe :: l₂) (hfd : fd.msb = false)
    {res : BitVec 32} (hcqe : cqe = ⟨makeRequestData fd .readResponse, res, []⟩)
    (turn : eventLoopStep pf stamp cqe net.server = some (server, effects)) :
    (effects.foldl perform { net with
      server := server, ops := Function.update net.ops fd (l₁ ++ l₂) }).work pf.codec <
        net.work pf.codec := by
  subst hcqe
  by_cases hres : res = 0
  · apply idle_work hops turn
    · rw [step_sent hfd, if_neg (not_not.mpr hres)]
    · intro isOpen b
      rw [cost_sent hfd]
      norm_num
  · rw [step_sent hfd, if_pos hres, readStatusResponse, Option.some.injEq, Prod.mk.injEq] at turn
    obtain ⟨rfl, rfl⟩ := turn
    apply turn_lt (fun e he => List.mem_singleton.mp he ▸ .recv _) fun _ _ => rfl
    simp [perform, Net.addOp, Net.cost, hops, sideCost, cost_sent hfd]
    omega

/-- The answer to a reply of a client that waits: one frame fewer is to come. -/
theorem asked_lt {codec : Codec} {b b' : ℕ} {res : BitVec 32} {f g : List UInt8} {d : BitVec 64}
    {status status' : Status} (hfd : fd.msb = false) (isOpen : link.isOpen = true)
    (waits : Waiting link.client) (back : link.toServer = []) (out : link.toClient = [])
    (hres : 0 < res.toInt) (read : readOnlyStatusResponse codec g = some status)
    (sent : readOnlyStatusResponse codec f = some status')
    (after : framesAfter b' (some status') + 1 = framesAfter b (some status)) :
    sideCost codec b' [.pending (.send fd f d)] ((some link).map (Link.push f)) <
      sideCost codec b [.posted ⟨makeRequestData fd .testResponse, res, g⟩] (some link) := by
  have hpush : (some link).map (Link.push f) = some { link with toClient := [f] } := by
    rw [Option.map_some, Link.push, if_pos isOpen, out]
    rfl
  rw [hpush]
  simp only [sideCost, isOpenLink, Option.any_some, Option.map_some, Option.getD_some, isOpen,
    List.map_cons, List.map_nil, List.sum_cons, List.sum_nil, cost_sending,
    cost_received hfd _ hres, read, sent, arrivalCost, Link.cost, back, out, if_true, frameCost,
    unreadCost_waiting waits]
  omega

theorem reply_work (hs : Sound pf net) (on : net.links fd = some link) (hfd : fd.msb = false)
    {g : List UInt8} {res : BitVec 32} (isOpen : link.isOpen = true) (hres : 0 < res.toInt)
    (hops : net.ops fd = [.posted ⟨makeRequestData fd .testResponse, res, g⟩])
    (reply : Reply pf.codec net.server.cbuf link.client (net.server.befferSendedN fd) g)
    (out : link.toClient = []) (back : link.toServer = [])
    (turn : eventLoopStep pf stamp ⟨makeRequestData fd .testResponse, res, g⟩ net.server =
      some (server, effects)) :
    (effects.foldl perform { net with
      server := server, ops := Function.update net.ops fd [] }).work pf.codec <
        net.work pf.codec := by
  have hresponds := received_responds hfd turn
  apply turn_lt (responds_local hresponds) fun fd' hne => responds_counter hresponds hne
  rw [Net.cost, Net.cost, perform_server, hops, on]
  generalize hb : net.server.befferSendedN fd = b at reply
  have hread : ∀ (sentAt : Stamp) (status : Status), status.Named →
      readOnlyStatusResponse pf.codec (sendOnlyStatusCode pf.codec sentAt status) = some status :=
    fun sentAt status hn => readOnlyStatusResponse_send pf.codec sentAt hn
  cases reply with
  | needMore sentAt waits part =>
    have hneed := hread sentAt .needMore (by simp [Status.Named])
    have hlt := part.lt
    rw [step_status hfd stamp hres sentAt .needMore (by simp [Status.Named]), handleStatus] at turn
    obtain ⟨cbuf, m, hrun, -⟩ :=
      handleResponseNeedMoreMsg_serves pf hs.ready stamp (hb.trans_lt part.lt)
    rw [hrun, Option.some.injEq, Prod.mk.injEq] at turn
    obtain ⟨rfl, rfl⟩ := turn
    have h : sideCost pf.codec (b + 1) [.pending (.send fd (serializeDataV2 pf.codec stamp m)
        (makeRequestData fd .readResponse))] _ < sideCost pf.codec b _ (some link) :=
      asked_lt hfd isOpen waits back out hres hneed (readOnlyStatusResponse_serialize _ stamp m)
        (by simp only [framesAfter]; omega)
    simpa [perform, Net.addOp, Net.onLink, on, hb] using h
  | acknOk sentAt waits part =>
    have hackn := hread sentAt .acknOk (by simp [Status.Named])
    have hask := hread stamp .askNeedMsg (by simp [Status.Named])
    have hlt := part.lt
    rw [step_acknOk hfd stamp hres, Option.some.injEq, Prod.mk.injEq] at turn
    obtain ⟨rfl, rfl⟩ := turn
    have h : sideCost pf.codec b [.pending (.send fd (sendOnlyStatusCode pf.codec stamp .askNeedMsg)
        (makeRequestData fd .readResponse))] _ < sideCost pf.codec b _ (some link) :=
      asked_lt hfd isOpen waits back out hres hackn hask (by simp only [framesAfter]; omega)
    simpa [perform, Net.addOp, Net.onLink, on, hb] using h
  | enough sentAt complete =>
    rw [step_status hfd stamp hres sentAt .enough (by simp [Status.Named])] at turn
    obtain ⟨msg, hmsg⟩ := exists_messages complete.taken.slots
    rw [handleStatus, (finishSending_spec pf hs.ready fd hmsg).1, Option.some.injEq,
      Prod.mk.injEq] at turn
    obtain ⟨rfl, rfl⟩ := turn
    simp [perform, Net.addOp, on, sideCost, isOpenLink, isOpen, cost_received hfd _ hres, arrivalCost,
      frameCost, Link.cost, out, back, unreadCost, complete.phase]
    omega

theorem late_lt {codec : Codec} {b b' : ℕ} {op : Op} {ops : List Op} (closed : link.isOpen = false)
    (hlt : (ops.map (Op.cost codec false b)).sum < op.cost codec false b) :
    sideCost codec b' (l₁ ++ l₂ ++ ops) (some link) <
      sideCost codec b (l₁ ++ op :: l₂) (some link) := by
  rw [sideCost_closed b' b _ closed]
  simp only [sideCost, isOpenLink, Option.any_some, closed, List.map_append, List.map_cons,
    List.sum_append, List.sum_cons]
  omega

/-- Whatever a late frame leads to, it is less than the frame. -/
theorem late_work (on : net.links fd = some link) (hfd : fd.msb = false)
    (closed : link.isOpen = false) {g : List UInt8} {res : BitVec 32} (hres : 0 < res.toInt)
    (hops : net.ops fd = l₁ ++ .posted ⟨makeRequestData fd .testResponse, res, g⟩ :: l₂)
    (turn : eventLoopStep pf stamp ⟨makeRequestData fd .testResponse, res, g⟩ net.server =
      some (server, effects)) :
    (effects.foldl perform { net with
      server := server, ops := Function.update net.ops fd (l₁ ++ l₂) }).work pf.codec <
        net.work pf.codec := by
  have hresponds := received_responds hfd turn
  apply turn_lt (responds_local hresponds) fun fd' hne => responds_counter hresponds hne
  rw [Net.cost, Net.cost, perform_server, hops, on]
  have hcost : ∀ b, Op.cost pf.codec false b
      (.posted ⟨makeRequestData fd .testResponse, res, g⟩) = 5 := fun b => cost_received hfd _ hres g
  have hpush : ∀ frame, link.push frame = link := by
    intro frame
    rw [Link.push, if_neg (by rw [closed]; decide)]
  have hlate : ∀ (b' : ℕ) (ops : List Op),
      (ops.map (Op.cost pf.codec false (net.server.befferSendedN fd))).sum < 5 →
      sideCost pf.codec b' (l₁ ++ l₂ ++ ops) (some link) <
        sideCost pf.codec (net.server.befferSendedN fd)
          (l₁ ++ .posted ⟨makeRequestData fd .testResponse, res, g⟩ :: l₂) (some link) :=
    fun b' ops hlt => late_lt closed (hlt.trans_eq (hcost _).symm)
  cases hresponds with
  | nothing => simpa [on] using hlate _ [] (by simp)
  | status frame =>
    have h := hlate (net.server.befferSendedN fd)
      [.pending (.send fd frame (makeRequestData fd .readResponse))] (by simp)
    simpa [perform, Net.addOp, Net.onLink, on, hpush] using h
  | serves cbuf m frame hlt =>
    have h := hlate (net.server.befferSendedN fd + 1)
      [.pending (.send fd frame (makeRequestData fd .readResponse))] (by simp)
    simpa [perform, Net.addOp, Net.onLink, on, hpush] using h
  | finishes cbuf hash =>
    have h := hlate 0 [.pending (.unprepared (makeRequestData fd .flagCloseConnection))] (by simp)
    simpa [perform, Net.addOp, on] using h

/-- The closing turn resets a counter that nothing depends on any more, and closes. -/
theorem close_work {res : BitVec 32} (hfd : fd.msb = false)
    (hops : net.ops fd = l₁ ++ .posted ⟨makeRequestData fd .flagCloseConnection, res, []⟩ :: l₂)
    (turn : eventLoopStep pf stamp ⟨makeRequestData fd .flagCloseConnection, res, []⟩ net.server =
      some (server, effects))
    (settled : sideCost pf.codec 0 (l₁ ++ l₂) (net.links fd) =
      sideCost pf.codec (net.server.befferSendedN fd) (l₁ ++ l₂) (net.links fd)) :
    (effects.foldl perform { net with
      server := server, ops := Function.update net.ops fd (l₁ ++ l₂) }).work pf.codec <
        net.work pf.codec := by
  rw [step_close hfd, Option.some.injEq, Prod.mk.injEq] at turn
  obtain ⟨rfl, rfl⟩ := turn
  set server : Server :=
    { net.server with befferSendedN := Function.update net.server.befferSendedN fd 0 }
  set net₀ : Net := { net with server, ops := Function.update net.ops fd (l₁ ++ l₂) }
  have hlt : net₀.work pf.codec < net.work pf.codec := by
    have hzero : server.befferSendedN fd = 0 := Function.update_self _ _ _
    apply turn_lt (List.forall_mem_nil _) fun fd' hne => Function.update_of_ne hne _ _
    have h : sideCost pf.codec (net.server.befferSendedN fd) (l₁ ++ [] ++ l₂) (net.links fd) <
        sideCost pf.codec (net.server.befferSendedN fd) (l₁ ++
          .posted ⟨makeRequestData fd .flagCloseConnection, res, []⟩ :: l₂) (net.links fd) :=
      sideCost_replace _ _ (by rw [cost_closed hfd]; norm_num)
    simpa [Net.cost, hops, hzero, settled] using h
  have hshut : (net₀.onLink net.server.currentClientFd Link.shut).work pf.codec ≤
      net₀.work pf.codec := by
    apply Finset.sum_le_sum
    intro fd' _
    by_cases hfd' : fd' = net.server.currentClientFd
    · simp only [Net.cost, Net.onLink, hfd', Function.update_self]
      exact sideCost_shut_le _ _ _
    · simp only [Net.cost, Net.onLink, Function.update_of_ne hfd']
      exact le_rfl
  exact hshut.trans_lt hlt

theorem exchange_work (hs : Sound pf net) (on : net.links fd = some link) (hfd : fd.msb = false)
    (hops : net.ops fd = l₁ ++ .posted cqe :: l₂)
    (joint : Exchange pf.codec net.server.cbuf fd (net.Finished fd) (net.server.befferSendedN fd)
      (l₁ ++ .posted cqe :: l₂) link)
    (turn : eventLoopStep pf stamp cqe net.server = some (server, effects)) :
    (effects.foldl perform { net with
      server := server, ops := Function.update net.ops fd (l₁ ++ l₂) }).work pf.codec <
        net.work pf.codec := by
  have hwaits : Awaiting fd (l₁ ++ .posted cqe :: l₂) → _ := fun waits => by
    generalize hl : l₁ ++ .posted cqe :: l₂ = ops at waits
    cases waits with
    | sending => cases (singleton_split hl.symm).2.1
    | receiving => cases (singleton_split hl.symm).2.1
    | sent hres =>
      have hcqe := (singleton_split hl.symm).2.1
      exact sent_work hops hfd (Op.posted.inj hcqe).symm turn
  cases joint with
  | toClient _ waits => exact hwaits waits
  | atClient _ waits => exact hwaits waits
  | toServer _ waits => exact hwaits waits
  | atServer isOpen arrived hres reply out back =>
    obtain ⟨rfl, heq, rfl⟩ := singleton_split arrived.symm
    cases heq
    exact reply_work hs on hfd isOpen hres hops reply out back turn
  | finished closing complete done out back =>
    generalize hl : l₁ ++ .posted cqe :: l₂ = ops at closing
    cases closing with
    | pending => cases (singleton_split hl.symm).2.1
    | handled => simp at hl
    | posted res =>
      obtain ⟨rfl, heq, rfl⟩ := singleton_split hl.symm
      cases heq
      apply close_work hfd hops turn
      simp [on, sideCost, Link.cost, out, back, unreadCost, complete.phase]

theorem handle_work (hs : Sound pf net) (hops : net.ops fd = l₁ ++ .posted cqe :: l₂)
    (turn : eventLoopStep pf stamp cqe net.server = some (server, effects)) :
    (effects.foldl perform { net with
      server := server, ops := Function.update net.ops fd (l₁ ++ l₂) }).work pf.codec <
        net.work pf.codec := by
  have hok := hs.fd fd
  rw [Net.Ok, hops] at hok
  generalize hl : net.links fd = l at hok
  cases hok with
  | unused sign idle => simp at idle
  | refused sign all =>
    have hop := all (.posted cqe) (by simp)
    cases hop
    apply idle_work hops turn
    · exact step_negative sign _ _ _ _ _
    · intro isOpen b
      rw [cost_negative sign]
      norm_num
  | exchange sign joint => exact exchange_work hs hl sign hops joint turn
  | @abandoned link sign late others =>
    have hop := late.ops (.posted cqe) (by simp)
    cases hop with
    | sent res => exact sent_work hops sign rfl turn
    | received res frame =>
      by_cases hres : 0 < res.toInt
      · exact late_work hl sign late.closed hres hops turn
      · apply idle_work hops turn
        · rw [step_received sign, if_neg hres]
        · intro isOpen b
          rw [cost_ended sign _ hres]
          norm_num
    | @ended res hres =>
      apply idle_work hops turn
      · rw [step_received sign, if_neg (by omega)]
      · intro isOpen b
        rw [cost_ended sign _ (by omega)]
        norm_num
    | closing op closing =>
      cases closing
      apply close_work sign hops turn
      rw [hl]
      exact sideCost_closed _ _ _ late.closed

end Handling

end CBlockchain.Transfer
