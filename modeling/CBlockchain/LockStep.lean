import CBlockchain.TransferProgress

/-! By the protocol the transfer with one client is in lock-step. The stream has no length framing, so
two frames under way could be received as one; there is never more than one, each is
read by a switch with a case for it, and the server's counter follows what the client
has stored. -/
namespace CBlockchain.Transfer
open ConnectionHandlers DataHandlers EventLoop ReceiveLoop RequestData Serdes

/-- A completed receive of the server that it has not looked at. -/
def Op.isUnread : Op → Bool
  | .pending _ => false
  | .posted cqe => requestDataEventType cqe.userData == some .testResponse

/-- The frames of one connection in flight or unread, both directions together. -/
def framesUnderWay (ops : List Op) (link : Link) : ℕ :=
  link.toClient.length + link.toServer.length + unreadFrames link.client + ops.countP Op.isUnread

/-- A message frame is in flight or unprocessed by the client. -/
def MessageUnderWay (codec : Codec) (link : Link) : Prop :=
  (∃ f ∈ link.toClient, readOnlyStatusResponse codec f = some .messageSended) ∨
  (link.client.phase = .receiving ∧ nextStatus codec link.client = some .messageSended)

structure LockStep (codec : Codec) (net : Net) (fd : Fd) (link : Link) : Prop where
  atMostOne : framesUnderWay (net.ops fd) link ≤ 1
  clientReads : ∀ cqe, link.client.phase = .receiving →
    link.client.posted[link.client.seen]? = some cqe →
    cqe.isRecv = true ∧ ∃ status, nextStatus codec link.client = some status ∧
      ReceiveLoop.Handles status
  serverReads : ∀ cqe, .posted cqe ∈ net.ops fd →
    requestDataEventType cqe.userData = some .testResponse →
    ∃ status, readOnlyStatusResponse codec cqe.data = some status ∧ EventLoop.Handles status
  counter : ¬ net.Finished fd →
    (MessageUnderWay codec link → net.server.befferSendedN fd = link.client.stored + 1) ∧
    (¬ MessageUnderWay codec link → net.server.befferSendedN fd = link.client.stored)

section Joint
variable {codec : Codec} {cbuf : CircBuf} {fd : Fd} {fin : Prop} {k b : ℕ} {ops : List Op}
  {link : Link} {cl : Client} {f g : List UInt8}

theorem Awaiting.countP_isUnread (h : Awaiting fd ops) (hfd : fd.msb = false) :
    ops.countP Op.isUnread = 0 := by
  cases h <;> simp [Op.isUnread, requestDataEventType_make hfd]

theorem Closing.countP_isUnread (h : Closing fd ops) (hfd : fd.msb = false) :
    ops.countP Op.isUnread = 0 := by
  cases h <;> simp [Op.isUnread, requestDataEventType_make hfd]

theorem Question.reads (h : Question codec cbuf k b f) :
    (readOnlyStatusResponse codec f = some .askNeedMsg ∧ b = k) ∨
    (readOnlyStatusResponse codec f = some .messageSended ∧ b = k + 1) := by
  cases h with
  | ask stamp => exact Or.inl ⟨readOnlyStatusResponse_send codec stamp (by simp [Status.Named]), rfl⟩
  | message stamp slot => exact Or.inr ⟨readOnlyStatusResponse_serialize codec stamp _, rfl⟩

theorem Reply.reads (h : Reply codec cbuf cl b g) :
    ∃ status, readOnlyStatusResponse codec g = some status ∧ EventLoop.Handles status := by
  cases h with
  | needMore stamp => exact ⟨_, readOnlyStatusResponse_send codec stamp (by simp [Status.Named]), trivial⟩
  | acknOk stamp => exact ⟨_, readOnlyStatusResponse_send codec stamp (by simp [Status.Named]), trivial⟩
  | enough stamp => exact ⟨_, readOnlyStatusResponse_send codec stamp (by simp [Status.Named]), trivial⟩

theorem Reply.counter (h : Reply codec cbuf cl b g) : b = cl.stored := by
  cases h with
  | needMore _ _ part => exact part.taken.stored.symm
  | acknOk _ _ part => exact part.taken.stored.symm
  | enough _ complete => exact complete.taken.stored.symm

theorem Reply.unreadFrames (h : Reply codec cbuf cl b g) : unreadFrames cl = 0 := by
  cases h with
  | needMore _ waits => exact waits.unreadFrames
  | acknOk _ waits => exact waits.unreadFrames
  | enough _ complete => exact complete.quiet

theorem Reply.waiting (h : Reply codec cbuf cl b g) (hp : cl.phase = .receiving) : Waiting cl := by
  cases h with
  | needMore _ waits => exact waits
  | acknOk _ waits => exact waits
  | enough _ complete => exact absurd hp complete.phase

theorem Exchange.framesUnderWay_le (h : Exchange codec cbuf fd fin b ops link)
    (hfd : fd.msb = false) : framesUnderWay ops link ≤ 1 := by
  cases h with
  | toClient _ waits _ idle _ out back =>
    simp [framesUnderWay, out, back, idle.unreadFrames, waits.countP_isUnread hfd]
  | atClient _ waits _ unread _ out back =>
    simp [framesUnderWay, out, back, unread.unreadFrames, waits.countP_isUnread hfd]
  | toServer _ waits reply out back =>
    simp [framesUnderWay, out, back, reply.unreadFrames, waits.countP_isUnread hfd]
  | atServer _ arrived _ reply out back =>
    simp [framesUnderWay, out, back, reply.unreadFrames, arrived, Op.isUnread,
      requestDataEventType_make hfd]
  | finished closing complete _ out back =>
    simp [framesUnderWay, out, back, complete.quiet, closing.countP_isUnread hfd]

theorem Exchange.clientReads (h : Exchange codec cbuf fd fin b ops link) {cqe : ClientCqe}
    (phase : link.client.phase = .receiving)
    (next : link.client.posted[link.client.seen]? = some cqe) :
    cqe.isRecv = true ∧ ∃ status, nextStatus codec link.client = some status ∧
      ReceiveLoop.Handles status := by
  cases h with
  | toClient _ _ _ idle => simp [idle.next] at next
  | atClient _ _ question unread =>
    have hcqe := next.symm.trans unread.next
    rw [Option.some.injEq] at hcqe
    refine ⟨by rw [hcqe], ?_⟩
    rw [unread.nextStatus]
    rcases question.reads with ⟨hread, -⟩ | ⟨hread, -⟩
    · exact ⟨_, hread, trivial⟩
    · exact ⟨_, hread, trivial⟩
  | toServer _ _ reply => simp [(reply.waiting phase).next] at next
  | atServer _ _ _ reply => simp [(reply.waiting phase).next] at next
  | finished _ complete => exact absurd phase complete.phase

theorem Exchange.serverReads (h : Exchange codec cbuf fd fin b ops link) (hfd : fd.msb = false)
    {cqe : Cqe} (hmem : .posted cqe ∈ ops)
    (htag : requestDataEventType cqe.userData = some .testResponse) :
    ∃ status, readOnlyStatusResponse codec cqe.data = some status ∧ EventLoop.Handles status := by
  have hunread : Op.isUnread (.posted cqe) = true := by simp [Op.isUnread, htag]
  cases h with
  | toClient _ waits =>
    exact absurd hunread (List.countP_eq_zero.mp (waits.countP_isUnread hfd) _ hmem)
  | atClient _ waits =>
    exact absurd hunread (List.countP_eq_zero.mp (waits.countP_isUnread hfd) _ hmem)
  | toServer _ waits =>
    exact absurd hunread (List.countP_eq_zero.mp (waits.countP_isUnread hfd) _ hmem)
  | atServer _ arrived _ reply =>
    rw [arrived, List.mem_singleton, Op.posted.injEq] at hmem
    rw [hmem]
    exact reply.reads
  | finished closing =>
    exact absurd hunread (List.countP_eq_zero.mp (closing.countP_isUnread hfd) _ hmem)

theorem Reply.not_messageUnderWay (h : Reply codec cbuf link.client b g)
    (out : link.toClient = []) : ¬ MessageUnderWay codec link := by
  rintro (⟨f, hmem, -⟩ | ⟨phase, hnext⟩)
  · simp [out] at hmem
  · simp [(h.waiting phase).nextStatus] at hnext

theorem Question.counter (h : Question codec cbuf k b f) (part : Partway cbuf k link.client)
    (hunder : MessageUnderWay codec link ↔ readOnlyStatusResponse codec f = some .messageSended) :
    (MessageUnderWay codec link → b = link.client.stored + 1) ∧
    (¬ MessageUnderWay codec link → b = link.client.stored) := by
  rw [hunder, part.taken.stored]
  rcases h.reads with ⟨hread, rfl⟩ | ⟨hread, rfl⟩
  · simp [hread]
  · simp [hread]

theorem Exchange.counter (h : Exchange codec cbuf fd fin b ops link) (hfin : ¬ fin) :
    (MessageUnderWay codec link → b = link.client.stored + 1) ∧
    (¬ MessageUnderWay codec link → b = link.client.stored) := by
  cases h with
  | toClient _ _ question idle part out =>
    exact question.counter part (by simp [MessageUnderWay, out, idle.nextStatus])
  | atClient _ _ question unread part out =>
    exact question.counter part (by simp [MessageUnderWay, out, unread.nextStatus, unread.phase])
  | toServer _ _ reply out =>
    exact ⟨fun h => absurd h (reply.not_messageUnderWay out), fun _ => reply.counter⟩
  | atServer _ _ _ reply out =>
    exact ⟨fun h => absurd h (reply.not_messageUnderWay out), fun _ => reply.counter⟩
  | finished _ _ done => exact absurd done hfin

end Joint

/-- By the protocol one server and one client are in lock-step in every reachable state. -/
theorem reaches_lockStep {pf : Platform} {net : Net} (h : Reaches pf net) {fd : Fd} {link : Link}
    (on : net.links fd = some link) (alone : ∀ fd' ≠ fd, net.links fd' = none) :
    LockStep pf.codec net fd link := by
  have hok := (reaches_sound h).fd fd
  rw [Net.Ok, on] at hok
  cases hok with
  | abandoned _ _ others =>
    obtain ⟨fd', hne, hsome⟩ := others
    exact absurd (alone fd' hne) hsome
  | exchange sign joint =>
    exact ⟨joint.framesUnderWay_le sign, fun _ => joint.clientReads,
      fun _ hmem htag => joint.serverReads sign hmem htag, joint.counter⟩

end CBlockchain.Transfer
