import CBlockchain.ConnectionHandlers

/-! `event_loop` of the message server: one completion is taken from the ring and
dispatched on its tag. One equation says what each kind of request leads to when it
completes, and `Responds` lists what a client's response can lead to. -/
namespace CBlockchain.EventLoop
open ConnectionHandlers DataHandlers RequestData Serdes
variable (pf : Platform)

def handleStatus (stamp : Stamp) (clientFd : Fd) (s : Server) :
    Status → Option (Server × List Effect)
  | .needMore => handleResponseNeedMoreMsg pf stamp clientFd s
  | .acknOk => requestAskNeedMsg pf stamp clientFd s
  | .enough => finishSending pf clientFd s
  | .allBlockReceived => some (s, [])
  | _ => some (s, [])

/-- The statuses with a case of their own in that switch. -/
def Handles : Status → Prop
  | .needMore | .acknOk | .enough | .allBlockReceived => True
  | _ => False

/-- One turn of the loop. The closing turn acts on `current_client_fd`, the counter it
resets belongs to the tag. -/
def eventLoopStep (stamp : Stamp) (cqe : Cqe) (s : Server) : Option (Server × List Effect) :=
  let tagFd := requestDataClientFd cqe.userData
  match requestDataEventType cqe.userData with
  | some .flagAccept => do
    let s := { s with currentClientFd := requestDataClientFd (cqe.res.signExtend 64) }
    let (s, effects) ← requestAskNeedMsg pf stamp cqe.res s
    some (s, addAcceptRequest :: effects)
  | some .readResponse => if cqe.res ≠ 0 then readStatusResponse tagFd s else some (s, [])
  | some .waitAcknowledgement => some (s, [])
  | some .flagCloseConnection =>
    some ({ s with befferSendedN := Function.update s.befferSendedN tagFd 0 },
      [.shutdownClose s.currentClientFd])
  | some .testResponse =>
    if 0 < cqe.res.toInt then
      (readOnlyStatusResponse pf.codec cqe.data).bind (handleStatus pf stamp tagFd s)
    else some (s, [])
  | some .flagSendTransactions => some (s, [])
  | _ => some (s, [])

/-- What happens before the first completion: one message is pushed and the first
accept is submitted. -/
def eventLoopStart : Option (Server × List Effect) := do
  let cbuf ← pushMsgCircBuf pf.src createCircBuf
  some (⟨cbuf, fun _ => 0, -1⟩, [addAcceptRequest])

theorem eventLoopStart_spec : ∃ cbuf, eventLoopStart pf =
      some (⟨cbuf, fun _ => 0, -1⟩, [addAcceptRequest]) ∧ Ready cbuf ∧ cbuf.fillSize = 1 := by
  have hcur : createCircBuf.fillSize < createCircBuf.buffer.length := by
    rw [createCircBuf_holdsTo.length]
    norm_num [createCircBuf]
  obtain ⟨cbuf, hpush, hfill⟩ :=
    pushMsgCircBuf_filledTo pf.src (c := createCircBuf) (by decide) hcur
  have hsize : cbuf.fillSize = 1 := hfill.fillSize
  refine ⟨cbuf, by simp [eventLoopStart, hpush], ?_, hsize⟩
  rw [Ready, filled, hsize]
  exact hfill.holdsTo createCircBuf_holdsTo (Nat.zero_le 1) (by decide)

variable {pf}

@[simp] theorem step_accepted (stamp : Stamp) (res : Fd) (data : List UInt8) (s : Server) :
    eventLoopStep pf stamp ⟨makeRequestData 0 .flagAccept, res, data⟩ s =
      some ({ s with currentClientFd := res },
        [addAcceptRequest, .submit (.send res (sendOnlyStatusCode pf.codec stamp .askNeedMsg)
          (makeRequestData res .readResponse))]) := by
  simp [eventLoopStep, requestDataEventType_make, requestAskNeedMsg, requestSendStatus]

theorem step_negative {fd : Fd} (hfd : fd.msb = true) (flag : FlagState) (stamp : Stamp)
    (res : BitVec 32) (data : List UInt8) (s : Server) :
    eventLoopStep pf stamp ⟨makeRequestData fd flag, res, data⟩ s = some (s, []) := by
  simp [eventLoopStep, requestDataEventType_neg hfd]

theorem step_sent {fd : Fd} (hfd : fd.msb = false) (stamp : Stamp) (res : BitVec 32)
    (data : List UInt8) (s : Server) :
    eventLoopStep pf stamp ⟨makeRequestData fd .readResponse, res, data⟩ s =
      if res ≠ 0 then readStatusResponse fd s else some (s, []) := by
  simp [eventLoopStep, requestDataEventType_make hfd]

theorem step_received {fd : Fd} (hfd : fd.msb = false) (stamp : Stamp) (res : BitVec 32)
    (data : List UInt8) (s : Server) :
    eventLoopStep pf stamp ⟨makeRequestData fd .testResponse, res, data⟩ s =
      if 0 < res.toInt then
        (readOnlyStatusResponse pf.codec data).bind (handleStatus pf stamp fd s)
      else some (s, []) := by
  simp [eventLoopStep, requestDataEventType_make hfd]

theorem step_close {fd : Fd} (hfd : fd.msb = false) (stamp : Stamp) (res : BitVec 32)
    (data : List UInt8) (s : Server) :
    eventLoopStep pf stamp ⟨makeRequestData fd .flagCloseConnection, res, data⟩ s =
      some ({ s with befferSendedN := Function.update s.befferSendedN fd 0 },
        [.shutdownClose s.currentClientFd]) := by
  simp [eventLoopStep, requestDataEventType_make hfd]

/-- What a response of the client on `fd` can lead to: nothing; a status; the message of
the next slot; the end of the transfer. -/
inductive Responds (fd : Fd) (s : Server) : Server → List Effect → Prop
  | nothing : Responds fd s s []
  | status (frame : List UInt8) :
      Responds fd s s [.submit (.send fd frame (makeRequestData fd .readResponse))]
  | serves (cbuf : CircBuf) (m : SignedMessage) (frame : List UInt8)
      (hlt : s.befferSendedN fd < 512) :
      Responds fd s
        { s with
          cbuf := cbuf
          befferSendedN := Function.update s.befferSendedN fd (s.befferSendedN fd + 1) }
        [.serve fd (s.befferSendedN fd) m,
          .submit (.send fd frame (makeRequestData fd .readResponse))]
  | finishes (cbuf : CircBuf) (hash : Digest) :
      Responds fd s
        { s with cbuf := cbuf, befferSendedN := Function.update s.befferSendedN fd 0 }
        [.merkleRoot fd hash, .submit (.unprepared (makeRequestData fd .flagCloseConnection))]

theorem handleStatus_responds {fd : Fd} {stamp : Stamp} {status : Status} {s s' : Server}
    {effects : List Effect} (hs : handleStatus pf stamp fd s status = some (s', effects)) :
    Responds fd s s' effects := by
  cases status with
  | needMore =>
    simp only [handleStatus, handleResponseNeedMoreMsg] at hs
    split at hs
    · simp only [requestSendStatus, Option.some.injEq, Prod.mk.injEq] at hs
      obtain ⟨rfl, rfl⟩ := hs
      exact .status _
    · simp only [Option.bind_eq_bind, Option.bind_eq_some_iff, Option.some.injEq,
        Prod.mk.injEq] at hs
      obtain ⟨⟨p, cbuf⟩, -, m, -, rfl, rfl⟩ := hs
      exact .serves cbuf m _ (by omega)
  | acknOk =>
    simp only [handleStatus, requestAskNeedMsg, requestSendStatus, Option.some.injEq,
      Prod.mk.injEq] at hs
    obtain ⟨rfl, rfl⟩ := hs
    exact .status _
  | enough =>
    simp only [handleStatus, finishSending, Option.bind_eq_bind, Option.bind_eq_some_iff,
      Option.some.injEq, Prod.mk.injEq] at hs
    obtain ⟨hash, -, rfl, rfl⟩ := hs
    exact .finishes _ hash
  | _ =>
    simp only [handleStatus, Option.some.injEq, Prod.mk.injEq] at hs
    obtain ⟨rfl, rfl⟩ := hs
    exact .nothing

theorem received_responds {fd : Fd} (hfd : fd.msb = false) {stamp : Stamp} {res : BitVec 32}
    {data : List UInt8} {s s' : Server} {effects : List Effect}
    (h : eventLoopStep pf stamp ⟨makeRequestData fd .testResponse, res, data⟩ s =
      some (s', effects)) : Responds fd s s' effects := by
  rw [step_received hfd] at h
  split at h
  · obtain ⟨status, -, hs⟩ := Option.bind_eq_some_iff.mp h
    exact handleStatus_responds hs
  · simp only [Option.some.injEq, Prod.mk.injEq] at h
    obtain ⟨rfl, rfl⟩ := h
    exact .nothing

end CBlockchain.EventLoop
