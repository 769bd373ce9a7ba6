import CBlockchain.ClientLoop
import CBlockchain.ConnectionHandlers

/-! `event_loop_p2p`, the peer-to-peer server of a client, with the handlers of
`dhandlers_p2p.c`. A turn keeps nothing for the next one: whether a block is ready is asked
of the mutex at every completion. -/
namespace CBlockchain

/-- `STATE_P2P` -/
inductive StateP2p where
  | flagAccept | flagWaitPong | flagTestResponse | flagBlockSended | flagBlockNotReady
  | flagReadResponse
  deriving DecidableEq, Repr

namespace StateP2p

def code : StateP2p → BitVec 64
  | flagAccept => 0 | flagWaitPong => 1 | flagTestResponse => 2 | flagBlockSended => 3
  | flagBlockNotReady => 4 | flagReadResponse => 5

/-- The cast to `STATE_P2P`; other values match no case label. -/
def ofCode : ℕ → Option StateP2p
  | 0 => some flagAccept | 1 => some flagWaitPong | 2 => some flagTestResponse
  | 3 => some flagBlockSended | 4 => some flagBlockNotReady | 5 => some flagReadResponse
  | _ => none

theorem ofCode_eq_some_iff {n : ℕ} {flag : StateP2p} :
    ofCode n = some flag ↔ n = flag.code.toNat := by
  constructor
  · intro h
    unfold ofCode at h
    split at h <;> cases h <;> rfl
  · rintro rfl
    cases flag <;> rfl

theorem code_lt (flag : StateP2p) : flag.code.toNat < 2 ^ 3 := by
  cases flag <;> decide

end StateP2p

/-- What a turn does: hand a request to io_uring, write to the buffer of a peer, or enter
`P2Pser_send_block`. -/
inductive P2pEffect where
  | submit (sqe : Sqe)
  | write (clientFd : Fd)
  | sendBlock (clientFd : Fd)

namespace P2pEventLoop
open ClientLoop P2pSerdes RequestData
variable (codec : P2pCodec)

def makeRequestData (clientFd : Fd) (flag : StateP2p) : BitVec 64 :=
  flag.code <<< 32 ||| clientFd.signExtend 64

def requestDataEventType (requestData : BitVec 64) : Option StateP2p :=
  StateP2p.ofCode ((requestData &&& 0xFFFFFFFF00000000#64) >>> 32).toNat

@[simp] theorem requestDataClientFd_make (clientFd : Fd) (flag : StateP2p) :
    requestDataClientFd (makeRequestData clientFd flag) = clientFd := clientFd_tag _ _

theorem requestDataEventType_make {clientFd : Fd} (hfd : clientFd.msb = false) (flag : StateP2p) :
    requestDataEventType (makeRequestData clientFd flag) = some flag := by
  rw [requestDataEventType, makeRequestData, upper_tag flag.code_lt hfd]
  exact StateP2p.ofCode_eq_some_iff.mpr rfl

def addAcceptRequest : P2pEffect := .submit (.accept (makeRequestData 0 .flagAccept))

def p2pserSendStatus (date : CString) (clientFd : Fd) (status : P2pStatus) (state : StateP2p) :
    List P2pEffect :=
  [.write clientFd,
   .submit (.send clientFd (p2pSendStatus codec date status) (makeRequestData clientFd state))]

def p2pSendPing (date : CString) (clientFd : Fd) : List P2pEffect :=
  p2pserSendStatus codec date clientFd .ping .flagWaitPong

def p2pserSendBlock (sh : Shared) (clientFd : Fd) : List P2pEffect :=
  [.sendBlock clientFd, .write clientFd,
   .submit (.send clientFd (sh.blockData.take sh.blockWrittenSize)
     (makeRequestData clientFd .flagBlockSended))]

def p2pReadStatusResponse (clientFd : Fd) : List P2pEffect :=
  [.submit (.recv clientFd (makeRequestData clientFd .flagTestResponse))]

/-- The switch on a peer's status; `flagBlockReady` is the result of `mtx_trylock`. -/
def handleStatus (date : CString) (sh : Shared) (flagBlockReady : Bool) (clientFd : Fd) :
    P2pStatus → List P2pEffect
  | .pong => p2pserSendStatus codec date clientFd .ok .flagReadResponse
  | .askIfBlockReady =>
    if flagBlockReady then p2pserSendBlock sh clientFd
    else p2pserSendStatus codec date clientFd .blockNotReady .flagReadResponse
  | _ => []

/-- One turn of the loop on completion `cqe`; a frame that does not unpack faults. -/
def eventLoopP2pStep (date : CString) (sh : Shared) (cqe : Cqe) : Option (List P2pEffect) :=
  let flagBlockReady := !sh.mtxHeld
  let tagFd := requestDataClientFd cqe.userData
  match requestDataEventType cqe.userData with
  | some .flagAccept =>
    some (addAcceptRequest :: p2pSendPing codec date (requestDataClientFd (cqe.res.signExtend 64)))
  | some .flagWaitPong => some (p2pReadStatusResponse tagFd)
  | some .flagTestResponse =>
    if 0 < cqe.res.toInt then
      (p2pDeserializeStatus codec cqe.data).map (handleStatus codec date sh flagBlockReady tagFd)
    else some []
  | some .flagReadResponse => some (p2pReadStatusResponse tagFd)
  | some .flagBlockSended => some (p2pserSendStatus codec date tagFd .finish .flagWaitPong)
  | _ => some []

/-- Two accepts are submitted before the loop. -/
def eventLoopP2pStart : List P2pEffect := [addAcceptRequest, addAcceptRequest]

section Turns
variable {codec} {date : CString} {sh : Shared} {res : BitVec 32} {data : List UInt8} {fd : Fd}

@[simp] theorem step_accepted :
    eventLoopP2pStep codec date sh ⟨makeRequestData 0 .flagAccept, res, data⟩ =
      some (addAcceptRequest :: p2pSendPing codec date res) := by
  simp [eventLoopP2pStep, requestDataEventType_make]

theorem step_waitPong (hfd : fd.msb = false) :
    eventLoopP2pStep codec date sh ⟨makeRequestData fd .flagWaitPong, res, data⟩ =
      some (p2pReadStatusResponse fd) := by
  simp [eventLoopP2pStep, requestDataEventType_make hfd]

theorem step_readResponse (hfd : fd.msb = false) :
    eventLoopP2pStep codec date sh ⟨makeRequestData fd .flagReadResponse, res, data⟩ =
      some (p2pReadStatusResponse fd) := by
  simp [eventLoopP2pStep, requestDataEventType_make hfd]

theorem step_blockSended (hfd : fd.msb = false) :
    eventLoopP2pStep codec date sh ⟨makeRequestData fd .flagBlockSended, res, data⟩ =
      some (p2pserSendStatus codec date fd .finish .flagWaitPong) := by
  simp [eventLoopP2pStep, requestDataEventType_make hfd]

theorem step_testResponse (hfd : fd.msb = false) :
    eventLoopP2pStep codec date sh ⟨makeRequestData fd .flagTestResponse, res, data⟩ =
      if 0 < res.toInt then
        (p2pDeserializeStatus codec data).map (handleStatus codec date sh (!sh.mtxHeld) fd)
      else some [] := by
  simp [eventLoopP2pStep, requestDataEventType_make hfd]

end Turns
end P2pEventLoop
end CBlockchain
