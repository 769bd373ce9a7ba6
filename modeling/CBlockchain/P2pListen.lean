import CBlockchain.ConnectionHandlers
import CBlockchain.P2pSerdes

/-! `setup_p2p_listening`, the thread that connects to a peer and asks it for a block. Its
turns answer what they receive; once a block has arrived nothing more is requested. -/
namespace CBlockchain

/-- `cl_p2p_state` -/
inductive ClP2pState where
  | test | acceptedPing | sendPong | processResponse | askForABlock | processBlockRequest
  | readResponse
  deriving DecidableEq, Repr

namespace ClP2pState

def code : ClP2pState → BitVec 64
  | test => 0 | acceptedPing => 1 | sendPong => 2 | processResponse => 3 | askForABlock => 4
  | processBlockRequest => 5 | readResponse => 6

/-- The cast to `cl_p2p_state`; other values match no case label. -/
def ofCode : ℕ → Option ClP2pState
  | 0 => some test | 1 => some acceptedPing | 2 => some sendPong | 3 => some processResponse
  | 4 => some askForABlock | 5 => some processBlockRequest | 6 => some readResponse
  | _ => none

theorem ofCode_eq_some_iff {n : ℕ} {state : ClP2pState} :
    ofCode n = some state ↔ n = state.code.toNat := by
  constructor
  · intro h
    unfold ofCode at h
    split at h <;> cases h <;> rfl
  · rintro rfl
    cases state <;> rfl

theorem code_lt (state : ClP2pState) : state.code.toNat < 2 ^ 3 := by
  cases state <;> decide

end ClP2pState

namespace P2pListen
open P2pSerdes RequestData
variable (codec : P2pCodec)

/-- What the loop keeps between two completions, and the blocks it has printed. -/
structure Listener where
  flagReadyCount : Bool
  received : List Block

def makeRequestData (clientFd : Fd) (flag : ClP2pState) : BitVec 64 :=
  flag.code <<< 32 ||| clientFd.signExtend 64

def requestDataEventType (requestData : BitVec 64) : Option ClP2pState :=
  ClP2pState.ofCode ((requestData &&& 0xFFFFFFFF00000000#64) >>> 32).toNat

theorem requestDataEventType_make {s : Fd} (hs : s.msb = false) (flag : ClP2pState) :
    requestDataEventType (makeRequestData s flag) = some flag := by
  rw [requestDataEventType, makeRequestData, upper_tag flag.code_lt hs]
  exact ClP2pState.ofCode_eq_some_iff.mpr rfl

def clP2pReadStatusResponse (s : Fd) (state : ClP2pState) : Sqe :=
  .recv s (makeRequestData s state)

def clP2pSendStatus (date : CString) (s : Fd) (status : P2pStatus) (state : ClP2pState) : Sqe :=
  .send s (p2pSendStatus codec date status) (makeRequestData s state)

/-- The switch on the status of the received bytes; `print_block_data` faults on the null
pointer. -/
def processResponse (date : CString) (behind : ℕ → UInt8) (s : Fd) (buffer : List UInt8)
    (l : Listener) : P2pStatus → Option (Listener × List Sqe)
  | .ping => some (l, [clP2pSendStatus codec date s .pong .readResponse])
  | .ok => some (l, [clP2pSendStatus codec date s .askIfBlockReady .readResponse])
  | .block => do
    let recvBlock ← (deserializeBlock codec behind buffer).join
    some ({ l with received := l.received ++ [recvBlock] }, [])
  | .blockNotReady =>
    if l.flagReadyCount then
      some (l, [clP2pSendStatus codec date s .askIfBlockReady .readResponse])
    else
      some ({ l with flagReadyCount := true },
        [clP2pSendStatus codec date s .askIfBlockReady .readResponse])
  | _ => some (l, [])

/-- One turn of the loop on completion `cqe`, with the requests it submits. -/
def setupP2pListeningStep (date : CString) (behind : ℕ → UInt8) (s : Fd) (cqe : Cqe)
    (l : Listener) : Option (Listener × List Sqe) :=
  match requestDataEventType cqe.userData with
  | some .processResponse => do
    let msgStatus ← p2pDeserializeStatus codec cqe.data
    processResponse codec date behind s cqe.data l msgStatus
  | some .readResponse => some (l, [clP2pReadStatusResponse s .processResponse])
  | _ => some (l, [])

/-- The loop begins with a receive outstanding. The first entry of the ring has been taken
before it and is submitted with it, zeroed as it is. -/
def setupP2pListeningStart (s : Fd) : Listener × List Sqe :=
  (⟨false, []⟩, [.unprepared 0, .recv s (makeRequestData s .processResponse)])

section Turns
variable {codec} {date : CString} {behind : ℕ → UInt8} {s : Fd} {res : BitVec 32}
  {data : List UInt8} {l : Listener}

theorem step_processResponse (hs : s.msb = false) :
    setupP2pListeningStep codec date behind s ⟨makeRequestData s .processResponse, res, data⟩ l =
      (p2pDeserializeStatus codec data).bind (processResponse codec date behind s data l) := by
  rw [setupP2pListeningStep, requestDataEventType_make hs]
  rfl

theorem step_readResponse (hs : s.msb = false) :
    setupP2pListeningStep codec date behind s ⟨makeRequestData s .readResponse, res, data⟩ l =
      some (l, [clP2pReadStatusResponse s .processResponse]) := by
  rw [setupP2pListeningStep, requestDataEventType_make hs]

/-- The tag of the zeroed entry names a state without a case. -/
theorem step_zeroed :
    setupP2pListeningStep codec date behind s ⟨0, res, data⟩ l = some (l, []) := by
  have htag : requestDataEventType 0 = some .test := by decide
  rw [setupP2pListeningStep, htag]

theorem processResponse_prepares {status : P2pStatus} {l' : Listener} {sqes : List Sqe}
    (h : processResponse codec date behind s data l status = some (l', sqes)) :
    ∀ d, .unprepared d ∉ sqes := by
  unfold processResponse at h
  split at h
  · cases h
    simp [clP2pSendStatus]
  · cases h
    simp [clP2pSendStatus]
  · obtain ⟨b, -, hb⟩ := Option.bind_eq_some_iff.mp h
    cases hb
    simp
  · split at h <;> cases h <;> simp [clP2pSendStatus]
  · cases h
    simp

/-- A turn prepares all it submits. -/
theorem step_prepares {cqe : Cqe} {l' : Listener} {sqes : List Sqe}
    (h : setupP2pListeningStep codec date behind s cqe l = some (l', sqes)) :
    ∀ d, .unprepared d ∉ sqes := by
  unfold setupP2pListeningStep at h
  split at h
  · obtain ⟨status, -, hs⟩ := Option.bind_eq_some_iff.mp h
    exact processResponse_prepares hs
  · cases h
    simp [clP2pReadStatusResponse]
  · cases h
    simp

end Turns
end P2pListen
end CBlockchain
