import CBlockchain.P2pEventLoop
import CBlockchain.P2pListen

/-! The three copies of the functions that pack and unpack request tags: of the message
server (`connection_handlers.c`), the peer server (`dhandlers_p2p.c`) and the peer listener
(`p2p_listen.c`). -/
namespace CBlockchain.RequestTags
open RequestData

/-- One copy of the functions, for the flags of its state machine. -/
structure TagFunctions (Flag : Type) where
  code : Flag → BitVec 64
  makeRequestData : Fd → Flag → BitVec 64
  requestDataEventType : BitVec 64 → Option Flag
  requestDataClientFd : BitVec 64 → Fd

def server : TagFunctions FlagState where
  code := FlagState.code
  makeRequestData := RequestData.makeRequestData
  requestDataEventType := RequestData.requestDataEventType
  requestDataClientFd := RequestData.requestDataClientFd

namespace DhandlersP2p

def requestDataClientFd (requestData : BitVec 64) : Fd :=
  (requestData &&& 0xFFFFFFFF#64).setWidth 32

end DhandlersP2p

def peerServer : TagFunctions StateP2p where
  code := StateP2p.code
  makeRequestData := P2pEventLoop.makeRequestData
  requestDataEventType := P2pEventLoop.requestDataEventType
  requestDataClientFd := DhandlersP2p.requestDataClientFd

/-- The listener has one socket and no function of its own that takes it out of a tag. -/
def peerListener : TagFunctions ClP2pState where
  code := ClP2pState.code
  makeRequestData := P2pListen.makeRequestData
  requestDataEventType := P2pListen.requestDataEventType
  requestDataClientFd := DhandlersP2p.requestDataClientFd

section Copies
variable {Flag Flag' : Type}

/-- Both halves of the tag can be taken out again, and no other pair has the same tag. -/
structure Lossless (t : TagFunctions Flag) (clientFd : Fd) (flag : Flag) : Prop where
  requestDataEventType : t.requestDataEventType (t.makeRequestData clientFd flag) = some flag
  requestDataClientFd : t.requestDataClientFd (t.makeRequestData clientFd flag) = clientFd
  unique : ∀ clientFd' flag', t.makeRequestData clientFd' flag' = t.makeRequestData clientFd flag →
    clientFd' = clientFd ∧ flag' = flag

/-- Two copies compute the same values, flags being compared by their numbers. -/
structure Agree (t : TagFunctions Flag) (u : TagFunctions Flag') : Prop where
  makeRequestData : ∀ clientFd flag flag', t.code flag = u.code flag' →
    t.makeRequestData clientFd flag = u.makeRequestData clientFd flag'
  requestDataEventType : ∀ requestData flag flag', t.code flag = u.code flag' →
    (t.requestDataEventType requestData = some flag ↔
      u.requestDataEventType requestData = some flag')
  requestDataClientFd : ∀ requestData,
    t.requestDataClientFd requestData = u.requestDataClientFd requestData

/-- The text the copies share: a shift and an or to pack, two masks to unpack. -/
structure PacksHalves (t : TagFunctions Flag) : Prop where
  code_lt : ∀ flag, (t.code flag).toNat < 2 ^ 3
  make_eq : ∀ clientFd flag,
    t.makeRequestData clientFd flag = t.code flag <<< 32 ||| clientFd.signExtend 64
  eventType_iff : ∀ requestData flag, t.requestDataEventType requestData = some flag ↔
    (requestData &&& 0xFFFFFFFF00000000#64) >>> 32 = t.code flag
  clientFd_eq : ∀ requestData,
    t.requestDataClientFd requestData = RequestData.requestDataClientFd requestData

namespace PacksHalves
variable {t : TagFunctions Flag} {u : TagFunctions Flag'} {clientFd : Fd} {flag : Flag}

theorem clientFd_make (h : PacksHalves t) (clientFd : Fd) (flag : Flag) :
    t.requestDataClientFd (t.makeRequestData clientFd flag) = clientFd := by
  rw [h.clientFd_eq, h.make_eq]
  exact clientFd_tag _ _

theorem eventType_make_iff (h : PacksHalves t) (clientFd : Fd) (flag : Flag) :
    t.requestDataEventType (t.makeRequestData clientFd flag) = some flag ↔
      clientFd.msb = false := by
  rw [h.eventType_iff, h.make_eq]
  constructor
  · intro hupper
    by_contra hneg
    have hlt := h.code_lt flag
    rw [← hupper, upper_tag_neg _ (Bool.eq_true_of_not_eq_false hneg)] at hlt
    exact absurd hlt (by decide)
  · exact upper_tag (h.code_lt flag)

theorem lossless_iff (h : PacksHalves t) : Lossless t clientFd flag ↔ 0 ≤ clientFd.toInt := by
  have hsign : clientFd.msb = false ↔ 0 ≤ clientFd.toInt := by
    rw [BitVec.msb_eq_toInt, decide_eq_false_iff_not, not_lt]
  rw [← hsign]
  constructor
  · intro hl
    exact (h.eventType_make_iff clientFd flag).mp hl.requestDataEventType
  · intro hfd
    have htype := (h.eventType_make_iff clientFd flag).mpr hfd
    refine ⟨htype, h.clientFd_make clientFd flag, fun clientFd' flag' heq => ?_⟩
    have hsame : clientFd' = clientFd := by
      rw [← h.clientFd_make clientFd' flag', heq, h.clientFd_make]
    subst hsame
    have htype' := (h.eventType_make_iff clientFd' flag').mpr hfd
    rw [heq, htype, Option.some.injEq] at htype'
    exact ⟨rfl, htype'.symm⟩

theorem agree (h : PacksHalves t) (h' : PacksHalves u) : Agree t u where
  makeRequestData := by
    intro clientFd flag flag' hcode
    rw [h.make_eq, h'.make_eq, hcode]
  requestDataEventType := by
    intro requestData flag flag' hcode
    rw [h.eventType_iff, h'.eventType_iff, hcode]
  requestDataClientFd := by
    intro requestData
    rw [h.clientFd_eq, h'.clientFd_eq]

end PacksHalves
end Copies

theorem server_packsHalves : PacksHalves server where
  code_lt := FlagState.code_lt
  make_eq := fun _ _ => rfl
  eventType_iff := by
    intro requestData flag
    rw [← BitVec.toNat_inj]
    exact FlagState.ofCode_eq_some_iff
  clientFd_eq := fun _ => rfl

theorem peerServer_packsHalves : PacksHalves peerServer where
  code_lt := StateP2p.code_lt
  make_eq := fun _ _ => rfl
  eventType_iff := by
    intro requestData flag
    rw [← BitVec.toNat_inj]
    exact StateP2p.ofCode_eq_some_iff
  clientFd_eq := fun _ => rfl

theorem peerListener_packsHalves : PacksHalves peerListener where
  code_lt := ClP2pState.code_lt
  make_eq := fun _ _ => rfl
  eventType_iff := by
    intro requestData flag
    rw [← BitVec.toNat_inj]
    exact ClP2pState.ofCode_eq_some_iff
  clientFd_eq := fun _ => rfl

/-- In every copy and for every flag the tag of a socket number is lossless exactly when the
number is not negative. The copies compute the same values for all numbers. -/
theorem request_tags_lossless_iff (clientFd : Fd) :
    (∀ flag, Lossless server clientFd flag ↔ 0 ≤ clientFd.toInt) ∧
    (∀ flag, Lossless peerServer clientFd flag ↔ 0 ≤ clientFd.toInt) ∧
    (∀ flag, Lossless peerListener clientFd flag ↔ 0 ≤ clientFd.toInt) ∧
    Agree server peerServer ∧ Agree server peerListener ∧ Agree peerServer peerListener :=
  ⟨fun _ => server_packsHalves.lossless_iff, fun _ => peerServer_packsHalves.lossless_iff,
    fun _ => peerListener_packsHalves.lossless_iff,
    server_packsHalves.agree peerServer_packsHalves,
    server_packsHalves.agree peerListener_packsHalves,
    peerServer_packsHalves.agree peerListener_packsHalves⟩

/-- `EMFILE`, as a failed accept returns it. -/
def emfile : Fd := BitVec.ofInt 32 (-24)

/-- The tag that a server makes after an accept that failed does not tell which state it is for:
another flag gives the same tag, and no case label matches it. -/
theorem failed_accept_loses_tag :
    server.makeRequestData emfile .readResponse =
      server.makeRequestData emfile .flagCloseConnection ∧
    server.requestDataEventType (server.makeRequestData emfile .readResponse) = none ∧
    ¬ Lossless server emfile .readResponse ∧
    peerServer.makeRequestData emfile .flagWaitPong =
      peerServer.makeRequestData emfile .flagReadResponse ∧
    ¬ Lossless peerServer emfile .flagWaitPong := by
  refine ⟨by decide, by decide, ?_, by decide, ?_⟩
  · rw [server_packsHalves.lossless_iff]
    decide
  · rw [peerServer_packsHalves.lossless_iff]
    decide

end CBlockchain.RequestTags
