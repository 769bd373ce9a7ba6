import CBlockchain.Decoders
import CBlockchain.EventLoop
import CBlockchain.P2pEventLoop
import CBlockchain.P2pListen
import CBlockchain.ReceiveLoop

/-! What the decoders and the loops around them do with bytes that `unpack` rejects. The
result of a completion goes to the decoder as its length, also when it is 0 or an error;
two of the four loops look at it first. -/
namespace CBlockchain.MalformedInput
open Decoders

/-- The bytes a decoder hands to the library when it is called with the result of a
completion: `res` as a length of `w` bits, from the start of the buffer on. -/
def handed (w : ℕ) (memory : ℕ → UInt8) (res : BitVec 32) : List UInt8 :=
  (List.range (res.signExtend w).toNat).map memory

/-- The decoder comes back, whatever it reports, and has not read through the null
pointer. -/
structure RejectsSafely {α : Type} (r : Traced DecodeEvent α) : Prop where
  returns : ∃ a, r.result = some a
  untouched : .nullField ∉ r.trace

/-- A decoder that has just read through the null pointer. -/
def crashed {α : Type} : Traced DecodeEvent α := ⟨[.nullField], none⟩

theorem not_rejectsSafely_crashed {α : Type} :
    ¬ RejectsSafely (crashed : Traced DecodeEvent α) := by
  intro h
  obtain ⟨a, ha⟩ := h.returns
  cases ha

section Decoders
variable {codec : Codec} {p2p : P2pCodec} {buf : List UInt8}

theorem readStatus_rejected (h : codec.unpack buf = none) (logging : Bool) :
    readStatus codec logging buf = crashed := by
  rw [readStatus, h]
  cases logging <;> rfl

theorem deserializeDataFromServer_rejected (h : codec.unpack buf = none) (msg : SignedMessage) :
    deserializeDataFromServer codec buf msg = crashed := by
  rw [deserializeDataFromServer, h]
  rfl

theorem p2pDeserializeStatus_rejected (h : p2p.unpack buf = none) :
    p2pDeserializeStatus p2p buf = crashed := by
  rw [p2pDeserializeStatus, h]
  rfl

theorem deserializeBlock_rejected (h : p2p.unpack buf = none)
    (dateOf : (m : P2pIpcMessage) → StringObject m.date) (behind : ℕ → UInt8) :
    deserializeBlock p2p dateOf behind buf = crashed := by
  rw [deserializeBlock, h]
  rfl

end Decoders

section Loops

/-- The client decodes whatever its receive returned. -/
theorem clientTurn_rejected {codec : Codec} {cl : Client} {cqe : ClientCqe}
    (hcqe : cl.posted[cl.seen]? = some cqe)
    (h : ∀ data, ReceiveLoop.bufferBytes cl cqe.res = some data → codec.unpack data = none)
    (stamp : Serdes.Stamp) : ReceiveLoop.clientTurn codec stamp cl = none := by
  rw [ReceiveLoop.clientTurn, hcqe]
  cases hdata : ReceiveLoop.bufferBytes cl cqe.res with
  | none => simp [hdata]
  | some data => simp [hdata, Serdes.readOnlyStatusResponse, h data hdata]

/-- The server decodes a positive result only. -/
theorem eventLoopStep_rejected {pf : Platform} {fd : Fd}
    {data : List UInt8} (hfd : fd.msb = false) (h : pf.codec.unpack data = none)
    (stamp : Serdes.Stamp) (res : BitVec 32) (s : Server) :
    EventLoop.eventLoopStep pf stamp ⟨RequestData.makeRequestData fd .testResponse, res, data⟩ s =
      if 0 < res.toInt then none else some (s, []) := by
  rw [EventLoop.step_received hfd, Serdes.readOnlyStatusResponse, h]
  rfl

theorem eventLoopP2pStep_rejected {p2p : P2pCodec} {fd : Fd} {data : List UInt8}
    (hfd : fd.msb = false) (h : p2p.unpack data = none) (date : CString)
    (sh : ClientLoop.Shared) (res : BitVec 32) :
    P2pEventLoop.eventLoopP2pStep p2p date sh
        ⟨P2pEventLoop.makeRequestData fd .flagTestResponse, res, data⟩ =
      if 0 < res.toInt then none else some [] := by
  rw [P2pEventLoop.step_testResponse hfd, P2pSerdes.p2pDeserializeStatus_eq, h]
  rfl

/-- The listening peer decodes whatever its receive returned. -/
theorem setupP2pListeningStep_rejected {p2p : P2pCodec} {s : Fd} {data : List UInt8}
    (hs : s.msb = false) (h : p2p.unpack data = none) (date : CString) (behind : ℕ → UInt8)
    (res : BitVec 32) (l : P2pListen.Listener) :
    P2pListen.setupP2pListeningStep p2p date behind s
      ⟨P2pListen.makeRequestData s .processResponse, res, data⟩ l = none := by
  rw [P2pListen.step_processResponse hs, P2pSerdes.p2pDeserializeStatus_eq, h]
  rfl

end Loops

/-- No decoder rejects safely, whatever the bytes and the result of the completion: each one
that is handed what the library rejects reads through the null pointer. So the client's
loop and the listening peer fail on every rejected completion, the two servers on every one
with a positive result; with any other result these leave their state as it is. -/
theorem malformed_never_rejected_safely (codec : Codec) (p2p : P2pCodec) (memory : ℕ → UInt8)
    (res : BitVec 32) :
    (codec.unpack (handed 64 memory res) = none → ∀ logging,
      ¬ RejectsSafely (readOnlyStatusResponse codec logging (handed 64 memory res)) ∧
      ¬ RejectsSafely (readResponseOnlyStatus codec logging (handed 64 memory res))) ∧
    (codec.unpack (handed 32 memory res) = none → ∀ msg,
      ¬ RejectsSafely (deserializeDataFromServer codec (handed 32 memory res) msg)) ∧
    (p2p.unpack (handed 32 memory res) = none →
      ¬ RejectsSafely (p2pDeserializeStatus p2p (handed 32 memory res)) ∧
      ∀ dateOf behind,
        ¬ RejectsSafely (deserializeBlock p2p dateOf behind (handed 32 memory res))) ∧
    (∀ cl cqe stamp, cl.posted[cl.seen]? = some cqe →
      (∀ data, ReceiveLoop.bufferBytes cl cqe.res = some data → codec.unpack data = none) →
        ReceiveLoop.clientTurn codec stamp cl = none) ∧
    (∀ data, p2p.unpack data = none → ∀ s : Fd, s.msb = false → ∀ date behind l,
      P2pListen.setupP2pListeningStep p2p date behind s
        ⟨P2pListen.makeRequestData s .processResponse, res, data⟩ l = none) ∧
    (∀ pf : Platform, ∀ data, pf.codec.unpack data = none → ∀ fd : Fd, fd.msb = false →
      ∀ stamp s, EventLoop.eventLoopStep pf stamp
        ⟨RequestData.makeRequestData fd .testResponse, res, data⟩ s =
          if 0 < res.toInt then none else some (s, [])) ∧
    ∀ data, p2p.unpack data = none → ∀ fd : Fd, fd.msb = false → ∀ date sh,
      P2pEventLoop.eventLoopP2pStep p2p date sh
        ⟨P2pEventLoop.makeRequestData fd .flagTestResponse, res, data⟩ =
          if 0 < res.toInt then none else some [] := by
  refine ⟨?_, ?_, ?_, ?_, ?_, ?_, ?_⟩
  · intro h logging
    rw [readOnlyStatusResponse, readResponseOnlyStatus, readStatus_rejected h]
    exact ⟨not_rejectsSafely_crashed, not_rejectsSafely_crashed⟩
  · intro h msg
    rw [deserializeDataFromServer_rejected h]
    exact not_rejectsSafely_crashed
  · intro h
    constructor
    · rw [p2pDeserializeStatus_rejected h]
      exact not_rejectsSafely_crashed
    · intro dateOf behind
      rw [deserializeBlock_rejected h]
      exact not_rejectsSafely_crashed
  · intro cl cqe stamp hcqe h
    exact clientTurn_rejected hcqe h stamp
  · intro data h s hs date behind l
    exact setupP2pListeningStep_rejected hs h date behind res l
  · intro pf data h fd hfd stamp s
    exact eventLoopStep_rejected hfd h stamp res s
  · intro data h fd hfd date sh
    exact eventLoopP2pStep_rejected hfd h date sh res

section ClosedConnection

/-- A receive that returns 0 hands no bytes on. -/
theorem handed_zero (w : ℕ) (memory : ℕ → UInt8) : handed w memory 0 = [] := by
  simp [handed, BitVec.signExtend]

theorem wireCodec_unpack_nil : wireCodec.unpack [] = none := by decide

theorem p2pWireCodec_unpack_nil : p2pWireCodec.unpack [] = none := by decide

theorem malformed_at_closed_connection :
    wireCodec.unpack (handed 64 (fun _ => 0) 0) = none ∧
    ¬ RejectsSafely (readResponseOnlyStatus wireCodec false (handed 64 (fun _ => 0) 0)) ∧
    ¬ RejectsSafely (p2pDeserializeStatus p2pWireCodec (handed 32 (fun _ => 0) 0)) := by
  obtain ⟨hstatus, -, hp2p, -⟩ :=
    malformed_never_rejected_safely wireCodec p2pWireCodec (fun _ => 0) 0
  simp only [handed_zero] at hstatus hp2p ⊢
  exact ⟨wireCodec_unpack_nil, (hstatus wireCodec_unpack_nil false).2,
    (hp2p p2pWireCodec_unpack_nil).1⟩

/-- The server closes the connection: the client's receive returns 0, its status reader reads
the status through the null pointer, and the turn of its loop does not end. -/
theorem closed_connection_crashes :
    wireCodec.unpack (handed 64 (fun _ => 0) 0) = none ∧
    readResponseOnlyStatus wireCodec false (handed 64 (fun _ => 0) 0) =
      ⟨[.nullField], none⟩ ∧
    ¬ RejectsSafely (readResponseOnlyStatus wireCodec false (handed 64 (fun _ => 0) 0)) ∧
    ∀ stamp, ReceiveLoop.clientTurn wireCodec stamp
      (ReceiveLoop.receive [] ReceiveLoop.connectedClient) = none := by
  have hcrash : readResponseOnlyStatus wireCodec false [] = crashed :=
    readStatus_rejected wireCodec_unpack_nil false
  rw [handed_zero, hcrash]
  refine ⟨wireCodec_unpack_nil, rfl, not_rejectsSafely_crashed, ?_⟩
  intro stamp
  have hcqe : (ReceiveLoop.receive [] ReceiveLoop.connectedClient).posted[
      (ReceiveLoop.receive [] ReceiveLoop.connectedClient).seen]? = some ⟨true, 0⟩ := rfl
  apply clientTurn_rejected hcqe
  intro data hdata
  obtain rfl : data = [] := by simpa [ReceiveLoop.bufferBytes] using hdata.symm
  exact wireCodec_unpack_nil

end ClosedConnection
end CBlockchain.MalformedInput
