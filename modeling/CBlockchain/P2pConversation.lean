import CBlockchain.Amortized
import CBlockchain.P2pReceipt

/-! How long two peers talk. Every step of the conversation is paid for, but for the answer
that the block is not ready, after which the listener asks again. So once the block is there
the conversation comes to an end. -/
namespace CBlockchain.P2pConversation
open Amortized BlockData ClientLoop P2pDelivery P2pEventLoop P2pExchange P2pListen P2pReceipt
open P2pSerdes
open Transfer (Op ofNat_toInt singleton_split singleton_front)
variable {codec : P2pCodec} {block : Block} {socks : Sockets} {p p' : Pair}

section Costs
variable (codec)

/-- The steps that follow once the listener has received a status. -/
def offerCost : P2pStatus → ℕ
  | .ping => 19
  | .ok | .blockNotReady => 11
  | _ => 1

/-- The steps that follow once the server has received a status. -/
def answerCost : P2pStatus → ℕ
  | .pong => 15
  | .askIfBlockReady => 7
  | _ => 1

/-- Nobody waits for the finish. -/
def offeredCost (frame : List UInt8) : ℕ :=
  match p2pDeserializeStatus codec frame with
  | some .finish => 0
  | some st => offerCost st + 1
  | none => 0

def answeredCost (frame : List UInt8) : ℕ :=
  match p2pDeserializeStatus codec frame with
  | some st => answerCost st + 1
  | none => 0

def serverCost : Op → ℕ
  | .pending (.send _ _ d) =>
    if P2pEventLoop.requestDataEventType d = some .flagBlockSended then 4 else 2
  | .pending _ => 0
  | .posted cqe =>
    match P2pEventLoop.requestDataEventType cqe.userData with
    | some .flagBlockSended => 3
    | some .flagTestResponse => ((p2pDeserializeStatus codec cqe.data).map answerCost).getD 1
    | _ => 1

def listenerCost : Op → ℕ
  | .pending (.send _ _ _) => 2
  | .pending _ => 0
  | .posted cqe =>
    match P2pListen.requestDataEventType cqe.userData with
    | some .processResponse => ((p2pDeserializeStatus codec cqe.data).map offerCost).getD 1
    | _ => 1

/-- The zeroed entry completes and is handled. -/
def startCost : Op → ℕ
  | .pending _ => 2
  | .posted _ => 1

def startOpsCost (ops : List Op) : ℕ := (ops.map startCost).sum

def serverOpsCost (ops : List Op) : ℕ := (ops.map (serverCost codec)).sum

def listenerOpsCost (ops : List Op) : ℕ := (ops.map (listenerCost codec)).sum

def potential (p : Pair) : ℕ :=
  startOpsCost p.startOps + serverOpsCost codec p.serverOps + listenerOpsCost codec p.listenerOps +
    (p.toListener.map (offeredCost codec)).sum + (p.toServer.map (answeredCost codec)).sum

end Costs

section Values
variable {date : CString} {fd s : Fd} {st : P2pStatus} {res : BitVec 32} {data : List UInt8}
  {d : BitVec 64}

end Values

section Waiting
variable (codec) {fd s : Fd} {ops l₁ l₂ : List Op} {sqe : Sqe} {cqe : Cqe}
  {frames rest : List (List UInt8)}

end Waiting
section Steps
variable {l₁ l₂ : List Op} {sqe : Sqe} {cqe : Cqe} {rest : List (List UInt8)} {date : CString}

/-- The server has answered that the block is not ready. -/
def Refused (codec : P2pCodec) (p p' : Pair) : Prop :=
  ∃ date, p'.toListener = p.toListener ++ [p2pSendStatus codec date .blockNotReady]

end Steps

section Bound
variable {date : CString} {n a : ℕ}

def Works (codec : P2pCodec) (block : Block) (s : Fd) (p p' : Pair) : Prop :=
  Step codec block s p p' ∧ ¬ Refused codec p p'

structure Talks (codec : P2pCodec) (block : Block) (socks : Sockets) (p : Pair) : Prop where
  starts : Starts p.startOps
  exchange : Exchange codec block socks p
  receipt : Receipt codec block p

theorem Talks.step (h : Talks codec block socks p) (hstep : Step codec block socks.s p p') :
    Talks codec block socks p' where
  starts := step_starts h.starts hstep
  exchange := step_exchange h.starts h.exchange hstep
  receipt := step_receipt h.starts h.exchange h.receipt hstep

end Bound
end CBlockchain.P2pConversation
