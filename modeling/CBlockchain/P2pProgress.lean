import CBlockchain.P2pConversation

/-! What two peers can rely on. Each understands what it receives, and until the finish has
overtaken the block the listener can still receive it. -/
namespace CBlockchain.P2pProgress
open Amortized BlockData ClientLoop P2pConversation P2pDelivery P2pEventLoop P2pExchange P2pListen
open P2pReceipt P2pSerdes
open Transfer (Op ofNat_toInt singleton_split singleton_front)
variable {codec : P2pCodec} {block : Block} {socks : Sockets} {p p' : Pair}

section Understanding

end Understanding

section Progress
variable {l₁ l₂ : List Op} {date : CString} {sh : Shared} {frame : List UInt8}
  {rest : List (List UInt8)}

/-- The frames under way fit a receive. -/
structure FramesFit (p : Pair) : Prop where
  toListener : ∀ f ∈ p.toListener, f.length ≤ 4096
  toServer : ∀ f ∈ p.toServer, f.length ≤ 4096
  serverSends : ∀ fd f d, .pending (.send fd f d) ∈ p.serverOps → f.length ≤ 4096
  listenerSends : ∀ fd f d, .pending (.send fd f d) ∈ p.listenerOps → f.length ≤ 4096

/-- The finish has overtaken the block: the listener has received none, and has no request
outstanding but for a receive that returned the finish. -/
def Lost (codec : P2pCodec) (p : Pair) : Prop :=
  p.listener.received = [] ∧ ∀ op ∈ p.listenerOps, ∃ cqe, op = .posted cqe ∧
    P2pListen.requestDataEventType cqe.userData = some .processResponse ∧
    p2pDeserializeStatus codec cqe.data = some .finish

def Advances (codec : P2pCodec) (block : Block) (s : Fd) (p : Pair) : Prop :=
  ∃ p', Works codec block s p p' ∧ FramesFit p' ∧ ¬ Lost codec p'

end Progress
end CBlockchain.P2pProgress
