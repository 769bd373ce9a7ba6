import CBlockchain.Transfer

/-! The joint states of the server and one client. On an open connection there is one
frame under way at any time, carried from side to side: a question of the server, then
the client's reply. A connection that the server closed before its client had finished
keeps what it had; whatever of it the server still sees is one of the replies. -/
namespace CBlockchain.Transfer
open ConnectionHandlers DataHandlers EventLoop ReceiveLoop RequestData Serdes

/-- The client holds the first `k` slots of the server's buffer. -/
structure Taken (cbuf : CircBuf) (k : ℕ) (cl : Client) : Prop where
  stored : cl.stored = k
  length : cl.msgArr.length = 512
  room : ∀ slot ∈ cl.msgArr, slot.message.length = 512
  held : ∀ j < k, ∃ slot m, cl.msgArr[j]? = some slot ∧ slotMsg cbuf j = some m ∧
    SameContent slot m

/-- The server's request before the reply: its send is outstanding or completed, or it
receives. -/
inductive Awaiting (fd : Fd) : List Op → Prop
  | sending {data : List UInt8} (hne : data ≠ []) :
      Awaiting fd [.pending (.send fd data (makeRequestData fd .readResponse))]
  | sent {res : BitVec 32} (hres : res ≠ 0) :
      Awaiting fd [.posted ⟨makeRequestData fd .readResponse, res, []⟩]
  | receiving : Awaiting fd [.pending (.recv fd (makeRequestData fd .testResponse))]

inductive Closing (fd : Fd) : List Op → Prop
  | pending : Closing fd [.pending (.unprepared (makeRequestData fd .flagCloseConnection))]
  | posted (res : BitVec 32) :
      Closing fd [.posted ⟨makeRequestData fd .flagCloseConnection, res, []⟩]
  | handled : Closing fd []

section Joint
variable (codec : Codec) (cbuf : CircBuf)

/-- A frame for a client that holds `k` messages, with the counter the server has then. -/
inductive Question (k : ℕ) : ℕ → List UInt8 → Prop
  | ask (stamp : Stamp) : Question k k (sendOnlyStatusCode codec stamp .askNeedMsg)
  | message (stamp : Stamp) {m : SignedMessage} (slot : slotMsg cbuf k = some m) :
      Question k (k + 1) (serializeDataV2 codec stamp m)

/-- The client is in its loop and holds `k < 512` messages. -/
structure Partway (k : ℕ) (cl : Client) : Prop where
  lt : k < 512
  count : cl.count = k
  taken : Taken cbuf k cl

structure Complete (cl : Client) : Prop where
  phase : cl.phase ≠ .receiving
  quiet : unreadFrames cl = 0
  taken : Taken cbuf 512 cl

/-- A frame the client has sent, with the server's counter. -/
inductive Reply (cl : Client) : ℕ → List UInt8 → Prop
  | needMore (stamp : Stamp) {k : ℕ} (waits : Waiting cl) (part : Partway cbuf k cl) :
      Reply cl k (sendOnlyStatusCode codec stamp .needMore)
  | acknOk (stamp : Stamp) {k : ℕ} (waits : Waiting cl) (part : Partway cbuf k cl) :
      Reply cl k (sendOnlyStatusCode codec stamp .acknOk)
  | enough (stamp : Stamp) (complete : Complete cbuf cl) :
      Reply cl 512 (sendOnlyStatusCode codec stamp .enough)

/-- The joint states: where the frame is, and what stands behind it. -/
inductive Exchange (fd : Fd) (fin : Prop) (b : ℕ) (ops : List Op) (link : Link) : Prop
  | toClient {k : ℕ} {f : List UInt8} (isOpen : link.isOpen = true) (waits : Awaiting fd ops)
      (question : Question codec cbuf k b f) (idle : Waiting link.client)
      (part : Partway cbuf k link.client) (out : link.toClient = [f]) (back : link.toServer = [])
  | atClient {k : ℕ} {f : List UInt8} (isOpen : link.isOpen = true) (waits : Awaiting fd ops)
      (question : Question codec cbuf k b f) (unread : Unread f link.client)
      (part : Partway cbuf k link.client) (out : link.toClient = []) (back : link.toServer = [])
  | toServer {g : List UInt8} (isOpen : link.isOpen = true) (waits : Awaiting fd ops)
      (reply : Reply codec cbuf link.client b g) (out : link.toClient = [])
      (back : link.toServer = [g])
  | atServer {g : List UInt8} {res : BitVec 32} (isOpen : link.isOpen = true)
      (arrived : ops = [.posted ⟨makeRequestData fd .testResponse, res, g⟩]) (hres : 0 < res.toInt)
      (reply : Reply codec cbuf link.client b g) (out : link.toClient = [])
      (back : link.toServer = [])
  | finished (closing : Closing fd ops) (complete : Complete cbuf link.client) (done : fin)
      (out : link.toClient = []) (back : link.toServer = [])

/-- A frame the server may still see from a client with `stored` messages. -/
inductive LateFrame (stored : ℕ) : List UInt8 → Prop
  | needMore (stamp : Stamp) : LateFrame stored (sendOnlyStatusCode codec stamp .needMore)
  | acknOk (stamp : Stamp) : LateFrame stored (sendOnlyStatusCode codec stamp .acknOk)
  | enough (stamp : Stamp) (all : stored = 512) :
      LateFrame stored (sendOnlyStatusCode codec stamp .enough)

/-- The requests of the server on a connection it has closed. -/
inductive LateOp (fd : Fd) (stored : ℕ) : Op → Prop
  | sending (data : List UInt8) :
      LateOp fd stored (.pending (.send fd data (makeRequestData fd .readResponse)))
  | sent (res : BitVec 32) : LateOp fd stored (.posted ⟨makeRequestData fd .readResponse, res, []⟩)
  | receiving : LateOp fd stored (.pending (.recv fd (makeRequestData fd .testResponse)))
  | received (res : BitVec 32) {g : List UInt8} (frame : LateFrame codec stored g) :
      LateOp fd stored (.posted ⟨makeRequestData fd .testResponse, res, g⟩)
  | ended {res : BitVec 32} (hres : res.toInt ≤ 0) :
      LateOp fd stored (.posted ⟨makeRequestData fd .testResponse, res, []⟩)
  | closing (op : Op) (ops : Closing fd [op]) : LateOp fd stored op

/-- A connection closed before its client had finished. -/
structure Abandoned (fd : Fd) (ops : List Op) (link : Link) : Prop where
  closed : link.isOpen = false
  taken : Taken cbuf link.client.stored link.client
  ops : ∀ op ∈ ops, LateOp codec fd link.client.stored op
  frames : link.toServer = [] ∨ ∃ g, link.toServer = [g] ∧ LateFrame codec link.client.stored g

end Joint

inductive RefusedOp (fd : Fd) : Op → Prop
  | sending (data : List UInt8) :
      RefusedOp fd (.pending (.send fd data (makeRequestData fd .readResponse)))
  | sent (res : BitVec 32) : RefusedOp fd (.posted ⟨makeRequestData fd .readResponse, res, []⟩)

/-- What holds for one socket number, with the server's counter, requests and connection. -/
inductive FdOk (codec : Codec) (cbuf : CircBuf) (fd : Fd) (fin other : Prop) (b : ℕ)
    (ops : List Op) : Option Link → Prop
  | unused (sign : fd.msb = false) (idle : ops = []) (counter : b = 0) :
      FdOk codec cbuf fd fin other b ops none
  | refused (sign : fd.msb = true) (all : ∀ op ∈ ops, RefusedOp fd op) :
      FdOk codec cbuf fd fin other b ops none
  | exchange {link : Link} (sign : fd.msb = false)
      (joint : Exchange codec cbuf fd fin b ops link) :
      FdOk codec cbuf fd fin other b ops (some link)
  | abandoned {link : Link} (sign : fd.msb = false) (late : Abandoned codec cbuf fd ops link)
      (others : other) : FdOk codec cbuf fd fin other b ops (some link)

namespace Net

def Finished (net : Net) (fd : Fd) : Prop := ∃ hash, (fd, hash) ∈ net.roots

def Other (net : Net) (fd : Fd) : Prop := ∃ fd' ≠ fd, net.links fd' ≠ none

def Ok (codec : Codec) (net : Net) (fd : Fd) : Prop :=
  FdOk codec net.server.cbuf fd (net.Finished fd) (net.Other fd) (net.server.befferSendedN fd)
    (net.ops fd) (net.links fd)

end Net

/-- The Merkle root of the full buffer. -/
def IsBlockRoot (pf : Platform) (cbuf : CircBuf) (hash : Digest) : Prop :=
  ∃ msg : ℕ → SignedMessage, (∀ i < 512, slotMsg cbuf i = some (msg i)) ∧
    hash = PerfectTree.root (Hashing.calcHash pf.H) (Hashing.merge2hashses pf.H) 9 msg

/-- The invariant: a buffer that has not wrapped around, every socket number in one of
the joint states, and all printed roots those of the full buffer. -/
structure Sound (pf : Platform) (net : Net) : Prop where
  ready : Ready net.server.cbuf
  fd : ∀ fd, net.Ok pf.codec fd
  roots : ∀ e ∈ net.roots, IsBlockRoot pf net.server.cbuf e.2

section Growth
variable {codec : Codec} {cbuf cbuf' : CircBuf} {cl : Client} {k b : ℕ} {f : List UInt8}

theorem IsBlockRoot.grow {pf : Platform} {hash : Digest} (h : IsBlockRoot pf cbuf hash)
    (hg : Grows cbuf cbuf') : IsBlockRoot pf cbuf' hash := by
  obtain ⟨msg, hmsg, hroot⟩ := h
  exact ⟨msg, fun i hi => hg i _ (hmsg i hi), hroot⟩

theorem Taken.slots (h : Taken cbuf 512 cl) : ∀ i < 512, ∃ m, slotMsg cbuf i = some m := by
  intro i hi
  obtain ⟨_, m, -, hm, -⟩ := h.held i hi
  exact ⟨m, hm⟩

theorem Taken.grow (h : Taken cbuf k cl) (hg : Grows cbuf cbuf') : Taken cbuf' k cl where
  stored := h.stored
  length := h.length
  room := h.room
  held := fun j hj => by
    obtain ⟨slot, m, hs, hm, hsame⟩ := h.held j hj
    exact ⟨slot, m, hs, hg j m hm, hsame⟩

theorem Partway.grow (h : Partway cbuf k cl) (hg : Grows cbuf cbuf') : Partway cbuf' k cl :=
  ⟨h.lt, h.count, h.taken.grow hg⟩

theorem Complete.grow (h : Complete cbuf cl) (hg : Grows cbuf cbuf') : Complete cbuf' cl :=
  ⟨h.phase, h.quiet, h.taken.grow hg⟩

theorem Question.grow (h : Question codec cbuf k b f) (hg : Grows cbuf cbuf') :
    Question codec cbuf' k b f := by
  cases h with
  | ask stamp => exact .ask stamp
  | message stamp slot => exact .message stamp (hg _ _ slot)

theorem Reply.grow (h : Reply codec cbuf cl b f) (hg : Grows cbuf cbuf') :
    Reply codec cbuf' cl b f := by
  cases h with
  | needMore stamp waits part => exact .needMore stamp waits (part.grow hg)
  | acknOk stamp waits part => exact .acknOk stamp waits (part.grow hg)
  | enough stamp complete => exact .enough stamp (complete.grow hg)

theorem Exchange.grow {fd : Fd} {fin fin' : Prop} {ops : List Op} {link : Link}
    (h : Exchange codec cbuf fd fin b ops link) (hg : Grows cbuf cbuf') (hfin : fin → fin') :
    Exchange codec cbuf' fd fin' b ops link := by
  cases h with
  | toClient isOpen waits question idle part out back =>
    exact .toClient isOpen waits (question.grow hg) idle (part.grow hg) out back
  | atClient isOpen waits question unread part out back =>
    exact .atClient isOpen waits (question.grow hg) unread (part.grow hg) out back
  | toServer isOpen waits reply out back => exact .toServer isOpen waits (reply.grow hg) out back
  | atServer isOpen arrived hres reply out back =>
    exact .atServer isOpen arrived hres (reply.grow hg) out back
  | finished closing complete done out back =>
    exact .finished closing (complete.grow hg) (hfin done) out back

theorem Abandoned.grow {fd : Fd} {ops : List Op} {link : Link}
    (h : Abandoned codec cbuf fd ops link) (hg : Grows cbuf cbuf') :
    Abandoned codec cbuf' fd ops link :=
  ⟨h.closed, h.taken.grow hg, h.ops, h.frames⟩

theorem FdOk.grow {fd : Fd} {fin fin' other other' : Prop} {ops : List Op} {l : Option Link}
    (h : FdOk codec cbuf fd fin other b ops l) (hg : Grows cbuf cbuf') (hfin : fin → fin')
    (hother : other → other') : FdOk codec cbuf' fd fin' other' b ops l := by
  cases h with
  | unused sign idle counter => exact .unused sign idle counter
  | refused sign all => exact .refused sign all
  | exchange sign joint => exact .exchange sign (joint.grow hg hfin)
  | abandoned sign late others => exact .abandoned sign (late.grow hg) (hother others)

end Growth
end CBlockchain.Transfer
