import CBlockchain.EventLoop
import CBlockchain.ReceiveLoop

/-! The message server and any number of clients. Each client has a socket number of its
own. Requests complete, completions are handled, frames are delivered and clients take
turns in any order. A stream keeps no frame boundaries: a receive may return several
frames run together. A client whose connection the server has closed receives and sends
nothing more. In the protocol of this module the unprepared request of `FINISH_SENDING`
does nothing; what it does in the server's ring is the subject of `RingTransfer`. -/
namespace CBlockchain.Transfer
open ConnectionHandlers DataHandlers EventLoop ReceiveLoop RequestData Serdes
variable (pf : Platform)

/-- A request of the server, outstanding or completed and waiting in its ring. -/
inductive Op where
  | pending (sqe : Sqe)
  | posted (cqe : Cqe)

theorem singleton_split {α : Type*} {x y : α} {l₁ l₂ : List α} (h : [x] = l₁ ++ y :: l₂) :
    l₁ = [] ∧ x = y ∧ l₂ = [] := by
  cases l₁ with
  | nil =>
    rw [List.nil_append, List.cons.injEq] at h
    exact ⟨rfl, h.1, h.2.symm⟩
  | cons a l₁ => simp at h

theorem singleton_front {α : Type*} {x : α} {gs rest : List α} (h : [x] = gs ++ rest)
    (hne : gs ≠ []) : gs = [x] ∧ rest = [] := by
  obtain ⟨y, gs, rfl⟩ := List.exists_cons_of_ne_nil hne
  rw [List.cons_append, List.cons.injEq] at h
  obtain ⟨rfl, rfl⟩ := List.append_eq_nil_iff.mp h.2.symm
  exact ⟨by rw [h.1], rfl⟩

theorem ofNat_toInt {n : ℕ} (hn : n ≤ 4096) : (BitVec.ofNat 32 n).toInt = n := by
  rw [BitVec.toInt_eq_toNat_of_lt]
  · rw [BitVec.toNat_ofNat, Nat.mod_eq_of_lt (by omega)]
  · rw [BitVec.toNat_ofNat, Nat.mod_eq_of_lt (by omega)]
    omega

/-- One connection: the frames under way in each direction, and the client's loop. -/
structure Link where
  isOpen : Bool
  toClient : List (List UInt8)
  toServer : List (List UInt8)
  client : Client

def zeroBuffer : List UInt8 := List.replicate 4096 0

/-- `roots` lists the Merkle roots the server printed, with the clients that had finished;
`entries` the requests it has submitted; `buffers` are the client buffers it packs frames
into and receives into. -/
structure Net where
  server : Server
  accepts : ℕ
  ops : Fd → List Op
  links : Fd → Option Link
  roots : List (Fd × Digest)
  entries : List Sqe
  buffers : Fd → List UInt8

namespace Net

@[simp] def enter (net : Net) (sqe : Sqe) : Net := { net with entries := net.entries ++ [sqe] }

def addOp (net : Net) (fd : Fd) (sqe : Sqe) : Net :=
  { net.enter sqe with ops := Function.update net.ops fd (net.ops fd ++ [.pending sqe]) }

/-- Bytes written to the front of a client buffer. -/
@[simp] def fill (net : Net) (fd : Fd) (data : List UInt8) : Net :=
  { net with buffers := Function.update net.buffers fd (memcpy data.length (net.buffers fd) data) }

@[simp] def clear (net : Net) (fd : Fd) : Net :=
  { net with buffers := Function.update net.buffers fd zeroBuffer }

theorem fill_of_ne (net : Net) {fd fd' : Fd} (hne : fd' ≠ fd) (data : List UInt8) :
    (net.fill fd data).buffers fd' = net.buffers fd' := Function.update_of_ne hne _ _

theorem take_fill (net : Net) (fd : Fd) (data : List UInt8) :
    ((net.fill fd data).buffers fd).take data.length = data := by
  simp [fill, memcpy]

def onLink (net : Net) (fd : Fd) (f : Link → Link) : Net :=
  { net with links := Function.update net.links fd ((net.links fd).map f) }

end Net

/-- A frame handed to the kernel is under way unless the connection is closed. -/
def Link.push (frame : List UInt8) (link : Link) : Link :=
  if link.isOpen then { link with toClient := link.toClient ++ [frame] } else link

def Link.shut (link : Link) : Link := { link with isOpen := false }

/-- The buffer is cleared before a message is packed into it. -/
def perform (net : Net) : Effect → Net
  | .submit (.accept d) => { net.enter (.accept d) with accepts := net.accepts + 1 }
  | .submit (.send fd data d) =>
    ((net.fill fd data).addOp fd (.send fd data d)).onLink fd (Link.push data)
  | .submit (.recv fd d) => net.addOp fd (.recv fd d)
  | .submit (.unprepared d) => net.addOp (requestDataClientFd d) (.unprepared d)
  | .serve fd _ _ => net.clear fd
  | .merkleRoot fd hash => { net with roots := net.roots ++ [(fd, hash)] }
  | .shutdownClose fd => net.onLink fd Link.shut

def ClosedLink (l : Option Link) : Prop := ∀ link, l = some link → link.isOpen = false

/-- How a request on a socket completes, given the connection there. A send reports its
length and a receive returns one or more whole frames that fit the buffer; on a closed or
missing connection a send may report anything and a receive may end without data. -/
inductive Completes : Option Link → Sqe → Cqe → Option Link → Prop
  | sent {link : Link} {fd : Fd} {data : List UInt8} {d : BitVec 64} {res : BitVec 32}
      (isOpen : link.isOpen = true) (hres : res.toInt = data.length) :
      Completes (some link) (.send fd data d) ⟨d, res, []⟩ (some link)
  | unsent {l : Option Link} {fd : Fd} {data : List UInt8} {d : BitVec 64} (res : BitVec 32)
      (closed : ClosedLink l) : Completes l (.send fd data d) ⟨d, res, []⟩ l
  | received {link : Link} {fd : Fd} {d : BitVec 64} {res : BitVec 32} {gs rest : List (List UInt8)}
      (next : link.toServer = gs ++ rest) (hne : gs ≠ []) (fits : gs.flatten.length ≤ 4096)
      (hres : res.toInt = gs.flatten.length) :
      Completes (some link) (.recv fd d) ⟨d, res, gs.flatten⟩ (some { link with toServer := rest })
  | ended {l : Option Link} {fd : Fd} {d : BitVec 64} {res : BitVec 32}
      (closed : ClosedLink l) (hres : res.toInt ≤ 0) : Completes l (.recv fd d) ⟨d, res, []⟩ l
  | unprepared {l : Option Link} {d : BitVec 64} (res : BitVec 32) :
      Completes l (.unprepared d) ⟨d, res, []⟩ l

def framesToServer (sent : List (Target × List UInt8)) : List (List UInt8) :=
  sent.filterMap fun p =>
    match p.1 with
    | .server => some p.2
    | .socket _ => none

inductive Step : Net → Net → Prop
  | accepted {net : Net} {server : Server} {effects : List Effect} {n : ℕ} (stamp : Stamp) {fd : Fd}
      (outstanding : net.accepts = n + 1) (sign : fd.msb = false) (unused : net.links fd = none)
      (turn : eventLoopStep pf stamp ⟨makeRequestData 0 .flagAccept, fd, []⟩ net.server =
        some (server, effects)) :
      Step net (effects.foldl perform { net with
        server, accepts := n,
        links := Function.update net.links fd (some ⟨true, [], [], connectedClient⟩) })
  | refused {net : Net} {server : Server} {effects : List Effect} {n : ℕ} (stamp : Stamp) {res : Fd}
      (outstanding : net.accepts = n + 1) (sign : res.msb = true)
      (turn : eventLoopStep pf stamp ⟨makeRequestData 0 .flagAccept, res, []⟩ net.server =
        some (server, effects)) :
      Step net (effects.foldl perform { net with server, accepts := n })
  | post {net : Net} {fd : Fd} {l₁ l₂ : List Op} {sqe : Sqe} {cqe : Cqe} {l : Option Link}
      (outstanding : net.ops fd = l₁ ++ .pending sqe :: l₂)
      (completes : Completes (net.links fd) sqe cqe l) :
      Step net { net.fill fd cqe.data with
        ops := Function.update net.ops fd (l₁ ++ .posted cqe :: l₂)
        links := Function.update net.links fd l }
  | handle {net : Net} {server : Server} {effects : List Effect} {fd : Fd} {l₁ l₂ : List Op}
      {cqe : Cqe} (stamp : Stamp) (waiting : net.ops fd = l₁ ++ .posted cqe :: l₂)
      (turn : eventLoopStep pf stamp cqe net.server = some (server, effects)) :
      Step net (effects.foldl perform { net with
        server, ops := Function.update net.ops fd (l₁ ++ l₂) })
  | deliver {net : Net} {fd : Fd} {link : Link} {fs rest : List (List UInt8)}
      (on : net.links fd = some link) (isOpen : link.isOpen = true)
      (next : link.toClient = fs ++ rest) (hne : fs ≠ []) (fits : fs.flatten.length ≤ 4096)
      (waits : Waiting link.client) :
      Step net { net with links := Function.update net.links fd (some { link with
        toClient := rest, client := receive fs.flatten link.client }) }
  | clientTurn {net : Net} {fd : Fd} {link : Link} {cl : Client}
      {sent : List (Target × List UInt8)} (stamp : Stamp) (on : net.links fd = some link)
      (isOpen : link.isOpen = true) (phase : link.client.phase = .receiving)
      (turn : clientTurn pf.codec stamp link.client = some (cl, sent)) :
      Step net { net with links := Function.update net.links fd (some { link with
        toServer := link.toServer ++ framesToServer sent, client := cl }) }
  | assemble {net : Net} {fd : Fd} {link : Link} {cl : Client} (m : BlockProcess.Machine) (fuel : ℕ)
      (on : net.links fd = some link) (phase : link.client.phase = .assembling)
      (done : assembleBlock pf.H m fuel link.client = some cl) :
      Step net { net with links := Function.update net.links fd (some { link with client := cl }) }

def initial : Option Net := do
  let (server, effects) ← eventLoopStart pf
  some (effects.foldl perform
    ⟨server, 0, fun _ => [], fun _ => none, [], [], fun _ => zeroBuffer⟩)

def Reaches (net : Net) : Prop :=
  ∃ start, initial pf = some start ∧ Relation.ReflTransGen (Step pf) start net

end CBlockchain.Transfer
