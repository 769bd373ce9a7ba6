import CBlockchain.Transfer

/-! The transfer over the server's ring. The submission entries of the ring are used in
turn, and an entry keeps its operation until it is prepared again. `FINISH_SENDING` takes
an entry and sets its tag without preparing it, so the operation of the submission 1024
places before is executed once more, a send with the bytes that stand in the client's
buffer by then; an entry not used before is zeroed, which is the no-op. -/
namespace CBlockchain.Transfer
open ConnectionHandlers DataHandlers EventLoop ReceiveLoop RequestData Serdes
variable (pf : Platform)

/-- The entries of a queue set up for `MAX_CONNECTIONS` requests: 1000, rounded up to a
power of two. -/
def ringEntries : ℕ := 1024

/-- The socket of a client that an operation acts on. -/
def socketOf : Sqe → Option Fd
  | .send fd _ _ => some fd
  | .recv fd _ => some fd
  | .accept _ => none
  | .unprepared _ => none

/-- The operation of an entry under another tag. -/
def runAgain (buffers : Fd → List UInt8) (d : BitVec 64) : Sqe → Sqe
  | .send fd data _ => .send fd ((buffers fd).take data.length) d
  | .recv fd _ => .recv fd d
  | .accept _ => .accept d
  | .unprepared _ => .unprepared d

namespace Net

/-- What the entry of the next submission was used for before. -/
def lastUse (net : Net) : Option Sqe :=
  if ringEntries ≤ net.entries.length then net.entries[net.entries.length - ringEntries]? else none

def leftover (net : Net) (d : BitVec 64) : Sqe :=
  net.lastUse.elim (.unprepared d) (runAgain net.buffers d)

/-- The submission of an entry that was not prepared. -/
def submitLeftover (net : Net) (d : BitVec 64) : Net :=
  let sqe := net.leftover d
  let net := net.addOp (requestDataClientFd d) sqe
  match sqe with
  | .send fd data _ => net.onLink fd (Link.push data)
  | _ => net

end Net

def execute (net : Net) : Effect → Net
  | .submit (.unprepared d) => net.submitLeftover d
  | e => perform net e

/-- The taking of an accept. -/
inductive RingAccept : Net → Net → Prop
  | accepted {net : Net} {server : Server} {effects : List Effect} {n : ℕ} (stamp : Stamp) {fd : Fd}
      (outstanding : net.accepts = n + 1) (sign : fd.msb = false) (unused : net.links fd = none)
      (turn : eventLoopStep pf stamp ⟨makeRequestData 0 .flagAccept, fd, []⟩ net.server =
        some (server, effects)) :
      RingAccept net (effects.foldl execute { net with
        server, accepts := n,
        links := Function.update net.links fd (some ⟨true, [], [], connectedClient⟩) })
  | refused {net : Net} {server : Server} {effects : List Effect} {n : ℕ} (stamp : Stamp) {res : Fd}
      (outstanding : net.accepts = n + 1) (sign : res.msb = true)
      (turn : eventLoopStep pf stamp ⟨makeRequestData 0 .flagAccept, res, []⟩ net.server =
        some (server, effects)) :
      RingAccept net (effects.foldl execute { net with server, accepts := n })

/-- The other steps, each on behalf of one client: a request that carries its tag completes
or is handled, a frame reaches it, or it takes a turn. A receive leaves its bytes in the
buffer of its socket. An accept that was executed again may take a client that the server
never hears of. -/
inductive RingWork (fd : Fd) : Net → Net → Prop
  | post {net : Net} {l₁ l₂ : List Op} {sqe : Sqe} {cqe : Cqe} {l : Option Link}
      (outstanding : net.ops fd = l₁ ++ .pending sqe :: l₂)
      (completes : Completes (net.links ((socketOf sqe).getD fd)) sqe cqe l) :
      RingWork fd net { net.fill ((socketOf sqe).getD fd) cqe.data with
        ops := Function.update net.ops fd (l₁ ++ .posted cqe :: l₂)
        links := Function.update net.links ((socketOf sqe).getD fd) l }
  | strayAccepted {net : Net} {l₁ l₂ : List Op} {d : BitVec 64} {fd' : Fd}
      (outstanding : net.ops fd = l₁ ++ .pending (.accept d) :: l₂) (sign : fd'.msb = false)
      (unused : net.links fd' = none) :
      RingWork fd net { net with
        ops := Function.update net.ops fd (l₁ ++ .posted ⟨d, fd', []⟩ :: l₂)
        links := Function.update net.links fd' (some ⟨true, [], [], connectedClient⟩) }
  | strayRefused {net : Net} {l₁ l₂ : List Op} {d : BitVec 64} {res : Fd}
      (outstanding : net.ops fd = l₁ ++ .pending (.accept d) :: l₂) (sign : res.msb = true) :
      RingWork fd net { net with
        ops := Function.update net.ops fd (l₁ ++ .posted ⟨d, res, []⟩ :: l₂) }
  | handle {net : Net} {server : Server} {effects : List Effect} {l₁ l₂ : List Op} {cqe : Cqe}
      (stamp : Stamp) (waiting : net.ops fd = l₁ ++ .posted cqe :: l₂)
      (turn : eventLoopStep pf stamp cqe net.server = some (server, effects)) :
      RingWork fd net (effects.foldl execute { net with
        server, ops := Function.update net.ops fd (l₁ ++ l₂) })
  | deliver {net : Net} {link : Link} {fs rest : List (List UInt8)}
      (on : net.links fd = some link) (isOpen : link.isOpen = true)
      (next : link.toClient = fs ++ rest) (hne : fs ≠ []) (fits : fs.flatten.length ≤ 4096)
      (waits : Waiting link.client) :
      RingWork fd net { net with links := Function.update net.links fd (some { link with
        toClient := rest, client := receive fs.flatten link.client }) }
  | clientTurn {net : Net} {link : Link} {cl : Client} {sent : List (Target × List UInt8)}
      (stamp : Stamp) (on : net.links fd = some link) (isOpen : link.isOpen = true)
      (phase : link.client.phase = .receiving)
      (turn : clientTurn pf.codec stamp link.client = some (cl, sent)) :
      RingWork fd net { net with links := Function.update net.links fd (some { link with
        toServer := link.toServer ++ framesToServer sent, client := cl }) }
  | assemble {net : Net} {link : Link} {cl : Client} (m : BlockProcess.Machine) (fuel : ℕ)
      (on : net.links fd = some link) (phase : link.client.phase = .assembling)
      (done : assembleBlock pf.H m fuel link.client = some cl) :
      RingWork fd net { net with links := Function.update net.links fd (some { link with
        client := cl }) }

def RingStep (net net' : Net) : Prop := RingAccept pf net net' ∨ ∃ fd, RingWork pf fd net net'

/-- The net is reached by steps that all meet `P`. -/
def RingReaches (P : Net → Net → Prop) (net : Net) : Prop :=
  ∃ start, initial pf = some start ∧
    Relation.ReflTransGen (fun net net' => RingStep pf net net' ∧ P net net') start net

/-- Nobody reads a frame on this connection any more: the server has closed it, or the
client has left its receive loop. -/
def Link.Idle (link : Link) : Prop := link.isOpen = false ∨ link.client.phase ≠ .receiving

/-- The next entry was not used before, or not for a connection that is still served. -/
def Net.Harmless (net : Net) : Prop :=
  ∀ sqe s link, net.lastUse = some sqe → socketOf sqe = some s → net.links s = some link → link.Idle

/-- If the step is the turn that finishes a client, the entry it submits is harmless. -/
def HarmlessFinish (net net' : Net) : Prop :=
  ∀ fd hash, net'.roots = net.roots ++ [(fd, hash)] → net.Harmless

end CBlockchain.Transfer
