import CBlockchain.DataHandlers
import CBlockchain.MerkleTree
import CBlockchain.RequestData
import CBlockchain.Serdes

/-! The handlers of the message server (`connection_handlers.c`). A handler returns the
new server state and, in order, what it did to the outside; `none` is a crash. Per-socket
arrays are total functions of the socket number. -/
namespace CBlockchain

/-- Requests handed to io_uring, with their tags. The request of `FINISH_SENDING` is
submitted without a prepared operation: what is executed for it is what stands in its
ring entry, which this layer leaves open. -/
inductive Sqe where
  | accept (userData : BitVec 64)
  | send (fd : Fd) (data : List UInt8) (userData : BitVec 64)
  | recv (fd : Fd) (userData : BitVec 64)
  | unprepared (userData : BitVec 64)

def Sqe.userData : Sqe → BitVec 64
  | accept d => d
  | send _ _ d => d
  | recv _ d => d
  | unprepared d => d

/-- A completion: the tag of its request, the result, and the `res` bytes that stand in
the client's buffer. -/
structure Cqe where
  userData : BitVec 64
  res : BitVec 32
  data : List UInt8

/-- What the event loop keeps between two completions. -/
structure Server where
  cbuf : CircBuf
  befferSendedN : Fd → ℕ
  currentClientFd : Fd

/-- What a handler does to the outside. `serve` marks the slot whose message the `send`
after it carries; `merkleRoot` is the root printed for a finished client. -/
inductive Effect where
  | submit (sqe : Sqe)
  | serve (clientFd : Fd) (slot : ℕ) (msg : SignedMessage)
  | merkleRoot (clientFd : Fd) (hash : Digest)
  | shutdownClose (fd : Fd)

/-- What the server takes from outside the repository: the hash, the message codec and
the source of new messages. -/
structure Platform where
  H : GenericHash
  codec : Codec
  src : MessageSource

namespace ConnectionHandlers
open Hashing Layering MerkleTree PerfectTree DataHandlers RequestData Serdes

section MerkleRoot
variable (H : GenericHash)

/-- The server's `calc_merkle_tree`: the root it prints. Its nodes live only during
the call. -/
def calcMerkleTree (msgPointer : List Ptr) (msgs : Heap SignedMessage) : Option Digest := do
  let exponent := 9
  let nMsg := 1 <<< exponent
  let msgArr := (List.range nMsg).map (ptrAt msgPointer)
  let lArrays := List.replicate exponent (none : Ptr)
  let lArraysP := List.replicate exponent (⟨[], 0, 0⟩ : LayerHp)
  let (base, mem) ← processSMessagesV2 H nMsg msgArr ⟨msgs, .empty, .empty, []⟩
  let copy ← mem.layers.read base
  let (lArrays, _, mem) ← fillIntermediateLevels H exponent (nMsg >>> 1)
    (lArrays.set (exponent - 1) base) (lArraysP.set (exponent - 1) copy) mem
  let top ← mem.layers.read (ptrAt lArrays 0)
  let node ← mem.nodes.read (ptrAt top.mainPointer 0)
  some node.hash

/-- Over 512 messages the server prints the reference root. -/
theorem calcMerkleTree_eq {ps : List Ptr} {msgs : Heap SignedMessage} {msg : ℕ → SignedMessage}
    (hm : ∀ i < 512, msgs.read (ptrAt ps i) = some (msg i)) :
    calcMerkleTree H ps msgs = some (root (calcHash H) (merge2hashses H) 9 msg) := by
  let msgArr := (List.range (2 ^ 9)).map (ptrAt ps)
  have harr : ∀ i < 2 ^ 9, ptrAt msgArr i = ptrAt ps i := fun i hi =>
    ptrAt_eq (by rw [List.getElem?_map, List.getElem?_range hi, Option.map_some])
  obtain ⟨lA, lP, mem', hrun, -, hb⟩ := buildLayers_built H (E := 9) (by norm_num)
    msgArr (List.replicate 9 none) (List.replicate 9 ⟨[], 0, 0⟩) ⟨msgs, .empty, .empty, []⟩
    (by rw [List.length_map, List.length_range]) List.length_replicate List.length_replicate
    (fun i hi => by rw [harr i hi]; exact hm i (by simpa using hi))
  obtain ⟨lp, l, hA, hread, -, hhold, -⟩ := hb.layer 0 le_rfl (by norm_num)
  have hnode := hhold.node 0 (by norm_num)
  have hhash := treeNode_hash H (E := 9) (k := 0) (by norm_num) lP (ptrAt msgArr) msg 0
  rw [referenceHash_zero] at hhash
  have hshift : (1 <<< 9 : ℕ) = 2 ^ 9 := rfl
  unfold buildLayers at hrun
  simp only [Option.bind_eq_bind, Option.bind_eq_some_iff] at hrun
  obtain ⟨⟨base, mem₁⟩, hbase, copy, hcopy, hfill⟩ := hrun
  rw [hshift] at hbase hfill
  unfold calcMerkleTree
  simp only [Option.bind_eq_bind, hshift]
  rw [hbase, Option.bind_some, hcopy, Option.bind_some, hfill, Option.bind_some,
    ptrAt_eq hA, hread, Option.bind_some, hnode, Option.bind_some, hhash]

/-- A root is printed only if all 512 messages could be read. -/
theorem calcMerkleTree_reads {ps : List Ptr} {msgs : Heap SignedMessage} {hash : Digest}
    (h : calcMerkleTree H ps msgs = some hash) :
    ∀ i < 512, ∃ m, msgs.read (ptrAt ps i) = some m := by
  have hshift : (1 <<< 9 : ℕ) = 2 * 256 := rfl
  simp only [calcMerkleTree, hshift, Option.bind_eq_bind, Option.bind_eq_some_iff] at h
  obtain ⟨base, hbase, -⟩ := h
  intro i hi
  have hptr : ptrAt ((List.range (2 * 256)).map (ptrAt ps)) i = ptrAt ps i :=
    ptrAt_eq (by rw [List.getElem?_map, List.getElem?_range hi, Option.map_some])
  obtain ⟨m, hm⟩ := processSMessagesV2_reads H hbase i hi
  rw [hptr] at hm
  exact ⟨m, hm⟩

end MerkleRoot

variable (pf : Platform)

def requestSendStatus (stamp : Stamp) (clientFd : Fd) (status : Status) (s : Server) :
    Option (Server × List Effect) :=
  some (s, [.submit (.send clientFd (sendOnlyStatusCode pf.codec stamp status)
    (makeRequestData clientFd .readResponse))])

def requestAskNeedMsg (stamp : Stamp) (clientFd : Fd) (s : Server) :
    Option (Server × List Effect) :=
  requestSendStatus pf stamp clientFd .askNeedMsg s

/-- `fill_size` and the client's counter are reset before the tree is built. -/
def finishSending (clientFd : Fd) (s : Server) : Option (Server × List Effect) := do
  let s := { s with
    cbuf := { s.cbuf with fillSize := 0 }
    befferSendedN := Function.update s.befferSendedN clientFd 0 }
  let hash ← calcMerkleTree pf.H s.cbuf.buffer s.cbuf.msgs
  some (s, [.merkleRoot clientFd hash,
    .submit (.unprepared (makeRequestData clientFd .flagCloseConnection))])

/-- After `N_MESSAGES` messages only the status is sent. Slots are below 512 here, so
512 pushes suffice. -/
def handleResponseNeedMoreMsg (stamp : Stamp) (clientFd : Fd) (s : Server) :
    Option (Server × List Effect) :=
  if s.befferSendedN clientFd ≥ 512 then requestSendStatus pf stamp clientFd .allBlockMsgSended s
  else do
    let slot := s.befferSendedN clientFd
    let (aMsgP, cbuf) ← getNthCircBuf pf.src 512 slot s.cbuf
    let aMsg ← cbuf.msgs.read aMsgP
    some ({ s with cbuf := cbuf, befferSendedN := Function.update s.befferSendedN clientFd (slot + 1) },
      [.serve clientFd slot aMsg,
       .submit (.send clientFd (serializeDataV2 pf.codec stamp aMsg)
         (makeRequestData clientFd .readResponse))])

def readStatusResponse (clientFd : Fd) (s : Server) : Option (Server × List Effect) :=
  some (s, [.submit (.recv clientFd (makeRequestData clientFd .testResponse))])

def addAcceptRequest : Effect := .submit (.accept (makeRequestData 0 .flagAccept))

theorem handleResponseNeedMoreMsg_serves {s : Server} (hr : Ready s.cbuf) (stamp : Stamp)
    {clientFd : Fd} (hlt : s.befferSendedN clientFd < 512) :
    ∃ cbuf m, handleResponseNeedMoreMsg pf stamp clientFd s =
        some ({ s with cbuf := cbuf, befferSendedN :=
            Function.update s.befferSendedN clientFd (s.befferSendedN clientFd + 1) },
          [.serve clientFd (s.befferSendedN clientFd) m,
           .submit (.send clientFd (serializeDataV2 pf.codec stamp m)
             (makeRequestData clientFd .readResponse))]) ∧
      slotMsg cbuf (s.befferSendedN clientFd) = some m ∧ Ready cbuf ∧ Grows s.cbuf cbuf ∧
      filled cbuf = max (filled s.cbuf) (s.befferSendedN clientFd + 1) := by
  obtain ⟨p, cbuf, m, hget, hread, hslot, hready, hgrow, hfilled⟩ :=
    getNthCircBuf_spec pf.src hr hlt
  refine ⟨cbuf, m, ?_, hslot, hready, hgrow, hfilled⟩
  rw [handleResponseNeedMoreMsg, if_neg (by omega)]
  simp [hget, hread]

/-- With all slots held, finishing prints the reference root of the slots and keeps
the buffer ready. -/
theorem finishSending_spec {s : Server} (hr : Ready s.cbuf) (clientFd : Fd)
    {msg : ℕ → SignedMessage} (hm : ∀ i < 512, slotMsg s.cbuf i = some (msg i)) :
    finishSending pf clientFd s =
        some ({ s with
            cbuf := { s.cbuf with fillSize := 0 }
            befferSendedN := Function.update s.befferSendedN clientFd 0 },
          [.merkleRoot clientFd (root (calcHash pf.H) (merge2hashses pf.H) 9 msg),
           .submit (.unprepared (makeRequestData clientFd .flagCloseConnection))]) ∧
      Ready { s.cbuf with fillSize := 0 } := by
  refine ⟨?_, HoldsTo.reset hr fun i hi => ⟨msg i, hm i hi⟩⟩
  simp [finishSending, calcMerkleTree_eq pf.H hm]

end ConnectionHandlers
end CBlockchain
