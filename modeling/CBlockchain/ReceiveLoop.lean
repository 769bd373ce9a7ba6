import CBlockchain.BlockProcess
import CBlockchain.MerkleProcess
import CBlockchain.Serdes

/-! The receive loop of `setup_client_iouring`, from the connected socket on. One turn
waits for a completion, marks it seen, acts on the status in the receive buffer and
marks one more completion seen, which is that of the answer: a send that does not wait
has completed when its submission returns. Status frames are taken to fit the buffers
they are packed into. -/
namespace CBlockchain

/-- Where the loop stands: receiving; past the last message, with the tree, the block and
its checks to come; with `flag_block_filled` set. -/
inductive ClientPhase where
  | receiving | assembling | filled
  deriving DecidableEq

/-- A completion in the client's ring. The loop looks at the result only. -/
structure ClientCqe where
  isRecv : Bool
  res : ℤ

/-- `count` stops at 511; `stored` is the number of messages copied to `msg_arr`. -/
structure Client where
  count : ℕ
  stored : ℕ
  msgArr : List SignedMessage
  buffer : List UInt8
  posted : List ClientCqe
  seen : ℕ
  phase : ClientPhase
  tree : Option (CalcMerkleTree.LMsgContainer × Mem)
  block : Option Block
  verResult : ℤ

/-- The socket a frame is sent on: that of the connection, or some other number. -/
inductive Target where
  | server
  | socket (n : ℤ)

namespace ReceiveLoop
open BlockProcess CalcMerkleTree MerkleProcess Serdes
variable (codec : Codec)

def emptySlot : SignedMessage := ⟨List.replicate 512 0, 0, Vector.replicate 32 0, Nat.zero_le _⟩

/-- The client at its loop; the completion of `connect` has been seen. -/
def connectedClient : Client where
  count := 0
  stored := 0
  msgArr := List.replicate 512 emptySlot
  buffer := List.replicate 4096 0
  posted := [⟨false, 0⟩]
  seen := 1
  phase := .receiving
  tree := none
  block := none
  verResult := 0

/-- The kernel completes the receive of the current turn with the bytes of `frame`. -/
def receive (frame : List UInt8) (cl : Client) : Client :=
  { cl with
    buffer := memcpy frame.length cl.buffer frame
    posted := cl.posted ++ [⟨true, frame.length⟩] }

/-- `send_STATUS` into the second buffer. -/
def sendStatus (stamp : Stamp) (status : Status) (target : Target) (cl : Client) :
    Client × List (Target × List UInt8) :=
  let frame := sendOnlyStatusCode codec stamp status
  ({ cl with posted := cl.posted ++ [⟨false, frame.length⟩] }, [(target, frame)])

/-- The same with the frame packed into the receive buffer. -/
def sendStatusInPlace (stamp : Stamp) (status : Status) (target : Target) (cl : Client) :
    Client × List (Target × List UInt8) :=
  let frame := sendOnlyStatusCode codec stamp status
  sendStatus codec stamp status target { cl with buffer := memcpy frame.length cl.buffer frame }

def store (data : List UInt8) (cl : Client) : Option Client := do
  let slot ← cl.msgArr[cl.count]?
  let slot ← deserializeDataFromServer codec data slot
  some { cl with msgArr := cl.msgArr.set cl.count slot, stored := cl.stored + 1 }

/-- The switch on the status; `res` is the result of the completion, `data` what the
buffer holds of that length. A last message leads into the assembly of the block. -/
def handleFlag (stamp : Stamp) (res : ℤ) (data : List UInt8) (cl : Client) :
    Status → Option (Client × List (Target × List UInt8))
  | .askNeedMsg => some (sendStatus codec stamp .needMore .server cl)
  | .ok => some (sendStatusInPlace codec stamp .needMore (.socket res) cl)
  | .messageSended =>
    if cl.count < 511 then do
      let cl ← store codec data cl
      some (sendStatusInPlace codec stamp .acknOk .server { cl with count := cl.count + 1 })
    else if cl.count = 511 then do
      let cl ← store codec data cl
      some (sendStatus codec stamp .enough .server { cl with phase := .assembling })
    else some (sendStatus codec stamp .error .server cl)
  | .finish => some (cl, [])
  | .allBlockMsgSended =>
    some (sendStatus codec stamp .allBlockReceived .server { cl with phase := .filled })
  | _ => some (cl, [])

/-- The second `io_uring_cqe_seen`; after a last message it comes behind the assembly. -/
def endTurn (cl : Client) : Client :=
  if cl.phase = .assembling then cl else { cl with seen := cl.seen + 1 }

/-- What the buffer holds of length `res`; other lengths read outside it. -/
def bufferBytes (cl : Client) (res : ℤ) : Option (List UInt8) :=
  if 0 ≤ res ∧ res ≤ 4096 then some (cl.buffer.take res.toNat) else none

def clientTurn (stamp : Stamp) (cl : Client) : Option (Client × List (Target × List UInt8)) := do
  let cqe ← cl.posted[cl.seen]?
  let data ← bufferBytes cl cqe.res
  let status ← readOnlyStatusResponse codec data
  let (cl, sent) ← handleFlag codec stamp cqe.res data { cl with seen := cl.seen + 1 } status
  some (endTurn cl, sent)

/-- The status that a turn on the next completion acts on. -/
def nextStatus (cl : Client) : Option Status := do
  let cqe ← cl.posted[cl.seen]?
  let data ← bufferBytes cl cqe.res
  readOnlyStatusResponse codec data

def unreadFrames (cl : Client) : ℕ := (cl.posted.drop cl.seen).countP ClientCqe.isRecv

/-- The statuses with a case of their own in the switch. -/
def Handles : Status → Prop
  | .askNeedMsg | .ok | .messageSended | .finish | .allBlockMsgSended => True
  | _ => False

/-- The loop over all messages that adds up verdicts until one is 0. -/
def verifyAll (H : GenericHash) (mem : Mem) (layers : List LayerHp) : ℕ → ℕ → ℤ → Option ℤ
  | 0, _, verResult => some verResult
  | n + 1, i, verResult => do
    let rez ← (merkleVerifyMessage H mem layers 9 i).result
    if rez = 0 then some verResult else verifyAll H mem layers n (i + 1) (verResult + rez)

/-- Tree, block and verification of a complete set of messages. -/
def assembleBlock (H : GenericHash) (m : Machine) (fuel : ℕ) (cl : Client) : Option Client := do
  let (cont, mem) ← calcMerkleTree H 9 0 (.ofMessages cl.msgArr)
  let block ← processingBlock H m cont mem fuel
  let verResult ← verifyAll H mem cont.mainLayerPointer 512 0 0
  some { cl with
    tree := some (cont, mem)
    block := some block
    verResult := verResult
    phase := .filled
    seen := cl.seen + 1 }

/-- The loop waits for a frame: every completion so far has been seen. -/
structure Waiting (cl : Client) : Prop where
  phase : cl.phase = .receiving
  seen : cl.seen = cl.posted.length

/-- One frame has been received and not yet looked at. -/
structure Unread (frame : List UInt8) (cl : Client) : Prop where
  phase : cl.phase = .receiving
  next : cl.posted[cl.seen]? = some ⟨true, frame.length⟩
  seen : cl.seen + 1 = cl.posted.length
  holds : cl.buffer.take frame.length = frame
  fits : frame.length ≤ 4096

theorem Waiting.receive {cl : Client} (h : Waiting cl) {frame : List UInt8}
    (hfit : frame.length ≤ 4096) : Unread frame (receive frame cl) where
  phase := h.phase
  next := by simp [ReceiveLoop.receive, h.seen]
  seen := by simp [ReceiveLoop.receive, h.seen]
  holds := by simp [ReceiveLoop.receive, memcpy]
  fits := hfit

section Turns
variable {codec} {cl : Client} {frame : List UInt8}

theorem Waiting.next (h : Waiting cl) : cl.posted[cl.seen]? = none := by
  rw [h.seen, List.getElem?_eq_none le_rfl]

theorem Waiting.unreadFrames (h : Waiting cl) : unreadFrames cl = 0 := by
  rw [ReceiveLoop.unreadFrames, h.seen, List.drop_length, List.countP_nil]

theorem Unread.drop (h : Unread frame cl) : cl.posted.drop cl.seen = [⟨true, frame.length⟩] := by
  have hlt : cl.seen < cl.posted.length := by rw [← h.seen]; omega
  have hnext := h.next
  rw [List.getElem?_eq_getElem hlt, Option.some.injEq] at hnext
  rw [List.drop_eq_getElem_cons hlt, hnext, h.seen, List.drop_length]

theorem Unread.unreadFrames (h : Unread frame cl) : unreadFrames cl = 1 := by
  rw [ReceiveLoop.unreadFrames, h.drop]
  rfl

theorem Unread.bytes (h : Unread frame cl) : bufferBytes cl frame.length = some frame := by
  rw [bufferBytes, if_pos ⟨by omega, by exact_mod_cast h.fits⟩, Int.toNat_natCast, h.holds]

theorem Unread.nextStatus (h : Unread frame cl) :
    nextStatus codec cl = readOnlyStatusResponse codec frame := by
  simp only [ReceiveLoop.nextStatus, h.next, h.bytes, Option.bind_eq_bind, Option.bind_some]

theorem Waiting.nextStatus (h : Waiting cl) : nextStatus codec cl = none := by
  rw [ReceiveLoop.nextStatus, h.next]
  rfl

theorem Waiting.no_turn (h : Waiting cl) (codec : Codec) (stamp : Stamp) :
    clientTurn codec stamp cl = none := by
  rw [clientTurn, h.next]
  rfl

theorem clientTurn_unread (h : Unread frame cl) (stamp : Stamp) {status : Status}
    (hs : readOnlyStatusResponse codec frame = some status) :
    clientTurn codec stamp cl =
      (handleFlag codec stamp frame.length frame { cl with seen := cl.seen + 1 } status).map
        fun p => (endTurn p.1, p.2) := by
  simp only [clientTurn, h.next, h.bytes, hs, Option.bind_eq_bind, Option.bind_some]
  cases handleFlag codec stamp frame.length frame { cl with seen := cl.seen + 1 } status <;> rfl

theorem endTurn_of_ne (h : cl.phase ≠ .assembling) : endTurn cl = { cl with seen := cl.seen + 1 } :=
  if_neg h

theorem endTurn_assembling (h : cl.phase = .assembling) : endTurn cl = cl := if_pos h

theorem clientTurn_ask (h : Unread frame cl) (stamp : Stamp)
    (hs : readOnlyStatusResponse codec frame = some .askNeedMsg) :
    ∃ cl', clientTurn codec stamp cl =
        some (cl', [(.server, sendOnlyStatusCode codec stamp .needMore)]) ∧ Waiting cl' ∧
      cl'.count = cl.count ∧ cl'.stored = cl.stored ∧ cl'.msgArr = cl.msgArr := by
  have hend : cl.phase ≠ .assembling := by rw [h.phase]; decide
  refine ⟨{ cl with
    posted := cl.posted ++ [⟨false, (sendOnlyStatusCode codec stamp .needMore).length⟩]
    seen := cl.seen + 1 + 1 }, ?_, ⟨h.phase, by simp [← h.seen]⟩, rfl, rfl, rfl⟩
  rw [clientTurn_unread h stamp hs, handleFlag, sendStatus, Option.map_some, endTurn_of_ne]
  exact hend

theorem store_spec (cl : Client) {stamp : Stamp} {m : SignedMessage}
    (hframe : frame = serializeDataV2 codec stamp m) (hm : m.length ≤ 512)
    (hcount : cl.count < cl.msgArr.length)
    (hroom : ∀ slot ∈ cl.msgArr, slot.message.length = 512) :
    ∃ slot, store codec frame cl = some { cl with
        msgArr := cl.msgArr.set cl.count slot, stored := cl.stored + 1 } ∧
      SameContent slot m ∧ slot.message.length = 512 := by
  have hold := hroom _ (List.getElem_mem hcount)
  obtain ⟨slot, hdes, hsame, hlen⟩ := deserialize_serialize codec stamp
    (hm.trans_eq hold.symm)
  refine ⟨slot, ?_, hsame, hlen.trans hold⟩
  rw [store, List.getElem?_eq_getElem hcount]
  simp [hframe, hdes]

theorem clientTurn_message (h : Unread frame cl) (stamp : Stamp) {sentAt : Stamp}
    {m : SignedMessage} (hframe : frame = serializeDataV2 codec sentAt m) (hm : m.length ≤ 512)
    (hcount : cl.count < 511) (hlen : cl.msgArr.length = 512)
    (hroom : ∀ slot ∈ cl.msgArr, slot.message.length = 512) :
    ∃ cl' slot, clientTurn codec stamp cl =
        some (cl', [(.server, sendOnlyStatusCode codec stamp .acknOk)]) ∧ Waiting cl' ∧
      cl'.count = cl.count + 1 ∧ cl'.stored = cl.stored + 1 ∧
      cl'.msgArr = cl.msgArr.set cl.count slot ∧ SameContent slot m ∧
      slot.message.length = 512 := by
  have hs : readOnlyStatusResponse codec frame = some .messageSended := by
    rw [hframe, readOnlyStatusResponse_serialize]
  have hend : cl.phase ≠ .assembling := by rw [h.phase]; decide
  obtain ⟨slot, hstore, hsame, hslot⟩ := store_spec { cl with seen := cl.seen + 1 } hframe hm
    (by change cl.count < _; rw [hlen]; omega) hroom
  refine ⟨{ cl with
    count := cl.count + 1
    stored := cl.stored + 1
    msgArr := cl.msgArr.set cl.count slot
    buffer := memcpy (sendOnlyStatusCode codec stamp .acknOk).length cl.buffer
      (sendOnlyStatusCode codec stamp .acknOk)
    posted := cl.posted ++ [⟨false, (sendOnlyStatusCode codec stamp .acknOk).length⟩]
    seen := cl.seen + 1 + 1 }, slot, ?_, ⟨h.phase, by simp [← h.seen]⟩, rfl, rfl, rfl, hsame, hslot⟩
  rw [clientTurn_unread h stamp hs, handleFlag, if_pos hcount, hstore]
  simp only [Option.bind_eq_bind, Option.bind_some, sendStatusInPlace, sendStatus, Option.map_some]
  rw [endTurn_of_ne]
  exact hend

theorem clientTurn_last (h : Unread frame cl) (stamp : Stamp) {sentAt : Stamp}
    {m : SignedMessage} (hframe : frame = serializeDataV2 codec sentAt m) (hm : m.length ≤ 512)
    (hcount : cl.count = 511) (hlen : cl.msgArr.length = 512)
    (hroom : ∀ slot ∈ cl.msgArr, slot.message.length = 512) :
    ∃ cl' slot, clientTurn codec stamp cl =
        some (cl', [(.server, sendOnlyStatusCode codec stamp .enough)]) ∧
      cl'.phase = .assembling ∧ unreadFrames cl' = 0 ∧ cl'.stored = cl.stored + 1 ∧
      cl'.msgArr = cl.msgArr.set cl.count slot ∧ SameContent slot m ∧
      slot.message.length = 512 := by
  have hs : readOnlyStatusResponse codec frame = some .messageSended := by
    rw [hframe, readOnlyStatusResponse_serialize]
  obtain ⟨slot, hstore, hsame, hslot⟩ := store_spec { cl with seen := cl.seen + 1 } hframe hm
    (by change cl.count < _; rw [hlen]; omega) hroom
  refine ⟨{ cl with
    stored := cl.stored + 1
    msgArr := cl.msgArr.set cl.count slot
    posted := cl.posted ++ [⟨false, (sendOnlyStatusCode codec stamp .enough).length⟩]
    seen := cl.seen + 1
    phase := .assembling }, slot, ?_, rfl, ?_, rfl, rfl, hsame, hslot⟩
  swap
  · simp [unreadFrames, h.seen]
  rw [clientTurn_unread h stamp hs, handleFlag, if_neg (by change ¬ cl.count < 511; omega),
    if_pos hcount, hstore]
  simp only [Option.bind_eq_bind, Option.bind_some, sendStatus, Option.map_some]
  rw [endTurn_assembling rfl]

theorem assembleBlock_spec {H : GenericHash} {m : Machine} {fuel : ℕ} {cl' : Client}
    (h : assembleBlock H m fuel cl = some cl') :
    cl'.phase = .filled ∧ unreadFrames cl' ≤ unreadFrames cl ∧ cl'.stored = cl.stored ∧
      cl'.msgArr = cl.msgArr := by
  simp only [assembleBlock, Option.bind_eq_bind, Option.bind_eq_some_iff, Option.some.injEq] at h
  obtain ⟨_, -, _, -, _, -, rfl⟩ := h
  refine ⟨rfl, ?_, rfl, rfl⟩
  exact ((List.drop_sublist_drop_left cl.posted (Nat.le_succ cl.seen)).countP_le)

end Turns
end ReceiveLoop
end CBlockchain
