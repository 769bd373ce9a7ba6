import CBlockchain.Copying
import CBlockchain.P2pSerdes
import CBlockchain.Serdes
import CBlockchain.Traced

/-! The five decoders of the loops, access by access. `unpack` answers with a null pointer
where it rejects, and no decoder looks at the pointer before it reads a field through it.
Every copy is recorded with the room it has and the size of its source; behind a copy that
leaves either of them nothing is known of the run. -/
namespace CBlockchain

/-- The object the library allocates for a string. It holds the terminator, and possibly
bytes behind a zero inside the field. -/
structure StringObject (s : CString) where
  bytes : List UInt8
  reads : CString.ofBuffer bytes = s
  terminated : 0 ∈ bytes

namespace StringObject

theorem reads_terminated (s : CString) : CString.ofBuffer (s.bytes ++ [0]) = s := by
  obtain ⟨bytes, noNul⟩ := s
  simp only [CString.ofBuffer, CString.mk.injEq]
  rw [List.takeWhile_append_of_pos]
  · simp
  · intro x hx
    rw [decide_eq_true_eq]
    rintro rfl
    exact noNul hx

theorem mem_terminated (s : CString) : 0 ∈ s.bytes ++ [0] := by simp

/-- The object of a field without a zero. -/
def ofString (s : CString) : StringObject s :=
  ⟨s.bytes ++ [0], reads_terminated s, mem_terminated s⟩

end StringObject

namespace Decoders
open Copying Serdes P2pSerdes BlockData

/-- Reading a field of the unpacked message, through the null pointer or not; copying. -/
inductive DecodeEvent where
  | field
  | nullField
  | copy (c : Copy)
  deriving DecidableEq

/-- `message->field` -/
def deref {α : Type} : Option α → Traced DecodeEvent α
  | some message => .emit .field (.ok message)
  | none => .emit .nullField .fault

section Code
variable (codec : Codec) (p2p : P2pCodec)

/-- The common body of the two status readers; with logging on, the status is read for the
log first. -/
def readStatus (logging : Bool) (buf : List UInt8) : Traced DecodeEvent Status := do
  let message := codec.unpack buf
  if logging then
    let _ ← deref message
  let m ← deref message
  pure m.statusCode

/-- `read_ONLY_STATUS_response` of the server. -/
def readOnlyStatusResponse (serverLoggingEnabled : Bool) (buf : List UInt8) :
    Traced DecodeEvent Status :=
  readStatus codec serverLoggingEnabled buf

/-- `read_response_ONLY_STATUS` of the client. -/
def readResponseOnlyStatus (clientLoggingEnabled : Bool) (buf : List UInt8) :
    Traced DecodeEvent Status :=
  readStatus codec clientLoggingEnabled buf

/-- The key is copied over its full length, however long the field is. -/
def copyKey (msg : SignedMessage) : Option (List UInt8) → Traced DecodeEvent SignedMessage
  | none => pure msg
  | some key => .emit (.copy ⟨32, 32, key.length⟩) (.lift (copyPubkey msg (some key)))

/-- The transaction is copied over its own length, however long the slot is. -/
def copyData (msg : SignedMessage) : Option (List UInt8) → Traced DecodeEvent SignedMessage
  | none => pure msg
  | some data => .emit (.copy ⟨data.length, msg.message.length, data.length⟩)
      (.lift (copyTransaction msg (some data)))

def deserializeDataFromServer (buff : List UInt8) (msg : SignedMessage) :
    Traced DecodeEvent SignedMessage := do
  let m ← deref (codec.unpack buff)
  let msg ← copyKey msg m.pubkey
  copyData msg m.transactionMsg

/-- `P2P_deserialize_STATUS`: the message is released first, and releasing the null pointer
does nothing. -/
def p2pDeserializeStatus (buff : List UInt8) : Traced DecodeEvent P2pStatus := do
  let m ← deref (p2p.unpack buff)
  pure (p2p.statusAfterFree m)

/-- `len` bytes from the start of an object on, whatever lies behind it. -/
def readObject (len : ℕ) (object : List UInt8) (behind : ℕ → UInt8) : List UInt8 :=
  (List.range len).map fun i => (object[i]?).getD (behind (i - object.length))

/-- A copy to the field at `off` of the packed block. A longer one goes on into the fields
behind it, and out of the block at its end. -/
def copyToBlock (off room : ℕ) (data : List UInt8) (source : ℕ) (block : List UInt8) :
    Traced DecodeEvent (List UInt8) :=
  .emit (.copy ⟨data.length, room, source⟩)
    (if off + data.length ≤ block.length then .ok (writeAt off data block) else .fault)

/-- The bytes of the packed block that is returned, or the null pointer. An absent field has
length 0, an absent number is 0. -/
def deserializeBlock (dateOf : (m : P2pIpcMessage) → StringObject m.date) (behind : ℕ → UInt8)
    (bufIn : List UInt8) : Traced DecodeEvent (Option (List UInt8)) := do
  let block := List.replicate 138 0
  let m ← deref (p2p.unpack bufIn)
  if m.statusCode ≠ .block then pure none
  else do
    let date := (dateOf m).bytes
    let block ← copyToBlock 15 35 (readObject 35 date behind) date.length block
    let merkleRoot := m.merkleRoot.getD []
    let block ← copyToBlock 106 32 merkleRoot merkleRoot.length block
    let nonce := m.nonce.getD []
    let block ← copyToBlock 0 15 nonce nonce.length block
    let block := writeAt 50 (wordBytes (m.timestampBegin.getD 0)) block
    let block := writeAt 58 (wordBytes (m.timestampEnd.getD 0)) block
    let prevBlock := m.prevBlock.getD []
    let block ← copyToBlock 74 32 prevBlock prevBlock.length block
    let block := writeAt 66 (wordBytes (m.difficulty.getD 0)) block
    pure (some block)

end Code

section Refinement
variable (codec : Codec) (p2p : P2pCodec)

theorem readStatus_result (logging : Bool) (buf : List UInt8) :
    (readStatus codec logging buf).result = Serdes.readOnlyStatusResponse codec buf := by
  rw [readStatus, Serdes.readOnlyStatusResponse]
  cases codec.unpack buf <;> cases logging <;> rfl

theorem p2pDeserializeStatus_result (buff : List UInt8) :
    (p2pDeserializeStatus p2p buff).result = P2pSerdes.p2pDeserializeStatus p2p buff := by
  rw [p2pDeserializeStatus, P2pSerdes.p2pDeserializeStatus]
  cases p2p.unpack buff <;> rfl

theorem copyKey_result (msg : SignedMessage) (key : Option (List UInt8)) :
    (copyKey msg key).result = copyPubkey msg key := by
  cases key with
  | none => rfl
  | some key =>
    rw [copyKey]
    cases copyPubkey msg (some key) <;> rfl

theorem copyData_result (msg : SignedMessage) (data : Option (List UInt8)) :
    (copyData msg data).result = copyTransaction msg data := by
  cases data with
  | none => rfl
  | some data =>
    rw [copyData]
    cases copyTransaction msg (some data) <;> rfl

theorem deserializeDataFromServer_result (buff : List UInt8) (msg : SignedMessage) :
    (deserializeDataFromServer codec buff msg).result =
      Serdes.deserializeDataFromServer codec buff msg := by
  rw [deserializeDataFromServer, Serdes.deserializeDataFromServer]
  cases codec.unpack buff with
  | none => rfl
  | some m =>
    simp only [deref, Traced.ok, Traced.emit_mk, Traced.bind_mk_some, Traced.result_bind,
      copyKey_result, copyData_result, Option.bind_eq_bind, Option.bind_some]

end Refinement

end Decoders
end CBlockchain
