import CBlockchain.IpcMessage

/-! The frames the two sides exchange: status frames, message frames, and what the
receivers take from them. Reading a frame that does not unpack dereferences a null
pointer, so it faults. -/
namespace CBlockchain.Serdes
variable (codec : Codec)

/-- What a frame carries besides its content. The client formats the clock into
`date`; the server's status frames send the array as the stack left it. -/
structure Stamp where
  date : CString
  epochNs : UInt64

def sendOnlyStatusCode (stamp : Stamp) (status : Status) : List UInt8 :=
  codec.pack ⟨none, none, stamp.date, stamp.epochNs, status⟩

/-- `read_ONLY_STATUS_response` of the server, `read_response_ONLY_STATUS` of the client. -/
def readOnlyStatusResponse (buf : List UInt8) : Option Status :=
  (codec.unpack buf).map IpcMessage.statusCode

def serializeDataV2 (stamp : Stamp) (aMessage : SignedMessage) : List UInt8 :=
  codec.pack ⟨some aMessage.bytes, some aMessage.publicKey.toList, stamp.date, stamp.epochNs,
    .messageSended⟩

/-- A key shorter than 32 bytes makes the copy read past the unpacked field. -/
def copyPubkey (msg : SignedMessage) : Option (List UInt8) → Option SignedMessage
  | none => some msg
  | some key =>
    if h : 32 ≤ key.length then
      some { msg with publicKey := ⟨(key.take 32).toArray, by simpa using h⟩ }
    else none

/-- A transaction longer than the slot makes the copy write past the slot. -/
def copyTransaction (msg : SignedMessage) : Option (List UInt8) → Option SignedMessage
  | none => some msg
  | some data =>
    if h : data.length ≤ msg.message.length then
      some ⟨memcpy data.length msg.message data, data.length, msg.publicKey, by
        rw [length_memcpy h le_rfl]; exact h⟩
    else none

def deserializeDataFromServer (buff : List UInt8) (msg : SignedMessage) :
    Option SignedMessage := do
  let message ← codec.unpack buff
  let msg ← copyPubkey msg message.pubkey
  copyTransaction msg message.transactionMsg

section Copies
variable {msg msg' : SignedMessage} {key data : List UInt8}

theorem copyPubkey_spec (h : copyPubkey msg (some key) = some msg') :
    msg'.publicKey.toList = key.take 32 ∧ msg'.message = msg.message ∧
      msg'.length = msg.length := by
  rw [copyPubkey] at h
  split_ifs at h
  rw [← Option.some.inj h]
  exact ⟨rfl, rfl, rfl⟩

theorem copyTransaction_spec (h : copyTransaction msg (some data) = some msg') :
    msg'.bytes = data ∧ msg'.length = data.length ∧ msg'.publicKey = msg.publicKey ∧
      msg'.message.length = msg.message.length := by
  rw [copyTransaction] at h
  split_ifs at h with hlen
  rw [← Option.some.inj h]
  exact ⟨by simp [SignedMessage.bytes, memcpy], rfl, rfl, length_memcpy hlen le_rfl⟩

end Copies

theorem sendOnlyStatusCode_ne_nil (stamp : Stamp) (status : Status) :
    sendOnlyStatusCode codec stamp status ≠ [] := codec.pack_ne_nil _

theorem serializeDataV2_ne_nil (stamp : Stamp) (aMessage : SignedMessage) :
    serializeDataV2 codec stamp aMessage ≠ [] := codec.pack_ne_nil _

theorem readOnlyStatusResponse_send (stamp : Stamp) {status : Status} (hs : status.Named) :
    readOnlyStatusResponse codec (sendOnlyStatusCode codec stamp status) = some status := by
  rw [readOnlyStatusResponse, sendOnlyStatusCode, codec.unpack_pack _ hs, Option.map_some]

theorem readOnlyStatusResponse_serialize (stamp : Stamp) (aMessage : SignedMessage) :
    readOnlyStatusResponse codec (serializeDataV2 codec stamp aMessage) = some .messageSended := by
  rw [readOnlyStatusResponse, serializeDataV2, codec.unpack_pack _ (by intro n; simp),
    Option.map_some]

/-- Two messages with the same bytes in use, the same length and the same key. -/
structure SameContent (m m' : SignedMessage) : Prop where
  bytes : m.bytes = m'.bytes
  length : m.length = m'.length
  publicKey : m.publicKey = m'.publicKey

theorem deserialize_serialize (stamp : Stamp) {aMessage slot : SignedMessage}
    (hfit : aMessage.length ≤ slot.message.length) :
    ∃ slot', deserializeDataFromServer codec (serializeDataV2 codec stamp aMessage) slot =
        some slot' ∧ SameContent slot' aMessage ∧
      slot'.message.length = slot.message.length := by
  have hlen : aMessage.bytes.length = aMessage.length := aMessage.length_bytes
  have hfit' : aMessage.bytes.length ≤ slot.message.length := by rw [hlen]; exact hfit
  refine ⟨⟨memcpy aMessage.bytes.length slot.message aMessage.bytes, aMessage.bytes.length,
    aMessage.publicKey, by rw [length_memcpy hfit' le_rfl]; exact hfit'⟩, ?_, ⟨?_, hlen, rfl⟩, ?_⟩
  · have hkey : (⟨(aMessage.publicKey.toList.take 32).toArray, by simp⟩ : Vector UInt8 32) =
        aMessage.publicKey := by
      apply Vector.toList_inj.mp
      simp [List.take_of_length_le]
    rw [deserializeDataFromServer, serializeDataV2, codec.unpack_pack _ (by intro n; simp)]
    simp [copyPubkey, copyTransaction, hkey, hfit]
  · simp [SignedMessage.bytes, memcpy]
  · exact length_memcpy hfit' le_rfl

end CBlockchain.Serdes
