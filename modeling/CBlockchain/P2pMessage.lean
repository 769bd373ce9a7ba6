import CBlockchain.IpcMessage

/-! Messages between peers. As for the message server, packing and unpacking are those of a
library outside the repository. A stream keeps no frame boundaries, so the codec also says
what several frames run together unpack to: the last value of every field that is present.
`p2pWireCodec` is an instance in the wire format of `p2ptransaction.proto`. -/
namespace CBlockchain

/-- `P2pIpcMessage__Status`, and the values the enumeration lacks. -/
inductive P2pStatus where
  | test | ok | error | finish | wait | block | ping | pong | askIfBlockReady | blockReady
  | blockNotReady | ackn
  | unnamed (code : ℕ)
  deriving DecidableEq, Repr

namespace P2pStatus

def code : P2pStatus → ℕ
  | test => 0 | ok => 1 | error => 2 | finish => 3 | wait => 4 | block => 5 | ping => 6 | pong => 7
  | askIfBlockReady => 8 | blockReady => 9 | blockNotReady => 10 | ackn => 11
  | unnamed n => n

def ofCode : ℕ → P2pStatus
  | 0 => test | 1 => ok | 2 => error | 3 => finish | 4 => wait | 5 => block | 6 => ping | 7 => pong
  | 8 => askIfBlockReady | 9 => blockReady | 10 => blockNotReady | 11 => ackn
  | n => unnamed n

/-- One of the twelve values of the enumeration. -/
def Named (s : P2pStatus) : Prop := ∀ n, s ≠ unnamed n

theorem ofCode_code {s : P2pStatus} (hs : s.Named) : ofCode s.code = s := by
  cases s with
  | unnamed n => exact absurd rfl (hs n)
  | _ => rfl

end P2pStatus

/-- `P2pIpcMessage`; an absent optional field is `none`. -/
structure P2pIpcMessage where
  date : CString
  timestampBegin : Option UInt64
  timestampEnd : Option UInt64
  difficulty : Option UInt64
  merkleRoot : Option (List UInt8)
  nonce : Option (List UInt8)
  prevBlock : Option (List UInt8)
  statusCode : P2pStatus
  deriving DecidableEq

/-- What unpacking makes of `a` with `b` behind it. -/
def P2pIpcMessage.merge (a b : P2pIpcMessage) : P2pIpcMessage where
  date := b.date
  timestampBegin := b.timestampBegin.or a.timestampBegin
  timestampEnd := b.timestampEnd.or a.timestampEnd
  difficulty := b.difficulty.or a.difficulty
  merkleRoot := b.merkleRoot.or a.merkleRoot
  nonce := b.nonce.or a.nonce
  prevBlock := b.prevBlock.or a.prevBlock
  statusCode := b.statusCode

/-- `p2p__ipc_message__pack`, `p2p__ipc_message__unpack`, and the status word of a message right
behind `p2p__ipc_message__free_unpacked`: the allocator writes to the first words of a released
chunk only, which are those of the message's base. -/
structure P2pCodec where
  pack : P2pIpcMessage → List UInt8
  unpack : List UInt8 → Option P2pIpcMessage
  statusAfterFree : P2pIpcMessage → P2pStatus
  unpack_packs : ∀ (m : P2pIpcMessage) (ms : List P2pIpcMessage),
    (∀ x ∈ m :: ms, x.statusCode.Named) →
      unpack ((m :: ms).flatMap pack) = some (ms.foldl P2pIpcMessage.merge m)
  pack_ne_nil : ∀ m, pack m ≠ []
  statusAfterFree_eq : ∀ m, statusAfterFree m = m.statusCode

theorem P2pCodec.unpack_pack (codec : P2pCodec) {m : P2pIpcMessage} (hs : m.statusCode.Named) :
    codec.unpack (codec.pack m) = some m := by
  have h := codec.unpack_packs m [] (by simpa using hs)
  simpa using h

namespace P2pWireCodec
open WireFormat

/-- The value of a field of `p2ptransaction.proto`, by its number. -/
def fieldValue (m : P2pIpcMessage) : ℕ → Option Value
  | 1 => some (.bytes m.date.bytes)
  | 2 => m.timestampBegin.map fun n => .varint n.toNat
  | 3 => m.timestampEnd.map fun n => .varint n.toNat
  | 4 => m.difficulty.map fun n => .varint n.toNat
  | 5 => m.merkleRoot.map .bytes
  | 6 => m.nonce.map .bytes
  | 7 => m.prevBlock.map .bytes
  | 8 => some (.varint m.statusCode.code)
  | _ => none

def numbers : List ℕ := [1, 2, 3, 4, 5, 6, 7, 8]

def fields (m : P2pIpcMessage) : List Field := presentFields (fieldValue m) numbers

def wordOf : Option Value → Option UInt64
  | some (.varint n) => some (.ofNat n)
  | _ => none

def bytesOf : Option Value → Option (List UInt8)
  | some (.bytes b) => some b
  | _ => none

/-- The two required fields must be present with their wire types. -/
def ofValues (value : ℕ → Option Value) : Option P2pIpcMessage :=
  match value 1, value 8 with
  | some (.bytes date), some (.varint s) =>
    some ⟨.ofBuffer date, wordOf (value 2), wordOf (value 3), wordOf (value 4), bytesOf (value 5),
      bytesOf (value 6), bytesOf (value 7), .ofCode s⟩
  | _, _ => none

theorem lastValue_fields (m : P2pIpcMessage) (k : ℕ) : lastValue k (fields m) = fieldValue m k := by
  rw [fields, lastValue_presentFields _ (by decide)]
  split
  · rfl
  · rename_i hk
    unfold fieldValue
    split <;> first | rfl | exact absurd (by decide) hk

theorem wordOf_map (x : Option UInt64) : wordOf (x.map fun n => .varint n.toNat) = x := by
  cases x <;> simp [wordOf]

theorem bytesOf_map (x : Option (List UInt8)) : bytesOf (x.map .bytes) = x := by
  cases x <;> rfl

theorem ofValues_fieldValue {m : P2pIpcMessage} (hs : m.statusCode.Named) :
    ofValues (fieldValue m) = some m := by
  simp only [ofValues, fieldValue, wordOf_map, bytesOf_map, CString.ofBuffer_bytes,
    P2pStatus.ofCode_code hs]

theorem fieldValue_merge (a b : P2pIpcMessage) (k : ℕ) :
    fieldValue (a.merge b) k = (fieldValue b k).or (fieldValue a k) := by
  unfold fieldValue
  split <;> simp [P2pIpcMessage.merge, Option.map_or]

theorem lastValue_flatMap_fields (m : P2pIpcMessage) (ms : List P2pIpcMessage) (k : ℕ) :
    lastValue k ((m :: ms).flatMap fields) = fieldValue (ms.foldl P2pIpcMessage.merge m) k := by
  induction ms using List.reverseRecOn with
  | nil => simp [lastValue_fields]
  | append_singleton ms b ih =>
    rw [← List.cons_append, List.flatMap_append, lastValue_append, ih, List.foldl_append]
    simp [lastValue_fields, fieldValue_merge]

theorem named_foldl_merge (m : P2pIpcMessage) (ms : List P2pIpcMessage)
    (h : ∀ x ∈ m :: ms, x.statusCode.Named) :
    (ms.foldl P2pIpcMessage.merge m).statusCode.Named := by
  induction ms using List.reverseRecOn with
  | nil => exact h m List.mem_cons_self
  | append_singleton ms b _ =>
    rw [List.foldl_append]
    exact h b (by simp)

theorem putFields_flatMap (ms : List P2pIpcMessage) :
    (ms.flatMap fun m => putFields (fields m)) = putFields (ms.flatMap fields) := by
  simp only [putFields, List.flatMap_assoc]

end P2pWireCodec

/-- The wire format of `p2ptransaction.proto`. -/
def p2pWireCodec : P2pCodec where
  pack m := WireFormat.putFields (P2pWireCodec.fields m)
  unpack bs := (WireFormat.getFields bs.length bs).bind fun fs =>
    P2pWireCodec.ofValues fun k => WireFormat.lastValue k fs
  statusAfterFree := P2pIpcMessage.statusCode
  unpack_packs m ms hs := by
    rw [P2pWireCodec.putFields_flatMap, WireFormat.getFields_put, Option.bind_some]
    simp only [P2pWireCodec.lastValue_flatMap_fields]
    exact P2pWireCodec.ofValues_fieldValue (P2pWireCodec.named_foldl_merge m ms hs)
  pack_ne_nil m := by
    have hlen := WireFormat.length_le_putFields (P2pWireCodec.fields m)
    intro h
    rw [h] at hlen
    simp [P2pWireCodec.fields, WireFormat.presentFields, P2pWireCodec.numbers,
      P2pWireCodec.fieldValue] at hlen
  statusAfterFree_eq _ := rfl

end CBlockchain
