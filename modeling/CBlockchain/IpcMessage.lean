import CBlockchain.Hashing
import CBlockchain.WireFormat

/-! Messages between the message server and its clients. Packing and unpacking are
those of a library outside the repository: `Codec` says what the code relies on, and
`wireCodec` is an instance of it in the wire format of `transaction.proto`. -/
namespace CBlockchain

/-- `IpcMessage__Status`. The library also hands on values the enumeration lacks. -/
inductive Status where
  | test | ok | error | finish | wait | askNeedMsg | needMore | acknOk | messageSended | enough
  | allBlockMsgSended | allBlockReceived
  | unnamed (code : ℕ)
  deriving DecidableEq, Repr

namespace Status

def code : Status → ℕ
  | test => 0 | ok => 1 | error => 2 | finish => 3 | wait => 4 | askNeedMsg => 5 | needMore => 6
  | acknOk => 7 | messageSended => 8 | enough => 9 | allBlockMsgSended => 10
  | allBlockReceived => 11
  | unnamed n => n

def ofCode : ℕ → Status
  | 0 => test | 1 => ok | 2 => error | 3 => finish | 4 => wait | 5 => askNeedMsg | 6 => needMore
  | 7 => acknOk | 8 => messageSended | 9 => enough | 10 => allBlockMsgSended
  | 11 => allBlockReceived
  | n => unnamed n

/-- One of the twelve values of the enumeration. -/
def Named (s : Status) : Prop := ∀ n, s ≠ unnamed n

theorem ofCode_code {s : Status} (hs : s.Named) : ofCode s.code = s := by
  cases s with
  | unnamed n => exact absurd rfl (hs n)
  | _ => rfl

end Status

/-- The bytes of a C string before its terminator. -/
structure CString where
  bytes : List UInt8
  noNul : 0 ∉ bytes
  deriving DecidableEq

namespace CString

/-- What a reader of a `char *` sees of a buffer. -/
def ofBuffer (buf : List UInt8) : CString where
  bytes := buf.takeWhile (· ≠ 0)
  noNul := fun h => by simpa using List.mem_takeWhile_imp h

theorem nil_noNul : (0 : UInt8) ∉ [] := List.not_mem_nil

theorem ofBuffer_bytes (s : CString) : ofBuffer s.bytes = s := by
  obtain ⟨bytes, noNul⟩ := s
  simp only [ofBuffer, mk.injEq, List.takeWhile_eq_self_iff, decide_eq_true_eq]
  exact fun b hb hz => noNul (hz ▸ hb)

end CString

/-- `IpcMessage`; an absent optional field is `none`. -/
structure IpcMessage where
  transactionMsg : Option (List UInt8)
  pubkey : Option (List UInt8)
  timestamp : CString
  timeNum : UInt64
  statusCode : Status
  deriving DecidableEq

/-- `ipc_message__pack` and `ipc_message__unpack`. -/
structure Codec where
  pack : IpcMessage → List UInt8
  unpack : List UInt8 → Option IpcMessage
  unpack_pack : ∀ m, m.statusCode.Named → unpack (pack m) = some m
  pack_ne_nil : ∀ m, pack m ≠ []

namespace WireCodec
open WireFormat

/-- The fields of `transaction.proto` that are present, in order of their numbers. -/
def fields (m : IpcMessage) : List Field :=
  (m.transactionMsg.map fun b => ⟨1, .bytes b⟩).toList ++
  (m.pubkey.map fun b => ⟨2, .bytes b⟩).toList ++
  [⟨3, .bytes m.timestamp.bytes⟩, ⟨4, .varint m.timeNum.toNat⟩, ⟨5, .varint m.statusCode.code⟩]

def optionalBytes (number : ℕ) (fs : List Field) : Option (List UInt8) :=
  match lastValue number fs with
  | some (.bytes b) => some b
  | _ => none

/-- The three required fields must be present with their wire types. -/
def ofFields (fs : List Field) : Option IpcMessage :=
  match lastValue 3 fs, lastValue 4 fs, lastValue 5 fs with
  | some (.bytes t), some (.varint n), some (.varint s) =>
    some ⟨optionalBytes 1 fs, optionalBytes 2 fs, .ofBuffer t, .ofNat n, .ofCode s⟩
  | _, _, _ => none

theorem ofFields_fields {m : IpcMessage} (hs : m.statusCode.Named) :
    ofFields (fields m) = some m := by
  obtain ⟨tx, pk, t, n, s⟩ := m
  cases tx <;> cases pk <;>
    simp [ofFields, fields, lastValue, optionalBytes, CString.ofBuffer_bytes, Status.ofCode_code hs]

end WireCodec

/-- The wire format of `transaction.proto`. -/
def wireCodec : Codec where
  pack m := WireFormat.putFields (WireCodec.fields m)
  unpack bs := (WireFormat.getFields bs.length bs).bind WireCodec.ofFields
  unpack_pack m hs := by
    rw [WireFormat.getFields_put, Option.bind_some, WireCodec.ofFields_fields hs]
  pack_ne_nil m := by
    have hlen := WireFormat.length_le_putFields (WireCodec.fields m)
    intro h
    rw [h] at hlen
    simp [WireCodec.fields] at hlen

end CBlockchain
