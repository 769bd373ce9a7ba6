import CBlockchain.Bytes
import CBlockchain.Heap

/-! Signed messages and the hash primitives of `hashing.c`. The generic hash is a
parameter throughout: nothing but its output length is used. -/
namespace CBlockchain

/-- `crypto_generichash_BYTES` bytes. -/
abbrev Digest := Vector UInt8 32

/-- `crypto_generichash` without a key and with its default output length. -/
abbrev GenericHash := List UInt8 → Digest

/-- `signed_message_t`: the bytes behind the `message` pointer, of which the first
`length` are in use. -/
structure SignedMessage where
  message : List UInt8
  length : ℕ
  publicKey : Vector UInt8 32
  length_le : length ≤ message.length
  deriving DecidableEq

namespace SignedMessage

def bytes (m : SignedMessage) : List UInt8 := m.message.take m.length

@[simp] theorem length_bytes (m : SignedMessage) : m.bytes.length = m.length := by
  simp [bytes, m.length_le]

end SignedMessage

namespace Hashing
variable (H : GenericHash)

def calcHash (sMessage : SignedMessage) : Digest := H sMessage.bytes

def calcHashofHash (hash0 : Digest) : Digest := H hash0.toList

/-- The 64-byte buffer `hashS` of `merge_2hashses`. -/
def hashS (hash1 hash2 : Digest) : List UInt8 := hash1.toList ++ hash2.toList

def merge2hashses (hash1 hash2 : Digest) : Digest := H (hashS hash1 hash2)

theorem hashS_inj {a b c d : Digest} (h : hashS a b = hashS c d) : a = c ∧ b = d := by
  obtain ⟨h1, h2⟩ := List.append_inj h (by simp)
  exact ⟨Vector.toList_inj.mp h1, Vector.toList_inj.mp h2⟩

end Hashing
end CBlockchain
