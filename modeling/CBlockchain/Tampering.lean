import CBlockchain.MerkleVerdict

/-! `merkle_verify_message` on a tree whose messages were changed after it was built.
The verifier recomputes one pair of message hashes; the change shows at the two
positions of that pair and nowhere else. -/
namespace CBlockchain

namespace SignedMessage

theorem length_le_mapIdx (m : SignedMessage) (write : ℕ → UInt8 → UInt8) :
    m.length ≤ (m.message.mapIdx write).length := by
  simpa using m.length_le

/-- Every byte behind `message` is replaced by what `write` makes of it. -/
def overwrite (m : SignedMessage) (write : ℕ → UInt8 → UInt8) : SignedMessage where
  message := m.message.mapIdx write
  length := m.length
  publicKey := m.publicKey
  length_le := m.length_le_mapIdx write

end SignedMessage

namespace Tampering
open Hashing Layering MerkleTree CalcMerkleTree PerfectTree MerkleProcess MerkleVerdict

/-- Memory after the bytes of the message at address `a` were overwritten in place. -/
def tamper (mem : Mem) (a : ℕ) (write : ℕ → UInt8 → UInt8) : Mem :=
  { mem with msgs := ⟨mem.msgs.cells.modify a (Option.map (·.overwrite write))⟩ }

/-- The messages as the verifier finds them after message `m` was overwritten. -/
def tampered (msg : ℕ → SignedMessage) (m : ℕ) (write : ℕ → UInt8 → UInt8) :
    ℕ → SignedMessage :=
  Function.update msg m ((msg m).overwrite write)

theorem read_tamper_self (mem : Mem) (a : ℕ) (write : ℕ → UInt8 → UInt8) :
    (tamper mem a write).msgs.read (some a) =
      (mem.msgs.read (some a)).map (·.overwrite write) := by
  simp only [tamper, Heap.read_some, List.getElem?_modify]
  rcases mem.msgs.cells[a]? with _ | _ | n <;> simp

theorem read_tamper_of_ne (mem : Mem) {a b : ℕ} (hne : a ≠ b) (write : ℕ → UInt8 → UInt8) :
    (tamper mem a write).msgs.read (some b) = mem.msgs.read (some b) := by
  simp only [tamper, Heap.read_some, List.getElem?_modify, if_neg hne]
  rcases mem.msgs.cells[b]? with _ | _ | n <;> simp

theorem MessagesAt.tamper {mem : Mem} {E msgPointer m : ℕ} {msg : ℕ → SignedMessage}
    (hm : MessagesAt mem E msgPointer msg) (write : ℕ → UInt8 → UInt8) :
    MessagesAt (tamper mem (msgPointer + m) write) E msgPointer (tampered msg m write) := by
  intro i hi
  by_cases him : i = m
  · subst him
    rw [read_tamper_self, hm i hi, tampered, Function.update_self]
    rfl
  · rw [read_tamper_of_ne mem (by omega), hm i hi, tampered, Function.update_of_ne him]

theorem pairHash_tampered_of_ne (H : GenericHash) (msg : ℕ → SignedMessage) {m r : ℕ}
    (hne : r ≠ m >>> 1) (write : ℕ → UInt8 → UInt8) :
    pairHash H (tampered msg m write) r = pairHash H msg r := by
  rw [Nat.shiftRight_eq_div_pow, pow_one] at hne
  rw [pairHash, tampered, Function.update_of_ne (by omega), Function.update_of_ne (by omega),
    pairHash]

theorem Built.tamper (H : GenericHash) {mem : Mem} {E : ℕ} {lA : List Ptr} {lP : List LayerHp}
    {mp : ℕ → Ptr} {msg : ℕ → SignedMessage} (hb : Built H mem E lA lP mp msg 0) (a : ℕ)
    (write : ℕ → UInt8 → UInt8) : Built H (tamper mem a write) E lA lP mp msg 0 where
  length_ptrs := hb.length_ptrs
  length_copies := hb.length_copies
  layer := by
    intro k hk hkE
    obtain ⟨lp, l, hA, hread, hP, hhold, hlevel⟩ := hb.layer k hk hkE
    exact ⟨lp, l, hA, hread, hP, ⟨hhold.size, hhold.length, hhold.node⟩, hlevel⟩
  hashed_msg := hb.hashed_msg
  hashed_pair := hb.hashed_pair

/-- A message overwritten so that the merged hash of its pair changes is rejected at
both positions of the pair; every other position is still accepted. -/
theorem merkleVerifyMessage_tampered (H : GenericHash) (E msgPointer m : ℕ) (mem : Mem)
    (msg : ℕ → SignedMessage) (write : ℕ → UInt8 → UInt8) (hE : 2 ≤ E)
    (hm : MessagesAt mem E msgPointer msg)
    (hchange : pairHash H (tampered msg m write) (m >>> 1) ≠ pairHash H msg (m >>> 1)) :
    ∃ cont mem', calcMerkleTree H E msgPointer mem = some (cont, mem') ∧
      ∀ i < 2 ^ E, (merkleVerifyMessage H (tamper mem' (msgPointer + m) write)
        cont.mainLayerPointer E i).result = some (if i >>> 1 = m >>> 1 then 0 else 1) := by
  obtain ⟨cont, mem', hrun, hext, hb, harr⟩ := calcMerkleTree_built H (by omega) hm
  have hb' := Built.tamper H hb (msgPointer + m) write
  have hm' := MessagesAt.tamper (m := m) (hm.extends hext) write
  refine ⟨cont, mem', hrun, ?_⟩
  intro i hi
  rw [verdict_of_built H hE hb' (hm'.read_ptrAt harr) hi]
  by_cases hside : i >>> 1 = m >>> 1
  · rw [if_pos hside, hside, if_neg hchange]
  · rw [if_neg hside, pairHash_tampered_of_ne H msg hside, if_pos rfl]

/-- Eight messages of one zero byte; the sixth byte set to one is found at positions 4
and 5 only. -/
theorem merkleVerifyMessage_tampered_at_five :
    ∃ cont mem', calcMerkleTree orHash 3 0
        (.ofMessages ((List.range (2 ^ 3)).map fun _ => byteMessage 0)) = some (cont, mem') ∧
      ∀ i < 2 ^ 3, (merkleVerifyMessage orHash (tamper mem' (0 + 5) fun _ _ => 1)
        cont.mainLayerPointer 3 i).result = some (if i >>> 1 = 2 then 0 else 1) :=
  merkleVerifyMessage_tampered orHash 3 0 5 _ (fun _ => byteMessage 0) (fun _ _ => 1)
    (by norm_num) (messagesAt_ofMessages 3 _) (by decide)

end Tampering
end CBlockchain
