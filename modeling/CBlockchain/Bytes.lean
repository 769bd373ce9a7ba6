import Mathlib

/-! Byte-level operations of the C library on byte strings. -/
namespace CBlockchain

/-- `memcmp` on the first `n` bytes: the difference of the first two bytes that
differ, 0 when there are none. -/
def memcmp : ℕ → List UInt8 → List UInt8 → ℤ
  | n + 1, x :: xs, y :: ys => if x = y then memcmp n xs ys else (x.toNat : ℤ) - y.toNat
  | _, _, _ => 0

/-- `memcpy`: the first `n` bytes of `src` replace the first `n` bytes of `dst`. -/
def memcpy (n : ℕ) (dst src : List UInt8) : List UInt8 := src.take n ++ dst.drop n

theorem memcmp_eq_zero_iff {n : ℕ} {a b : List UInt8} (ha : n ≤ a.length) (hb : n ≤ b.length) :
    memcmp n a b = 0 ↔ a.take n = b.take n := by
  induction n generalizing a b with
  | zero => simp [memcmp]
  | succ n ih =>
    cases a with
    | nil => simp at ha
    | cons x xs =>
      cases b with
      | nil => simp at hb
      | cons y ys =>
        have hh := ih (a := xs) (b := ys) (by simpa using ha) (by simpa using hb)
        by_cases hxy : x = y
        · subst y
          simp [memcmp, hh]
        · have hn : (x.toNat : ℤ) - y.toNat ≠ 0 := by
            intro h
            exact hxy (UInt8.toNat_inj.mp (by omega))
          simp [memcmp, hxy, hn]

theorem memcmp_vector {n : ℕ} (a b : Vector UInt8 n) :
    memcmp n a.toList b.toList = 0 ↔ a = b := by
  rw [memcmp_eq_zero_iff (by simp) (by simp)]
  simp [List.take_of_length_le, Vector.toList_inj]

@[simp] theorem length_memcpy {n : ℕ} {dst src : List UInt8} (hd : n ≤ dst.length)
    (hs : n ≤ src.length) : (memcpy n dst src).length = dst.length := by
  simp only [memcpy, List.length_append, List.length_take, List.length_drop]
  omega

end CBlockchain
