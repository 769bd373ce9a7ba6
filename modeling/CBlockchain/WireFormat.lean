import Mathlib

/-! The part of the protocol-buffer wire format that messages with integer and byte
fields use: base-128 integers, tagged fields, and the fields of a message in the
order they were written. Integers have no size limit here. -/
namespace CBlockchain.WireFormat

/-- Groups of seven bits, lowest first; every group but the last carries the mark 128. -/
def putVarint (n : ℕ) : List UInt8 :=
  if n < 128 then [UInt8.ofNat n] else UInt8.ofNat (128 + n % 128) :: putVarint (n / 128)

def getVarint : List UInt8 → Option (ℕ × List UInt8)
  | [] => none
  | b :: bs =>
    if b.toNat < 128 then some (b.toNat, bs)
    else (getVarint bs).map fun p => (128 * p.1 + (b.toNat - 128), p.2)

theorem getVarint_put (n : ℕ) (tail : List UInt8) :
    getVarint (putVarint n ++ tail) = some (n, tail) := by
  induction n using Nat.strong_induction_on with
  | _ n ih =>
    rw [putVarint]
    by_cases hn : n < 128
    · have hb : (UInt8.ofNat n).toNat = n := UInt8.toNat_ofNat_of_lt' (by norm_num; omega)
      simp [hn, getVarint, hb]
    · have hb : (UInt8.ofNat (128 + n % 128)).toNat = 128 + n % 128 :=
        UInt8.toNat_ofNat_of_lt' (by norm_num; omega)
      rw [if_neg hn, List.cons_append, getVarint, hb, if_neg (by omega), ih (n / 128) (by omega)]
      simp only [Option.map_some, Option.some.injEq, Prod.mk.injEq, and_true]
      omega

theorem putVarint_small {n : ℕ} (hn : n < 128) : putVarint n = [UInt8.ofNat n] := by
  rw [putVarint, if_pos hn]

theorem putVarint_ne_nil (n : ℕ) : putVarint n ≠ [] := by
  rw [putVarint]
  split <;> simp

theorem length_putVarint_le {k : ℕ} : ∀ {n : ℕ}, n < 128 ^ (k + 1) → (putVarint n).length ≤ k + 1 := by
  induction k with
  | zero =>
    intro n hn
    rw [putVarint_small (by simpa using hn)]
    simp
  | succ k ih =>
    intro n hn
    rw [putVarint]
    split
    · simp
    · have hdiv : n / 128 < 128 ^ (k + 1) := Nat.div_lt_of_lt_mul (by rw [pow_succ'] at hn; exact hn)
      have h := ih hdiv
      rw [List.length_cons]
      omega

inductive Value where
  | varint (n : ℕ)
  | bytes (data : List UInt8)
  deriving DecidableEq

structure Field where
  number : ℕ
  value : Value
  deriving DecidableEq

/-- Tag, then the payload; byte strings carry their length. -/
def putField (f : Field) : List UInt8 :=
  match f.value with
  | .varint n => putVarint (8 * f.number) ++ putVarint n
  | .bytes data => putVarint (8 * f.number + 2) ++ (putVarint data.length ++ data)

def getField (input : List UInt8) : Option (Field × List UInt8) := do
  let (tag, rest) ← getVarint input
  let (n, rest) ← getVarint rest
  if tag % 8 = 0 then some (⟨tag / 8, .varint n⟩, rest)
  else if tag % 8 = 2 ∧ n ≤ rest.length then some (⟨tag / 8, .bytes (rest.take n)⟩, rest.drop n)
  else none

theorem getField_put (f : Field) (tail : List UInt8) :
    getField (putField f ++ tail) = some (f, tail) := by
  obtain ⟨number, value⟩ := f
  cases value with
  | varint n => simp [putField, getField, List.append_assoc, getVarint_put]
  | bytes data =>
    have hmod : (8 * number + 2) % 8 = 2 := by omega
    have hdiv : (8 * number + 2) / 8 = number := by omega
    simp [putField, getField, List.append_assoc, getVarint_put, hmod, hdiv]

def getFields : ℕ → List UInt8 → Option (List Field)
  | _, [] => some []
  | 0, _ => none
  | fuel + 1, input => do
    let (f, rest) ← getField input
    let fs ← getFields fuel rest
    some (f :: fs)

def putFields (fs : List Field) : List UInt8 := fs.flatMap putField

theorem putField_ne_nil (f : Field) : putField f ≠ [] := by
  unfold putField
  split <;> simp [putVarint_ne_nil]

theorem getFields_succ {fuel : ℕ} {input : List UInt8} (h : input ≠ []) :
    getFields (fuel + 1) input =
      (getField input).bind fun p => (getFields fuel p.2).map (p.1 :: ·) := by
  cases input with
  | nil => exact absurd rfl h
  | cons b bs =>
    rw [getFields]
    · cases getField (b :: bs) with
      | none => rfl
      | some p => cases hf : getFields fuel p.2 <;> simp [hf]
    · exact h

theorem getFields_put_fuel (fs : List Field) (fuel : ℕ) (hf : fs.length ≤ fuel) :
    getFields fuel (putFields fs) = some fs := by
  induction fs generalizing fuel with
  | nil => cases fuel <;> simp [putFields, getFields]
  | cons f fs ih =>
    cases fuel with
    | zero => simp at hf
    | succ fuel =>
      have hput : putFields (f :: fs) = putField f ++ putFields fs := by simp [putFields]
      rw [hput, getFields_succ (by simp [putField_ne_nil]), getField_put]
      simp [ih fuel (by simpa using hf)]

theorem length_le_putFields (fs : List Field) : fs.length ≤ (putFields fs).length := by
  induction fs with
  | nil => simp [putFields]
  | cons f fs ih =>
    have hpos := List.length_pos_iff.mpr (putField_ne_nil f)
    simp only [putFields, List.flatMap_cons, List.length_append, List.length_cons] at ih ⊢
    omega

theorem getFields_put (fs : List Field) :
    getFields (putFields fs).length (putFields fs) = some fs :=
  getFields_put_fuel fs _ (length_le_putFields fs)

/-- The value a field that may occur once takes: its last occurrence counts. -/
def lastValue (number : ℕ) (fs : List Field) : Option Value :=
  (fs.reverse.find? fun f => f.number == number).map Field.value

theorem lastValue_append (number : ℕ) (fs gs : List Field) :
    lastValue number (fs ++ gs) = (lastValue number gs).or (lastValue number fs) := by
  simp only [lastValue, List.reverse_append, List.find?_append]
  cases gs.reverse.find? fun f => f.number == number <;> rfl

/-- Fields written in the order of their numbers, from the values that are present. -/
def presentFields (value : ℕ → Option Value) (numbers : List ℕ) : List Field :=
  numbers.filterMap fun k => (value k).map (Field.mk k)

theorem lastValue_presentFields (value : ℕ → Option Value) {numbers : List ℕ}
    (hnodup : numbers.Nodup) (k : ℕ) :
    lastValue k (presentFields value numbers) = if k ∈ numbers then value k else none := by
  induction numbers with
  | nil => rfl
  | cons j numbers ih =>
    obtain ⟨hj, hrest⟩ := List.nodup_cons.mp hnodup
    have hcons : presentFields value (j :: numbers) =
        ((value j).map (Field.mk j)).toList ++ presentFields value numbers := by
      cases hv : value j <;> simp [presentFields, hv]
    rw [hcons, lastValue_append, ih hrest]
    by_cases hk : k = j
    · subst hk
      cases hv : value k <;> simp [hj, lastValue]
    · have hkj : j ≠ k := Ne.symm hk
      by_cases hmem : k ∈ numbers <;> cases hv : value j <;> cases hw : value k <;>
        simp [hmem, hk, hkj, lastValue]

end CBlockchain.WireFormat
