import Mathlib

/-! Writes into flat buffers. A write replaces a window of the buffer; what lies in the
window is what was written, and every window beside it keeps its contents. `Copy` records
how far a copy reaches, against the room it has and the source it reads. -/
namespace CBlockchain.Copying
variable {α : Type*}

/-- `src` in place of what `buf` held from `off` on. -/
def writeAt (off : ℕ) (src buf : List α) : List α :=
  buf.take off ++ src ++ buf.drop (off + src.length)

/-- The `n` elements of `buf` from `off` on. -/
def slice (off n : ℕ) (buf : List α) : List α := (buf.drop off).take n

theorem length_writeAt {off : ℕ} {src buf : List α} (h : off + src.length ≤ buf.length) :
    (writeAt off src buf).length = buf.length := by
  simp only [writeAt, List.length_append, List.length_take, List.length_drop]
  omega

theorem getElem?_writeAt {off : ℕ} {src buf : List α} (h : off + src.length ≤ buf.length)
    (i : ℕ) : (writeAt off src buf)[i]? =
      if off ≤ i ∧ i < off + src.length then src[i - off]? else buf[i]? := by
  have htake : (buf.take off).length = off := by
    rw [List.length_take]
    omega
  rw [writeAt, List.append_assoc, List.getElem?_append, htake]
  by_cases hlow : i < off
  · rw [if_pos hlow, if_neg (by omega), List.getElem?_take_of_lt hlow]
  · rw [if_neg hlow, List.getElem?_append]
    by_cases hin : i - off < src.length
    · rw [if_pos hin, if_pos (by omega)]
    · rw [if_neg hin, if_neg (by omega), List.getElem?_drop]
      congr 1
      omega

theorem getElem?_slice (off n : ℕ) (buf : List α) (i : ℕ) :
    (slice off n buf)[i]? = if i < n then buf[off + i]? else none := by
  rw [slice, List.getElem?_take, List.getElem?_drop]

/-- The window that was written. -/
theorem slice_writeAt_self (off : ℕ) (src : List α) {buf : List α}
    (h : off + src.length ≤ buf.length) :
    slice off src.length (writeAt off src buf) = src := by
  apply List.ext_getElem?
  intro i
  rw [getElem?_slice, getElem?_writeAt h]
  by_cases hi : i < src.length
  · rw [if_pos hi, if_pos (by omega), Nat.add_sub_cancel_left]
  · rw [if_neg hi, List.getElem?_eq_none (by omega)]

/-- A window beside the one that was written. -/
theorem slice_writeAt_of_disjoint {off o n : ℕ} {src buf : List α}
    (h : off + src.length ≤ buf.length) (hd : o + n ≤ off ∨ off + src.length ≤ o) :
    slice o n (writeAt off src buf) = slice o n buf := by
  apply List.ext_getElem?
  intro i
  rw [getElem?_slice, getElem?_slice, getElem?_writeAt h]
  by_cases hi : i < n
  · rw [if_pos hi, if_neg (by omega), if_pos hi]
  · rw [if_neg hi, if_neg hi]

/-- A buffer is the sequence of its adjacent windows. -/
theorem slice_append_slice (off m n : ℕ) (buf : List α) :
    slice off m buf ++ slice (off + m) n buf = slice off (m + n) buf := by
  rw [slice, slice, slice, ← List.drop_drop, List.take_add]

/-- The adjacent windows of the given lengths from `off` on, run together. -/
def windows (off : ℕ) : List ℕ → List α → List α
  | [], _ => []
  | n :: ns, buf => slice off n buf ++ windows (off + n) ns buf

theorem windows_eq (off : ℕ) (ns : List ℕ) (buf : List α) :
    windows off ns buf = slice off ns.sum buf := by
  induction ns generalizing off with
  | nil => simp [windows, slice]
  | cons n ns ih => rw [windows, ih, slice_append_slice, List.sum_cons]

theorem slice_zero_length (buf : List α) : slice 0 buf.length buf = buf := by
  rw [slice, List.drop_zero, List.take_length]

/-- A window whose beginning was written; the rest of it keeps its contents. -/
theorem slice_writeAt_of_le {off n : ℕ} {src buf : List α} (h : off + n ≤ buf.length)
    (hn : src.length ≤ n) : slice off n (writeAt off src buf) =
      src ++ slice (off + src.length) (n - src.length) buf := by
  have hin : off + src.length ≤ buf.length := by omega
  rw [show n = src.length + (n - src.length) by omega, ← slice_append_slice,
    slice_writeAt_self _ _ hin, slice_writeAt_of_disjoint hin (by omega), Nat.add_sub_cancel_left]

section Writes
variable {ws pre post : List (ℕ × List α)} {buf : List α}

/-- Writes one after the other, each an offset and what is written there. -/
def writes (ws : List (ℕ × List α)) (buf : List α) : List α :=
  ws.foldl (fun buf w => writeAt w.1 w.2 buf) buf

/-- No write goes beyond position `n`. -/
def Fit (n : ℕ) (ws : List (ℕ × List α)) : Prop := ∀ w ∈ ws, w.1 + w.2.length ≤ n

/-- No write touches the `n` positions from `off` on. -/
def Beside (off n : ℕ) (ws : List (ℕ × List α)) : Prop :=
  ∀ w ∈ ws, off + n ≤ w.1 ∨ w.1 + w.2.length ≤ off

theorem writes_append (pre post : List (ℕ × List α)) (buf : List α) :
    writes (pre ++ post) buf = writes post (writes pre buf) := List.foldl_append

theorem length_writes (h : Fit buf.length ws) : (writes ws buf).length = buf.length := by
  induction ws generalizing buf with
  | nil => rfl
  | cons w ws ih =>
    have hw := length_writeAt (h w List.mem_cons_self)
    rw [← hw]
    apply ih
    rw [hw]
    exact fun v hv => h v (List.mem_cons_of_mem w hv)

theorem slice_writes_of_beside {off n : ℕ} (h : Fit buf.length ws) (hb : Beside off n ws) :
    slice off n (writes ws buf) = slice off n buf := by
  induction ws generalizing buf with
  | nil => rfl
  | cons w ws ih =>
    have hfit := h w List.mem_cons_self
    rw [← slice_writeAt_of_disjoint (o := off) (n := n) hfit (hb w List.mem_cons_self)]
    apply ih
    · rw [length_writeAt hfit]
      exact fun v hv => h v (List.mem_cons_of_mem w hv)
    · exact fun v hv => hb v (List.mem_cons_of_mem w hv)

/-- A field that one write begins and no other touches. -/
theorem slice_writes_field {off n : ℕ} {data : List α} (hfit : off + n ≤ buf.length)
    (hn : data.length ≤ n) (hpre : Fit buf.length pre) (hpost : Fit buf.length post)
    (hbpre : Beside off n pre) (hbpost : Beside off n post) :
    slice off n (writes (pre ++ (off, data) :: post) buf) =
      data ++ slice (off + data.length) (n - data.length) buf := by
  have hlen := length_writes hpre
  have hin : off + data.length ≤ (writes pre buf).length := by omega
  rw [writes_append]
  change slice off n (writes post (writeAt off data (writes pre buf))) = _
  rw [slice_writes_of_beside (by rw [length_writeAt hin, hlen]; exact hpost) hbpost,
    slice_writeAt_of_le (by rw [hlen]; exact hfit) hn,
    slice_writes_of_beside hpre]
  intro w hw
  rcases hbpre w hw with hlow | hhigh
  · left
    omega
  · right
    omega

end Writes

/-- A copy of `len` bytes into a field with `room` bytes, from an object of `source`
bytes. -/
structure Copy where
  len : ℕ
  room : ℕ
  source : ℕ
  deriving DecidableEq

/-- The copy stays inside the field and inside the object. -/
def Copy.InBounds (c : Copy) : Prop := c.len ≤ c.room ∧ c.len ≤ c.source

instance Copy.decidableInBounds (c : Copy) : Decidable c.InBounds :=
  inferInstanceAs (Decidable (_ ∧ _))

end CBlockchain.Copying
