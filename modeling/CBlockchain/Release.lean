import CBlockchain.Heap

/-! Giving cells back. Releasing a pointer to nothing is no fault, releasing one whose cell is
gone or foreign is. A stretch of cells created one after the other can be given back in
any order, once each, and afterwards the memory reads as it did before them. -/
namespace CBlockchain.Heap
variable {α : Type*}

/-- `free`; the null pointer is allowed, a second `free` of one cell is not. -/
def release (h : Heap α) (p : Ptr) : Option (Heap α) :=
  if p = none then some h else (h.read p).map fun _ => h.free p

def releaseAll (ps : List Ptr) (h : Heap α) : Option (Heap α) := ps.foldlM release h

theorem releaseAll_cons (p : Ptr) (ps : List Ptr) (h : Heap α) :
    releaseAll (p :: ps) h = (h.release p).bind (releaseAll ps) := rfl

theorem releaseAll_append (ps qs : List Ptr) (h : Heap α) :
    releaseAll (ps ++ qs) h = (releaseAll ps h).bind (releaseAll qs) := List.foldlM_append

theorem read_free (h : Heap α) (p q : Ptr) :
    (h.free p).read q = if q = p then none else h.read q := by
  cases p with
  | none =>
    cases q with
    | none => rfl
    | some b => rfl
  | some a =>
    cases q with
    | none => rfl
    | some b =>
      simp only [free, read_some, Option.some.injEq]
      by_cases hab : b = a
      · subst hab
        rw [if_pos rfl, List.getElem?_set]
        by_cases hlt : b < h.cells.length
        · simp [hlt]
        · simp [hlt]
      · rw [if_neg hab, List.getElem?_set_ne (Ne.symm hab)]

theorem release_live {h : Heap α} {p : Ptr} {x : α} (hp : h.read p = some x) :
    h.release p = some (h.free p) := by
  have hne : p ≠ none := by
    rintro rfl
    cases hp
  rw [release, if_neg hne, hp, Option.map_some]

/-- Different cells that are all there can be given back, and no other cell notices. -/
theorem releaseAll_spec {ps : List Ptr} {h : Heap α} (hnodup : ps.Nodup)
    (hlive : ∀ p ∈ ps, ∃ x, h.read p = some x) : ∃ h', releaseAll ps h = some h' ∧
      ∀ q, h'.read q = if q ∈ ps then none else h.read q := by
  induction ps generalizing h with
  | nil => exact ⟨h, rfl, fun q => by simp⟩
  | cons p ps ih =>
    obtain ⟨hnot, hnodup⟩ := List.nodup_cons.mp hnodup
    obtain ⟨x, hx⟩ := hlive p List.mem_cons_self
    obtain ⟨h', hrun, hread⟩ := ih (h := h.free p) hnodup (by
      intro q hq
      have hne : q ≠ p := fun heq => hnot (heq ▸ hq)
      rw [read_free, if_neg hne]
      exact hlive q (List.mem_cons_of_mem p hq))
    refine ⟨h', by rw [releaseAll_cons, release_live hx, Option.bind_some, hrun], fun q => ?_⟩
    rw [hread, read_free]
    by_cases hq : q = p
    · simp [hq]
    · simp [hq]

/-- Null pointers do not matter. -/
theorem releaseAll_filter (ps : List Ptr) (h : Heap α) :
    releaseAll (ps.filter (· ≠ none)) h = releaseAll ps h := by
  induction ps generalizing h with
  | nil => rfl
  | cons p ps ih =>
    by_cases hp : p = none
    · rw [List.filter_cons_of_neg (by simp [hp]), ih, releaseAll_cons, release, if_pos hp,
        Option.bind_some]
    · rw [List.filter_cons_of_pos (by simp [hp]), releaseAll_cons, releaseAll_cons]
      exact congrArg _ (funext ih)

/-- A pointer to a cell that is gone stops the rest. -/
theorem releaseAll_dangling {ps : List Ptr} {h : Heap α} {p : Ptr} (hmem : p ∈ ps)
    (hne : p ≠ none) (hgone : h.read p = none) : releaseAll ps h = none := by
  induction ps generalizing h with
  | nil => cases hmem
  | cons q ps ih =>
    rw [releaseAll_cons]
    by_cases hq : p = q
    · subst hq
      rw [release, if_neg hne, hgone]
      rfl
    · have hps := (List.mem_cons.mp hmem).resolve_left hq
      cases hrun : h.release q with
      | none => rfl
      | some h' =>
        refine ih hps ?_
        unfold release at hrun
        split at hrun
        · cases hrun
          exact hgone
        · obtain ⟨x, -, rfl⟩ := Option.map_eq_some_iff.mp hrun
          rw [read_free, if_neg hq, hgone]

theorem length_releaseAll {ps : List Ptr} {h h' : Heap α} (hrun : releaseAll ps h = some h') :
    h'.cells.length = h.cells.length := by
  induction ps generalizing h with
  | nil =>
    cases hrun
    rfl
  | cons p ps ih =>
    rw [releaseAll_cons] at hrun
    obtain ⟨h₁, hfirst, hrest⟩ := Option.bind_eq_some_iff.mp hrun
    rw [ih hrest]
    unfold release at hfirst
    split at hfirst
    · cases hfirst
      rfl
    · obtain ⟨x, -, rfl⟩ := Option.map_eq_some_iff.mp hfirst
      cases p with
      | none => rfl
      | some a => exact List.length_set

/-- The number of cells that have not been given back. -/
def live (h : Heap α) : ℕ := h.cells.countP Option.isSome

theorem live_alloc (h : Heap α) (x : α) : (h.alloc x).2.live = h.live + 1 := by
  simp [alloc, live]

theorem live_free {h : Heap α} {p : Ptr} {x : α} (hp : h.read p = some x) :
    (h.free p).live + 1 = h.live := by
  cases p with
  | none => cases hp
  | some a =>
    have hlt := read_some_lt hp
    rw [read_some, List.getElem?_eq_getElem hlt, Option.join_some] at hp
    have hpos : 0 < h.cells.countP Option.isSome :=
      List.countP_pos_iff.mpr ⟨h.cells[a], List.getElem_mem hlt, by simp [hp]⟩
    rw [free, live, live, List.countP_set hlt, hp]
    simp
    omega

theorem live_releaseAll {ps : List Ptr} {h h' : Heap α} (hne : none ∉ ps)
    (hrun : releaseAll ps h = some h') : h'.live + ps.length = h.live := by
  induction ps generalizing h with
  | nil =>
    cases hrun
    rfl
  | cons p ps ih =>
    rw [releaseAll_cons] at hrun
    obtain ⟨h₁, hfirst, hrest⟩ := Option.bind_eq_some_iff.mp hrun
    have hp : p ≠ none := fun heq => hne (heq ▸ List.mem_cons_self)
    rw [release, if_neg hp, Option.map_eq_some_iff] at hfirst
    obtain ⟨x, hx, rfl⟩ := hfirst
    have hfree := live_free hx
    have hlen := ih (fun hmem => hne (List.mem_cons_of_mem p hmem)) hrest
    rw [List.length_cons]
    omega

/-- `h` is `h₀` with the cells at `ps` created after it, in the order of `ps`. -/
structure Grown (h₀ h : Heap α) (ps : List Ptr) : Prop where
  cells : ∃ xs : List α, h.cells = h₀.cells ++ xs.map some ∧ xs.length = ps.length
  ptrs : ps = (List.range ps.length).map fun t => some (h₀.cells.length + t)

namespace Grown
variable {h₀ h h₁ h₂ : Heap α} {ps qs : List Ptr}

theorem refl (h : Heap α) : Grown h h [] := ⟨⟨[], by simp, rfl⟩, rfl⟩

theorem length_cells (g : Grown h₀ h ps) : h.cells.length = h₀.cells.length + ps.length := by
  obtain ⟨xs, hcells, hlen⟩ := g.cells
  rw [hcells, List.length_append, List.length_map, hlen]

theorem trans (g : Grown h₀ h₁ ps) (g' : Grown h₁ h₂ qs) : Grown h₀ h₂ (ps ++ qs) where
  cells := by
    obtain ⟨xs, hcells, hlen⟩ := g.cells
    obtain ⟨ys, hcells', hlen'⟩ := g'.cells
    refine ⟨xs ++ ys, ?_, by rw [List.length_append, List.length_append, hlen, hlen']⟩
    rw [hcells', hcells, List.map_append, List.append_assoc]
  ptrs := by
    have hqs := g'.ptrs
    rw [g.length_cells] at hqs
    rw [List.length_append, List.range_add, List.map_append, ← g.ptrs, List.map_map]
    conv_lhs => rw [hqs]
    simp [Function.comp_def, Nat.add_assoc]

theorem alloc (h : Heap α) (x : α) : Grown h (h.alloc x).2 [(h.alloc x).1] :=
  ⟨⟨[x], rfl, rfl⟩, rfl⟩

theorem mem_iff (g : Grown h₀ h ps) {q : Ptr} :
    q ∈ ps ↔ ∃ t < ps.length, q = some (h₀.cells.length + t) := by
  rw [g.ptrs]
  simp only [List.mem_map, List.mem_range, List.length_map, List.length_range, eq_comm]

theorem nodup (g : Grown h₀ h ps) : ps.Nodup := by
  rw [g.ptrs]
  apply List.nodup_range.map
  intro a b hab
  simpa using hab

theorem live (g : Grown h₀ h ps) : ∀ p ∈ ps, ∃ x, h.read p = some x := by
  intro p hp
  obtain ⟨t, ht, rfl⟩ := g.mem_iff.mp hp
  obtain ⟨xs, hcells, hlen⟩ := g.cells
  refine ⟨xs[t], ?_⟩
  rw [read_some, hcells, List.getElem?_append_right (Nat.le_add_right _ _), Nat.add_sub_cancel_left,
    List.getElem?_map, List.getElem?_eq_getElem (hlen ▸ ht)]
  rfl

/-- The cells from before are read as before, and the new ones were not there. -/
theorem read (g : Grown h₀ h ps) (q : Ptr) :
    (if q ∈ ps then none else h.read q) = h₀.read q := by
  obtain ⟨xs, hcells, hlen⟩ := g.cells
  cases q with
  | none => simp
  | some a =>
    by_cases hmem : some a ∈ ps
    · obtain ⟨t, -, ha⟩ := g.mem_iff.mp hmem
      rw [if_pos hmem, read_some, List.getElem?_eq_none (by simp at ha; omega)]
      rfl
    · rw [if_neg hmem, read_some, read_some, hcells]
      by_cases hlt : a < h₀.cells.length
      · rw [List.getElem?_append_left hlt]
      · have hge : ps.length ≤ a - h₀.cells.length := by
          by_contra hin
          exact hmem (g.mem_iff.mpr ⟨a - h₀.cells.length, by omega, by
            rw [Nat.add_sub_cancel' (by omega)]⟩)
        rw [List.getElem?_append_right (by omega), List.getElem?_eq_none (by simp; omega),
          List.getElem?_eq_none (by omega)]

theorem keeps (g : Grown h₀ h ps) : h₀.Extends h := by
  intro p x hp
  have hread := g.read p
  split at hread
  · rw [hp] at hread
    cases hread
  · rw [hread, hp]

/-- A new cell is a new cell whatever it holds. -/
theorem modify (g : Grown h₀ h ps) {a : ℕ} (ha : some a ∈ ps) (f : α → α) :
    Grown h₀ ⟨h.cells.modify a (Option.map f)⟩ ps where
  cells := by
    obtain ⟨xs, hcells, hlen⟩ := g.cells
    obtain ⟨t, -, hat⟩ := g.mem_iff.mp ha
    obtain rfl : a = h₀.cells.length + t := Option.some.inj hat
    refine ⟨xs.modify t f, ?_, by rw [List.length_modify, hlen]⟩
    apply List.ext_getElem?
    intro q
    simp only [hcells, List.getElem?_modify, List.getElem?_append, List.getElem?_map]
    by_cases hq : q < h₀.cells.length
    · have hne : h₀.cells.length + t ≠ q := by omega
      simp [hq, hne]
    · rw [if_neg hq, if_neg hq]
      by_cases hqt : t = q - h₀.cells.length
      · have heq : h₀.cells.length + t = q := by omega
        simp [← hqt, heq, Function.comp_def]
      · have hne : h₀.cells.length + t ≠ q := by omega
        simp [hqt, hne]
  ptrs := g.ptrs

/-- The new cells can be given back in any order. -/
theorem releaseAll (g : Grown h₀ h ps) (hperm : qs.Perm ps) :
    ∃ h', Heap.releaseAll qs h = some h' ∧ ∀ q, h'.read q = h₀.read q := by
  obtain ⟨h', hrun, hread⟩ := releaseAll_spec (h := h) (hperm.nodup_iff.mpr g.nodup)
    fun p hp => g.live p (hperm.mem_iff.mp hp)
  refine ⟨h', hrun, fun q => ?_⟩
  rw [hread, ← g.read q]
  simp only [hperm.mem_iff]

end Grown
end CBlockchain.Heap
