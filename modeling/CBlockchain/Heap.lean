import Mathlib

/-! Typed cell memory behind C pointers. Cells are handed out in order and never
reused, so an address that was valid in one memory keeps its meaning in every
memory that extends it. -/
namespace CBlockchain

/-- A C pointer: `none` is the null pointer, `some a` the cell at address `a`. -/
abbrev Ptr := Option ℕ

/-- Allocated cells in address order; a released cell holds `none`. -/
structure Heap (α : Type*) where
  cells : List (Option α)

namespace Heap
variable {α : Type*}

def empty : Heap α := ⟨[]⟩

/-- Dereference. The null pointer, a foreign address and a released cell all fault. -/
def read (h : Heap α) (p : Ptr) : Option α := p.bind fun a => (h.cells[a]?).join

def alloc (h : Heap α) (a : α) : Ptr × Heap α :=
  (some h.cells.length, ⟨h.cells ++ [some a]⟩)

def free (h : Heap α) : Ptr → Heap α
  | none => h
  | some a => ⟨h.cells.set a none⟩

/-- Every cell readable before is readable afterwards, with the same contents. -/
def Extends (h h' : Heap α) : Prop := ∀ p a, h.read p = some a → h'.read p = some a

@[simp] theorem read_null (h : Heap α) : h.read none = none := rfl

theorem read_some (h : Heap α) (a : ℕ) : h.read (some a) = (h.cells[a]?).join := rfl

theorem Extends.refl (h : Heap α) : h.Extends h := fun _ _ hr => hr

theorem Extends.trans {h₁ h₂ h₃ : Heap α} (h12 : h₁.Extends h₂) (h23 : h₂.Extends h₃) :
    h₁.Extends h₃ := fun p a hr => h23 p a (h12 p a hr)

@[simp] theorem read_alloc_self (h : Heap α) (a : α) :
    (h.alloc a).2.read (h.alloc a).1 = some a := by
  simp [alloc, read]

theorem read_some_lt {h : Heap α} {n : ℕ} {a : α} (hr : h.read (some n) = some a) :
    n < h.cells.length := by
  by_contra hn
  simp [read, List.getElem?_eq_none (not_lt.mp hn)] at hr

theorem alloc_extends (h : Heap α) (a : α) : h.Extends (h.alloc a).2 := by
  intro p b hr
  cases p with
  | none => simp at hr
  | some n =>
    have hn := read_some_lt hr
    simp only [read_some] at hr ⊢
    simpa [alloc, List.getElem?_append_left hn] using hr

end Heap
end CBlockchain
