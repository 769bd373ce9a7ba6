import Mathlib

/-! Partial computations that record what they do. A run carries the events it
emitted, in order, also when it ends in a fault; the result of a faulting run is
`none`. -/
namespace CBlockchain

structure Traced (ε α : Type*) where
  trace : List ε
  result : Option α

namespace Traced
universe u v
variable {ε : Type u} {α β : Type v}

def ok (a : α) : Traced ε α := ⟨[], some a⟩

def fault : Traced ε α := ⟨[], none⟩

def emit (e : ε) (r : Traced ε α) : Traced ε α := ⟨e :: r.trace, r.result⟩

def lift : Option α → Traced ε α
  | some a => ok a
  | none => fault

/-- A fault ends the run: the events of the continuation never happen. -/
def andThen (r : Traced ε α) (f : α → Traced ε β) : Traced ε β :=
  match r.result with
  | none => ⟨r.trace, none⟩
  | some a => ⟨r.trace ++ (f a).trace, (f a).result⟩

instance : Monad (Traced ε) where
  pure := ok
  bind := andThen

@[simp] theorem pure_eq (a : α) : (pure a : Traced ε α) = ⟨[], some a⟩ := rfl

@[simp] theorem lift_some (a : α) : (lift (some a) : Traced ε α) = ⟨[], some a⟩ := rfl

@[simp] theorem lift_none : (lift none : Traced ε α) = ⟨[], none⟩ := rfl

@[simp] theorem emit_mk (e : ε) (es : List ε) (o : Option α) :
    emit e ⟨es, o⟩ = ⟨e :: es, o⟩ := rfl

@[simp] theorem bind_mk_some (es : List ε) (a : α) (f : α → Traced ε β) :
    ((⟨es, some a⟩ : Traced ε α) >>= f) = ⟨es ++ (f a).trace, (f a).result⟩ := rfl

@[simp] theorem bind_mk_none (es : List ε) (f : α → Traced ε β) :
    ((⟨es, none⟩ : Traced ε α) >>= f) = ⟨es, none⟩ := rfl

theorem result_bind (r : Traced ε α) (f : α → Traced ε β) :
    (r >>= f).result = r.result.bind fun a => (f a).result := by
  obtain ⟨tr, _ | a⟩ := r <;> rfl

theorem mem_bind_left {e : ε} {r : Traced ε α} (f : α → Traced ε β) (h : e ∈ r.trace) :
    e ∈ (r >>= f).trace := by
  obtain ⟨tr, _ | a⟩ := r
  · exact h
  · exact List.mem_append_left _ h

theorem mem_bind_right {e : ε} {r : Traced ε α} {f : α → Traced ε β} {a : α}
    (hr : r.result = some a) (h : e ∈ (f a).trace) : e ∈ (r >>= f).trace := by
  obtain ⟨tr, _ | b⟩ := r
  · cases hr
  · obtain rfl : b = a := Option.some.inj hr
    exact List.mem_append_right _ h

theorem mem_bind {e : ε} {r : Traced ε α} {f : α → Traced ε β} (h : e ∈ (r >>= f).trace) :
    e ∈ r.trace ∨ ∃ a, r.result = some a ∧ e ∈ (f a).trace := by
  obtain ⟨tr, _ | a⟩ := r
  · exact Or.inl h
  · rcases List.mem_append.mp h with h | h
    · exact Or.inl h
    · exact Or.inr ⟨a, rfl, h⟩

/-- Every event of the run satisfies `P`. -/
def Always (P : ε → Prop) (r : Traced ε α) : Prop := ∀ e ∈ r.trace, P e

section Always
variable {P : ε → Prop}

theorem always_pure (a : α) : (pure a : Traced ε α).Always P := by
  intro e he
  cases he

theorem always_lift (o : Option α) : (lift o : Traced ε α).Always P := by
  intro e he
  cases o <;> cases he

theorem always_emit {e : ε} {r : Traced ε α} (he : P e) (hr : r.Always P) :
    (emit e r).Always P := by
  intro e' h
  rcases List.mem_cons.mp h with rfl | h
  · exact he
  · exact hr e' h

theorem always_bind {r : Traced ε α} {f : α → Traced ε β} (hr : r.Always P)
    (hf : ∀ a, r.result = some a → (f a).Always P) : (r >>= f).Always P := by
  intro e he
  rcases mem_bind he with h | ⟨a, ha, h⟩
  · exact hr e h
  · exact hf a ha e h

theorem always_lift_bind {o : Option α} {f : α → Traced ε β}
    (hf : ∀ a, o = some a → (f a).Always P) : (lift o >>= f).Always P := by
  cases o with
  | none => exact always_lift none
  | some a => exact always_bind (always_lift (some a)) fun b hb => hf b hb

theorem always_ite {p : Prop} [Decidable p] {r s : Traced ε α} (hr : p → r.Always P)
    (hs : ¬ p → s.Always P) : (if p then r else s).Always P := by
  split
  · exact hr ‹_›
  · exact hs ‹_›

end Always

end Traced
end CBlockchain
