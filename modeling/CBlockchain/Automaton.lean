import Mathlib

/-! Machines that take one input after the other, may stop with a fault, and put out a list
at each step. A simulation carries whole runs from one machine to another. An unwinding
relation shows that what an observer sees of a run depends on its own inputs only. -/
namespace CBlockchain

/-- One step; `none` is a fault, after which nothing happens any more. -/
abbrev Automaton (σ ι ω : Type*) := ι → σ → Option (σ × List ω)

namespace Automaton
variable {σ α ι ω : Type*}

def run (M : Automaton σ ι ω) : List ι → σ → Option (σ × List ω)
  | [], s => some (s, [])
  | i :: is, s => (M i s).bind fun r => (run M is r.1).map fun r' => (r'.1, r.2 ++ r'.2)

section Runs
variable {M : Automaton σ ι ω} {i : ι} {is js : List ι} {s s' s'' : σ} {os os' : List ω}

@[simp] theorem run_nil (M : Automaton σ ι ω) (s : σ) : run M [] s = some (s, []) := rfl

theorem run_cons_eq_some : run M (i :: is) s = some (s'', os) ↔
    ∃ s' os₁ os₂, M i s = some (s', os₁) ∧ run M is s' = some (s'', os₂) ∧ os = os₁ ++ os₂ := by
  simp only [run, Option.bind_eq_some_iff, Option.map_eq_some_iff, Prod.mk.injEq, Prod.exists]
  constructor
  · rintro ⟨s', os₁, hstep, t, os₂, hrun, rfl, rfl⟩
    exact ⟨s', os₁, os₂, hstep, hrun, rfl⟩
  · rintro ⟨s', os₁, os₂, hstep, hrun, rfl⟩
    exact ⟨s', os₁, hstep, s'', os₂, hrun, rfl, rfl⟩

theorem run_append_eq_some : run M (is ++ js) s = some (s'', os) ↔
    ∃ s' os₁ os₂, run M is s = some (s', os₁) ∧ run M js s' = some (s'', os₂) ∧
      os = os₁ ++ os₂ := by
  induction is generalizing s os with
  | nil => simp
  | cons i is ih =>
    rw [List.cons_append, run_cons_eq_some]
    constructor
    · rintro ⟨t, os₁, os₂, hstep, hrun, rfl⟩
      obtain ⟨s', os₃, os₄, his, hjs, rfl⟩ := ih.mp hrun
      exact ⟨s', os₁ ++ os₃, os₄, run_cons_eq_some.mpr ⟨t, os₁, os₃, hstep, his, rfl⟩, hjs,
        (List.append_assoc _ _ _).symm⟩
    · rintro ⟨s', os₁, os₂, his, hjs, rfl⟩
      obtain ⟨t, os₃, os₄, hstep, hrun, rfl⟩ := run_cons_eq_some.mp his
      exact ⟨t, os₃, os₄ ++ os₂, hstep, ih.mpr ⟨s', os₄, os₂, hrun, hjs, rfl⟩,
        List.append_assoc _ _ _⟩

end Runs

section Simulation

/-- Equal outputs and related states, or a fault on both sides. -/
def Agree (R : σ → α → Prop) : Option (σ × List ω) → Option (α × List ω) → Prop :=
  Option.Rel fun r r' => R r.1 r'.1 ∧ r.2 = r'.2

/-- From related states both machines answer every input alike and stay related. -/
def Simulates (M : Automaton σ ι ω) (A : Automaton α ι ω) (R : σ → α → Prop) : Prop :=
  ∀ i s a, R s a → Agree R (M i s) (A i a)

variable {M : Automaton σ ι ω} {A : Automaton α ι ω} {R : σ → α → Prop} {s s' : σ} {a : α}
  {os : List ω}

theorem Agree.exists_right {r : Option (α × List ω)} (h : Agree R (some (s, os)) r) :
    ∃ a, r = some (a, os) ∧ R s a := by
  cases h with
  | @some _ r' h =>
    obtain ⟨a, os'⟩ := r'
    obtain ⟨hR, rfl⟩ := h
    exact ⟨a, rfl, hR⟩

theorem Agree.exists_left {r : Option (σ × List ω)} (h : Agree R r (some (a, os))) :
    ∃ s, r = some (s, os) ∧ R s a := by
  cases h with
  | @some r _ h =>
    obtain ⟨s, os'⟩ := r
    obtain ⟨hR, rfl⟩ := h
    exact ⟨s, rfl, hR⟩

theorem Simulates.run (h : Simulates M A R) (is : List ι) (hR : R s a) :
    Agree R (run M is s) (Automaton.run A is a) := by
  induction is generalizing s a with
  | nil => exact .some ⟨hR, rfl⟩
  | cons i is ih =>
    have hi := h i s a hR
    simp only [Automaton.run]
    generalize M i s = r at hi ⊢
    generalize A i a = r' at hi ⊢
    cases hi with
    | none => exact .none
    | @some r r' hi =>
      have hrest := ih hi.1
      simp only [Option.bind_some]
      generalize Automaton.run M is r.1 = t at hrest ⊢
      generalize Automaton.run A is r'.1 = t' at hrest ⊢
      cases hrest with
      | none => exact .none
      | some ht =>
        refine .some ⟨ht.1, ?_⟩
        simp only [hi.2, ht.2]

end Simulation

section Unwinding

/-- `same` relates the states an observer cannot tell apart. The inputs of others keep the
state in its class and put out nothing the observer sees; an input of its own has the same
visible outputs in the whole class. -/
structure Unwinds (M : Automaton σ ι ω) (mine : ι → Bool) (sees : ω → Bool)
    (same : σ → σ → Prop) : Prop where
  equiv : Equivalence same
  others : ∀ i s s' os, mine i = false → M i s = some (s', os) →
    same s s' ∧ os.filter sees = []
  own : ∀ i s t s' t' os os', mine i = true → same s t → M i s = some (s', os) →
    M i t = some (t', os') → same s' t' ∧ os.filter sees = os'.filter sees

variable {M : Automaton σ ι ω} {mine : ι → Bool} {sees : ω → Bool} {same : σ → σ → Prop}
  {is js : List ι} {s s' t t' : σ} {os os' : List ω}

theorem Unwinds.run_others (h : Unwinds M mine sees same) (his : ∀ i ∈ is, mine i = false)
    (hrun : run M is s = some (s', os)) : same s s' ∧ os.filter sees = [] := by
  induction is generalizing s os with
  | nil =>
    simp only [run_nil, Option.some.injEq, Prod.mk.injEq] at hrun
    obtain ⟨rfl, rfl⟩ := hrun
    exact ⟨h.equiv.refl _, rfl⟩
  | cons i is ih =>
    obtain ⟨u, os₁, os₂, hi, hrest, rfl⟩ := run_cons_eq_some.mp hrun
    obtain ⟨hsame, hnil⟩ := h.others _ _ _ _ (his i List.mem_cons_self) hi
    obtain ⟨hsame', hnil'⟩ := ih (fun j hj => his j (List.mem_cons_of_mem i hj)) hrest
    exact ⟨h.equiv.trans hsame hsame', by rw [List.filter_append, hnil, hnil', List.append_nil]⟩

/-- Two runs that agree on the observer's inputs agree on what it sees. -/
theorem Unwinds.run (h : Unwinds M mine sees same) (hst : same s t)
    (hin : is.filter mine = js.filter mine) (his : Automaton.run M is s = some (s', os))
    (hjs : Automaton.run M js t = some (t', os')) :
    same s' t' ∧ os.filter sees = os'.filter sees := by
  induction is generalizing s t js os os' with
  | nil =>
    simp only [run_nil, Option.some.injEq, Prod.mk.injEq] at his
    obtain ⟨rfl, rfl⟩ := his
    have hothers : ∀ j ∈ js, mine j = false := by
      simpa using List.filter_eq_nil_iff.mp hin.symm
    obtain ⟨hsame, hnil⟩ := h.run_others hothers hjs
    exact ⟨h.equiv.trans hst hsame, by rw [hnil, List.filter_nil]⟩
  | cons i is ih =>
    obtain ⟨u, os₁, os₂, hi, hrest, rfl⟩ := run_cons_eq_some.mp his
    by_cases hmine : mine i = true
    · rw [List.filter_cons_of_pos hmine] at hin
      obtain ⟨l₁, l₂, rfl, hl₁, -, hl₂⟩ := List.filter_eq_cons_iff.mp hin.symm
      obtain ⟨v, os₃, os₄, hpre, hpost, rfl⟩ := run_append_eq_some.mp hjs
      obtain ⟨w, os₅, os₆, hi', hrest', rfl⟩ := run_cons_eq_some.mp hpost
      obtain ⟨hsame, hnil⟩ := h.run_others (by simpa using hl₁) hpre
      obtain ⟨hown, hout⟩ := h.own _ _ _ _ _ _ _ hmine (h.equiv.trans hst hsame) hi hi'
      obtain ⟨hend, hout'⟩ := ih hown hl₂.symm hrest hrest'
      refine ⟨hend, ?_⟩
      rw [List.filter_append, List.filter_append, List.filter_append, hnil, List.nil_append, hout,
        hout']
    · have hmine : mine i = false := by simpa using hmine
      rw [List.filter_cons_of_neg (by simp [hmine])] at hin
      obtain ⟨hsame, hnil⟩ := h.others _ _ _ _ hmine hi
      obtain ⟨hend, hout⟩ := ih (h.equiv.trans (h.equiv.symm hsame) hst) hin hrest hjs
      exact ⟨hend, by rw [List.filter_append, hnil, List.nil_append, hout]⟩

/-- An observer's inputs alone lead on from any state it cannot tell from the start of a run,
provided a step of its own that it went through is possible in the whole class. -/
theorem Unwinds.run_alone (h : Unwinds M mine sees same) {ok : ω → Prop}
    (hgo : ∀ i s t s' os, mine i = true → same s t → M i s = some (s', os) → (∀ o ∈ os, ok o) →
      ∃ t' os', M i t = some (t', os'))
    (hst : same s t) (hrun : Automaton.run M is s = some (s', os)) (hok : ∀ o ∈ os, ok o) :
    ∃ t' os', Automaton.run M (is.filter mine) t = some (t', os') := by
  induction is generalizing s t os with
  | nil => exact ⟨t, [], rfl⟩
  | cons i is ih =>
    obtain ⟨u, os₁, os₂, hi, hrest, rfl⟩ := run_cons_eq_some.mp hrun
    have hok₁ : ∀ o ∈ os₁, ok o := fun o ho => hok o (List.mem_append_left os₂ ho)
    have hok₂ : ∀ o ∈ os₂, ok o := fun o ho => hok o (List.mem_append_right os₁ ho)
    by_cases hmine : mine i = true
    · obtain ⟨w, os₃, hi'⟩ := hgo i s t u os₁ hmine hst hi hok₁
      obtain ⟨hown, -⟩ := h.own _ _ _ _ _ _ _ hmine hst hi hi'
      obtain ⟨t', os₄, hrest'⟩ := ih hown hrest hok₂
      rw [List.filter_cons_of_pos hmine]
      exact ⟨t', os₃ ++ os₄, run_cons_eq_some.mpr ⟨w, os₃, os₄, hi', hrest', rfl⟩⟩
    · have hmine : mine i = false := by simpa using hmine
      obtain ⟨hsame, -⟩ := h.others _ _ _ _ hmine hi
      rw [List.filter_cons_of_neg (by simp [hmine])]
      exact ih (h.equiv.trans (h.equiv.symm hsame) hst) hrest hok₂

end Unwinding
end Automaton
end CBlockchain
