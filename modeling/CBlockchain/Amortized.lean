import Mathlib.Algebra.Order.BigOperators.Group.Finset
import Mathlib.Logic.Relation

/-! Amortized bounds. A system takes steps of two kinds: those of the first use up a
potential, those of the second add to it. -/
namespace CBlockchain.Amortized
variable {σ : Type*} {work charged : σ → σ → Prop} {inv : σ → Prop} {potential : σ → ℕ} {cost : ℕ}

/-- A run with `n` steps of the first kind and `a` steps of the second. -/
inductive Run (work charged : σ → σ → Prop) (start : σ) : ℕ → ℕ → σ → Prop
  | start : Run work charged start 0 0 start
  | work {n a : ℕ} {s s' : σ} (run : Run work charged start n a s) (step : work s s') :
      Run work charged start (n + 1) a s'
  | charged {n a : ℕ} {s s' : σ} (run : Run work charged start n a s) (step : charged s s') :
      Run work charged start n (a + 1) s'

namespace Run
variable {τ : Type*} {work' charged' : τ → τ → Prop} {start s : σ} {n a : ℕ}

/-- A run is followed, step by step, by one of another system. -/
theorem follow (R : σ → τ → Prop)
    (hwork : ∀ {s s' t}, R s t → work s s' → ∃ t', work' t t' ∧ R s' t')
    (hcharged : ∀ {s s' t}, R s t → charged s s' → ∃ t', charged' t t' ∧ R s' t') {t₀ : τ}
    (hR : R start t₀) (run : Run work charged start n a s) :
    ∃ t, Run work' charged' t₀ n a t ∧ R s t := by
  induction run with
  | start => exact ⟨t₀, .start, hR⟩
  | work run step ih =>
    obtain ⟨t, hrun, ht⟩ := ih
    obtain ⟨t', hstep, ht'⟩ := hwork ht step
    exact ⟨t', .work hrun hstep, ht'⟩
  | charged run step ih =>
    obtain ⟨t, hrun, ht⟩ := ih
    obtain ⟨t', hstep, ht'⟩ := hcharged ht step
    exact ⟨t', .charged hrun hstep, ht'⟩

theorem of_steps (steps : Relation.ReflTransGen (fun s s' => work s s' ∨ charged s s') start s) :
    ∃ n a, Run work charged start n a s := by
  induction steps with
  | refl => exact ⟨0, 0, .start⟩
  | tail _ step ih =>
    obtain ⟨n, a, run⟩ := ih
    rcases step with step | step
    · exact ⟨n + 1, a, .work run step⟩
    · exact ⟨n, a + 1, .charged run step⟩

end Run

/-- The potential pays for the work, and a charged step adds at most `cost` to it. -/
structure Pays (work charged : σ → σ → Prop) (inv : σ → Prop) (potential : σ → ℕ) (cost : ℕ) :
    Prop where
  work : ∀ {s s'}, inv s → work s s' → inv s' ∧ potential s' < potential s
  charged : ∀ {s s'}, inv s → charged s s' → inv s' ∧ potential s' ≤ potential s + cost

namespace Pays
variable {start s : σ} {n a : ℕ}

theorem run_le (h : Pays work charged inv potential cost) (hinv : inv start)
    (run : Run work charged start n a s) :
    inv s ∧ n + potential s ≤ potential start + cost * a := by
  induction run with
  | start => exact ⟨hinv, by omega⟩
  | work run step ih =>
    obtain ⟨hs, hle⟩ := ih
    obtain ⟨hs', hlt⟩ := h.work hs step
    exact ⟨hs', by omega⟩
  | charged run step ih =>
    obtain ⟨hs, hle⟩ := ih
    obtain ⟨hs', hadd⟩ := h.charged hs step
    exact ⟨hs', by rw [Nat.mul_succ]; omega⟩

/-- Where some work can be done until a goal is reached, work alone reaches it. -/
theorem reaches_goal (h : Pays work charged inv potential cost) {P goal : σ → Prop}
    (progress : ∀ s, inv s → P s → ¬ goal s → ∃ s', work s s' ∧ P s') (hinv : inv s) (hP : P s) :
    ∃ s', Relation.ReflTransGen work s s' ∧ P s' ∧ goal s' := by
  induction hn : potential s using Nat.strong_induction_on generalizing s with
  | _ n ih =>
    by_cases hgoal : goal s
    · exact ⟨s, .refl, hP, hgoal⟩
    · obtain ⟨t, hstep, hPt⟩ := progress s hinv hP hgoal
      obtain ⟨hinv', hlt⟩ := h.work hinv hstep
      obtain ⟨s', hrun, hP', hgoal'⟩ := ih _ (hn ▸ hlt) hinv' hPt rfl
      exact ⟨s', hrun.head hstep, hP', hgoal'⟩

end Pays
end CBlockchain.Amortized
