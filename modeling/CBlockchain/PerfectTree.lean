import Mathlib

/-! Perfect binary trees over an arbitrary leaf map and an arbitrary binary node
map. `root` is the recursive value of a tree of height `h`, `subtree` addresses
its inner nodes by height and position, and `climb` recomputes a root from one
node and the siblings on its path. The node map is never assumed injective:
equal roots of different trees are turned into two different node inputs with
one output. -/
namespace CBlockchain.PerfectTree
variable {α δ : Type*} (leaf : α → δ) (node : δ → δ → δ)

/-- Value of the tree of height `h` over the leaves `f 0, …, f (2^h - 1)`. -/
def root : ℕ → (ℕ → α) → δ
  | 0, f => leaf (f 0)
  | h + 1, f => node (root h f) (root h fun i => f (2 ^ h + i))

/-- Value at position `j` among the subtrees of height `h`. -/
def subtree (h j : ℕ) (f : ℕ → α) : δ := root leaf node h fun i => f (j * 2 ^ h + i)

@[simp] theorem subtree_zero (j : ℕ) (f : ℕ → α) : subtree leaf node 0 j f = leaf (f j) := by
  simp [subtree, root]

theorem subtree_at_zero (h : ℕ) (f : ℕ → α) :
    subtree leaf node h 0 f = root leaf node h f := by
  simp [subtree]

theorem subtree_succ (h j : ℕ) (f : ℕ → α) :
    subtree leaf node (h + 1) j f =
      node (subtree leaf node h (2 * j) f) (subtree leaf node h (2 * j + 1) f) := by
  have hl : j * 2 ^ (h + 1) = 2 * j * 2 ^ h := by ring
  have hr : ∀ i, j * 2 ^ (h + 1) + (2 ^ h + i) = (2 * j + 1) * 2 ^ h + i := by
    intro i
    ring
  simp only [subtree, root]
  simp only [hr]
  simp only [hl]

theorem root_congr {β : Type*} (leaf' : β → δ) {h : ℕ} {f : ℕ → α} {g : ℕ → β}
    (hfg : ∀ i < 2 ^ h, leaf (f i) = leaf' (g i)) :
    root leaf node h f = root leaf' node h g := by
  induction h generalizing f g with
  | zero => exact hfg 0 (by norm_num)
  | succ h ih =>
    have hp : 2 ^ (h + 1) = 2 ^ h + 2 ^ h := by ring
    simp only [root]
    congr 1
    · exact ih fun i hi => hfg i (by omega)
    · exact ih fun i hi => hfg (2 ^ h + i) (by omega)

/-- Below node `j` of height `h` (itself included) some node takes one value in
both trees although its pairs of children differ. -/
def NodeClash (f g : ℕ → α) (h j : ℕ) : Prop :=
  ∃ l x, l < h ∧ x < (j + 1) * 2 ^ (h - (l + 1)) ∧
    (subtree leaf node l (2 * x) f, subtree leaf node l (2 * x + 1) f) ≠
      (subtree leaf node l (2 * x) g, subtree leaf node l (2 * x + 1) g) ∧
    subtree leaf node (l + 1) x f = subtree leaf node (l + 1) x g

theorem NodeClash.parent {f g : ℕ → α} {h j y : ℕ} (hy : y ≤ 2 * j + 1)
    (hc : NodeClash leaf node f g h y) : NodeClash leaf node f g (h + 1) j := by
  obtain ⟨l, x, hl, hx, hne, he⟩ := hc
  refine ⟨l, x, by omega, hx.trans_le ?_, hne, he⟩
  have hp : 2 ^ (h + 1 - (l + 1)) = 2 * 2 ^ (h - (l + 1)) := by
    rw [show h + 1 - (l + 1) = h - (l + 1) + 1 by omega, pow_succ']
  calc (y + 1) * 2 ^ (h - (l + 1)) ≤ (2 * j + 2) * 2 ^ (h - (l + 1)) :=
        Nat.mul_le_mul_right _ (by omega)
    _ = (j + 1) * 2 ^ (h + 1 - (l + 1)) := by rw [hp]; ring

/-- Two trees of one height take the same value at a node only if they agree on
every leaf below it, or two different pairs of children clash below it. -/
theorem subtree_binds (f g : ℕ → α) (h j : ℕ)
    (heq : subtree leaf node h j f = subtree leaf node h j g) :
    (∀ i < 2 ^ h, leaf (f (j * 2 ^ h + i)) = leaf (g (j * 2 ^ h + i))) ∨
      NodeClash leaf node f g h j := by
  induction h generalizing j with
  | zero =>
    left
    intro i hi
    obtain rfl : i = 0 := by simpa using hi
    simpa using heq
  | succ h ih =>
    by_cases hc : (subtree leaf node h (2 * j) f, subtree leaf node h (2 * j + 1) f) =
        (subtree leaf node h (2 * j) g, subtree leaf node h (2 * j + 1) g)
    · obtain ⟨hl, hr⟩ := Prod.mk.inj hc
      rcases ih (2 * j) hl with hleft | hcol
      · rcases ih (2 * j + 1) hr with hright | hcol
        · left
          intro i hi
          have hp : 2 ^ (h + 1) = 2 ^ h + 2 ^ h := by ring
          by_cases hlt : i < 2 ^ h
          · have hh := hleft i hlt
            rwa [show 2 * j * 2 ^ h + i = j * 2 ^ (h + 1) + i by ring] at hh
          · have hh := hright (i - 2 ^ h) (by omega)
            have hi' : (2 * j + 1) * 2 ^ h + (i - 2 ^ h) = j * 2 ^ (h + 1) + i := by
              rw [show (2 * j + 1) * 2 ^ h = j * 2 ^ (h + 1) + 2 ^ h by ring]
              omega
            rwa [hi'] at hh
        · exact Or.inr (hcol.parent leaf node le_rfl)
      · exact Or.inr (hcol.parent leaf node (by omega))
    · exact Or.inr ⟨h, j, by omega, by simp, hc, heq⟩

/-- Merge the value `v` of node `x` of layer `k` upwards to layer 0, taking the
sibling at each layer from `stored`. Layers are counted from the root. -/
def climb (stored : ℕ → ℕ → δ) : ℕ → ℕ → δ → δ
  | 0, _, v => v
  | k + 1, x, v => climb stored k (x / 2)
      (if x % 2 = 1 then node (stored (k + 1) (x - 1)) v else node v (stored (k + 1) (x + 1)))

/-- The stored value of node `x` of layer `k` is the merge of its stored children. -/
def Linked (stored : ℕ → ℕ → δ) (k x : ℕ) : Prop :=
  node (stored (k + 1) (2 * x)) (stored (k + 1) (2 * x + 1)) = stored k x

theorem merge_sides (stored : ℕ → ℕ → δ) (k x : ℕ) :
    (if x % 2 = 1 then node (stored k (x - 1)) (stored k x)
      else node (stored k x) (stored k (x + 1))) =
      node (stored k (2 * (x / 2))) (stored k (2 * (x / 2) + 1)) := by
  split_ifs with h
  · rw [show 2 * (x / 2) = x - 1 by omega, show x - 1 + 1 = x by omega]
  · rw [show 2 * (x / 2) = x by omega]

theorem climb_stored (stored : ℕ → ℕ → δ) (k x : ℕ)
    (hl : ∀ l < k, Linked node stored l (x / 2 ^ (k - l))) :
    climb node stored k x (stored k x) = stored 0 (x / 2 ^ k) := by
  induction k generalizing x with
  | zero => simp [climb]
  | succ k ih =>
    have hk : Linked node stored k (x / 2) := by simpa using hl k (by omega)
    simp only [climb, merge_sides]
    rw [hk, ih]
    · rw [Nat.div_div_eq_div_mul, ← pow_succ']
    · intro l hlt
      have := hl l (by omega)
      rwa [show k + 1 - l = k - l + 1 by omega, pow_succ', ← Nat.div_div_eq_div_mul] at this

/-- The pairs merged on the way up from node `x` of layer `k`, in this order. -/
def climbPairs (stored : ℕ → ℕ → δ) : ℕ → ℕ → δ → List (δ × δ)
  | 0, _, _ => []
  | k + 1, x, v =>
    let pair := if x % 2 = 1 then (stored (k + 1) (x - 1), v) else (v, stored (k + 1) (x + 1))
    pair :: climbPairs stored k (x / 2) (node pair.1 pair.2)

/-- Somewhere on the way up two different pairs are merged to one value. -/
def PathClash (ps qs : List (δ × δ)) : Prop :=
  ∃ pq ∈ ps.zip qs, pq.1 ≠ pq.2 ∧ node pq.1.1 pq.1.2 = node pq.2.1 pq.2.2

theorem pathClash_cons {p q : δ × δ} {ps qs : List (δ × δ)} :
    PathClash node (p :: ps) (q :: qs) ↔
      (p ≠ q ∧ node p.1 p.2 = node q.1 q.2) ∨ PathClash node ps qs := by
  simp [PathClash]

/-- Two starting values meet on the way up exactly if they are the same or two different
pairs on the way have one value. -/
theorem climb_eq_iff (stored : ℕ → ℕ → δ) (k x : ℕ) (v w : δ) :
    climb node stored k x v = climb node stored k x w ↔
      v = w ∨ PathClash node (climbPairs node stored k x v) (climbPairs node stored k x w) := by
  induction k generalizing x v w with
  | zero => simp [climb, climbPairs, PathClash]
  | succ k ih =>
    rw [climb, climb, ih, climbPairs, climbPairs, pathClash_cons, ← or_assoc]
    have hpair : ∀ p q : δ × δ, node p.1 p.2 = node q.1 q.2 ↔
        p = q ∨ (p ≠ q ∧ node p.1 p.2 = node q.1 q.2) := by
      intro p q
      constructor
      · intro h
        by_cases he : p = q
        · exact Or.inl he
        · exact Or.inr ⟨he, h⟩
      · rintro (rfl | ⟨-, h⟩)
        · rfl
        · exact h
    split_ifs with hx
    · refine or_congr_left ((hpair (stored (k + 1) (x - 1), v) (stored (k + 1) (x - 1), w)).trans ?_)
      rw [Prod.mk.injEq, and_iff_right rfl]
    · refine or_congr_left ((hpair (v, stored (k + 1) (x + 1)) (w, stored (k + 1) (x + 1))).trans ?_)
      rw [Prod.mk.injEq, and_iff_left rfl]

end CBlockchain.PerfectTree
