import CBlockchain.BlockData

/-! Chains of blocks, each made by `create_block_dummy` and `set_nonce_to_block` and linked
to the one before it by `set_prev_block_hash`. The link that stays in a block is the hash
of its predecessor's Merkle root: of the chain before it, the last block commits to that
root and to nothing else. -/
namespace CBlockchain.BlockChain
open Hashing BlockData
variable (H : GenericHash)

/-- What one block is made from: the root, the clock at its creation and at its end, the
nonce, and the block that `create_block_dummy` is given as the previous one. -/
structure BlockInput where
  merkleRoot : Digest
  created : Clock
  nonce : Nonce
  solved : UInt64
  given : Option Block

def makeBlock (prev : Option Block) (i : BlockInput) : Block :=
  setPrevBlockHash H
    (setNonceToBlock (createBlockDummy H i.given i.merkleRoot i.created) i.nonce i.solved) prev

/-- The blocks made from `is`, in order, the first one behind `prev`. -/
def chainFrom : Option Block → List BlockInput → List Block
  | _, [] => []
  | prev, i :: is => makeBlock H prev i :: chainFrom (some (makeBlock H prev i)) is

def chain (is : List BlockInput) : List Block := chainFrom H none is

/-- What `crypto_generichash` is applied to while one block is made. -/
def blockInputs (prev : Option Block) (i : BlockInput) : List (List UInt8) :=
  i.merkleRoot.toList :: (i.given.map blockBytes).toList ++
    (prev.map fun p => p.merkleRoot.toList).toList

def hashedFrom : Option Block → List BlockInput → List (List UInt8)
  | _, [] => []
  | prev, i :: is => blockInputs prev i ++ hashedFrom (some (makeBlock H prev i)) is

def hashed (is : List BlockInput) : List (List UInt8) := hashedFrom H none is

/-- Two different inputs among `xs` with the same hash. -/
def Collides (xs : List (List UInt8)) : Prop := ∃ x ∈ xs, ∃ y ∈ xs, x ≠ y ∧ H x = H y

/-- Equal last blocks mean equal chains, or a collision among what was hashed. -/
def Commits (is js : List BlockInput) : Prop :=
  (chain H is).getLast? = (chain H js).getLast? →
    chain H is = chain H js ∨ Collides H (hashed H is ++ hashed H js)

section Links
variable {H}

@[simp] theorem makeBlock_merkleRoot (prev : Option Block) (i : BlockInput) :
    (makeBlock H prev i).merkleRoot = H i.merkleRoot.toList := by
  cases prev <;> rfl

@[simp] theorem makeBlock_some_previousBlock (p : Block) (i : BlockInput) :
    (makeBlock H (some p) i).previousBlock = H p.merkleRoot.toList := rfl

@[simp] theorem makeBlock_nonce (prev : Option Block) (i : BlockInput) :
    (makeBlock H prev i).nonce = i.nonce := by
  cases prev <;> rfl

theorem chainFrom_append (prev : Option Block) (is : List BlockInput) (i : BlockInput) :
    chainFrom H prev (is ++ [i]) =
      chainFrom H prev is ++ [makeBlock H ((chainFrom H prev is).getLast?.or prev) i] := by
  induction is generalizing prev with
  | nil => rfl
  | cons j is ih =>
    rw [List.cons_append, chainFrom, chainFrom, ih]
    congr 3
    cases chainFrom H (some (makeBlock H prev j)) is <;> simp [List.getLast?_cons]

theorem hashedFrom_append (prev : Option Block) (is : List BlockInput) (i : BlockInput) :
    hashedFrom H prev (is ++ [i]) =
      hashedFrom H prev is ++ blockInputs ((chainFrom H prev is).getLast?.or prev) i := by
  induction is generalizing prev with
  | nil => simp [hashedFrom, chainFrom]
  | cons j is ih =>
    rw [List.cons_append, hashedFrom, hashedFrom, ih, List.append_assoc]
    congr 3
    cases h : chainFrom H (some (makeBlock H prev j)) is <;> simp [chainFrom, h, List.getLast?_cons]

/-- The last block commits to the Merkle root of the block before it. -/
theorem previous_merkleRoot_eq {is js : List BlockInput} {i j : BlockInput} {p q : Block}
    (hp : (chain H is).getLast? = some p) (hq : (chain H js).getLast? = some q)
    (h : (chain H (is ++ [i])).getLast? = (chain H (js ++ [j])).getLast?) :
    p.merkleRoot = q.merkleRoot ∨ Collides H (hashed H (is ++ [i]) ++ hashed H (js ++ [j])) := by
  rw [chain] at hp hq
  simp only [chain, chainFrom_append, List.getLast?_append, List.getLast?_singleton, hp, hq,
    Option.or_some, Option.some_or, Option.some.injEq] at h
  have hlink : H p.merkleRoot.toList = H q.merkleRoot.toList := congrArg Block.previousBlock h
  by_cases hroot : p.merkleRoot = q.merkleRoot
  · exact Or.inl hroot
  · right
    refine ⟨p.merkleRoot.toList, ?_, q.merkleRoot.toList, ?_, ?_, hlink⟩
    · simp [hashed, hashedFrom_append, hp, blockInputs]
    · simp [hashed, hashedFrom_append, hq, blockInputs]
    · exact fun he => hroot (Vector.toList_inj.mp he)

theorem commits_of_length_le_one {is js : List BlockInput} (hlen : is.length = js.length)
    (h : is.length ≤ 1) : Commits H is js := by
  intro hlast
  left
  match is, js, hlen, h with
  | [], [], _, _ => rfl
  | [i], [j], _, _ =>
    simp only [chain, chainFrom, List.getLast?_singleton, Option.some.injEq] at hlast
    simp only [chain, chainFrom, hlast]

end Links

section Forks
variable {H}

instance finite_byte : Finite UInt8 := .of_injective UInt8.toFin fun _ _ => UInt8.toFin_inj.mp

instance finite_digest : Finite Digest := by
  have hinj : Function.Injective fun (d : Digest) (i : Fin 32) => d[i] := by
    intro d d' h
    apply Vector.ext
    intro i hi
    exact congrFun h ⟨i, hi⟩
  exact .of_injective _ hinj

/-- Some root is hashed to itself, or its first two hashes differ. -/
theorem exists_root : ∃ r : Digest, H r.toList = H (H r.toList).toList → H r.toList = r := by
  let f : Digest → Digest := fun d => H d.toList
  let d : Digest := Vector.replicate 32 0
  obtain ⟨i, j, hlt, heq⟩ : ∃ i j, i < j ∧ f^[i] d = f^[j] d := by
    obtain ⟨i, j, hne, heq⟩ := Finite.exists_ne_map_eq_of_infinite fun n => f^[n] d
    rcases Nat.lt_or_gt_of_ne hne with hlt | hlt
    · exact ⟨i, j, hlt, heq⟩
    · exact ⟨j, i, hlt, heq.symm⟩
  refine ⟨f^[i] d, fun hfix => ?_⟩
  have hstay : f^[j - i - 1] (f (f^[i] d)) = f (f^[i] d) := Function.iterate_fixed hfix.symm _
  have hback : f^[j - i - 1] (f (f^[i] d)) = f^[j] d := by
    rw [← Function.iterate_succ_apply, ← Function.iterate_add_apply]
    congr 1
    omega
  exact hstay.symm.trans (hback.trans heq.symm)

theorem emptyDate_length : ([] : List UInt8).length < 32 := by norm_num

theorem emptyDate_noNul : (0 : UInt8) ∉ [] := List.not_mem_nil

/-- A block on the root `r`; its date is empty and its times are 0. -/
def plainInput (r : Digest) (nonce : Nonce) : BlockInput where
  merkleRoot := r
  created := ⟨⟨[], emptyDate_length, emptyDate_noNul⟩, 0⟩
  nonce := nonce
  solved := 0
  given := none

theorem chainFrom_congr {p q : Block} (h : p.merkleRoot = q.merkleRoot) (is : List BlockInput) :
    chainFrom H (some p) is = chainFrom H (some q) is := by
  cases is with
  | nil => rfl
  | cons i is => simp only [chainFrom, makeBlock, setPrevBlockHash, h]

theorem hashedFrom_plain {r : Digest} (is : List BlockInput)
    (his : ∀ i ∈ is, ∃ nonce, i = plainInput r nonce) : ∀ prev : Option Block,
    (∀ p, prev = some p → p.merkleRoot = H r.toList) →
    ∀ x ∈ hashedFrom H prev is, x = r.toList ∨ x = (H r.toList).toList := by
  induction is with
  | nil =>
    intro prev _ x hx
    cases hx
  | cons i is ih =>
    intro prev hprev x hx
    obtain ⟨nonce, rfl⟩ := his i List.mem_cons_self
    rw [hashedFrom, List.mem_append] at hx
    rcases hx with hx | hx
    · cases prev with
      | none =>
        simp only [blockInputs, plainInput, Option.map_none, Option.toList_none, List.append_nil,
          List.mem_singleton] at hx
        exact Or.inl hx
      | some p =>
        simp only [blockInputs, plainInput, Option.map_none, Option.toList_none, Option.map_some,
          Option.toList_some, hprev p rfl, List.singleton_append, List.mem_cons, List.not_mem_nil,
          or_false] at hx
        exact hx
    · apply ih (fun j hj => his j (List.mem_cons_of_mem _ hj)) _ _ x hx
      rintro p ⟨⟩
      simp [plainInput]

/-- A first block with the given nonce, and `n + 1` blocks with nonce 0 behind it. -/
def forkInputs (r : Digest) (n : ℕ) (nonce : Nonce) : List BlockInput :=
  plainInput r nonce :: List.replicate (n + 1) (plainInput r (Vector.replicate 15 0))

theorem forkInputs_plain (r : Digest) (n : ℕ) (nonce : Nonce) :
    ∀ i ∈ forkInputs r n nonce, ∃ nonce', i = plainInput r nonce' := by
  intro i hi
  rcases List.mem_cons.mp hi with rfl | hi
  · exact ⟨nonce, rfl⟩
  · exact ⟨_, List.eq_of_mem_replicate hi⟩

/-- The first nonce does not reach the blocks behind it. -/
theorem chain_forkInputs (r : Digest) (n : ℕ) (nonce nonce' : Nonce) :
    (chain H (forkInputs r n nonce)).tail = (chain H (forkInputs r n nonce')).tail := by
  simp only [chain, forkInputs, chainFrom, List.tail_cons]
  apply chainFrom_congr
  simp [plainInput]

theorem forkInputs_not_commits {r : Digest}
    (hr : H r.toList = H (H r.toList).toList → H r.toList = r) (n : ℕ) :
    ¬ Commits H (forkInputs r n (Vector.replicate 15 0))
      (forkInputs r n (Vector.replicate 15 1)) := by
  intro hcommits
  have hlast : (chain H (forkInputs r n (Vector.replicate 15 0))).getLast? =
      (chain H (forkInputs r n (Vector.replicate 15 1))).getLast? := by
    have htail := chain_forkInputs (H := H) r n (Vector.replicate 15 0) (Vector.replicate 15 1)
    simp only [chain, forkInputs, chainFrom, List.tail_cons, List.replicate_succ] at htail ⊢
    rw [List.getLast?_cons_cons, List.getLast?_cons_cons, htail]
  rcases hcommits hlast with heq | ⟨x, hx, y, hy, hne, hxy⟩
  · simp only [chain, forkInputs, chainFrom, List.cons.injEq] at heq
    have hnonce := congrArg Block.nonce heq.1
    simp only [makeBlock_nonce, plainInput] at hnonce
    exact absurd hnonce (by decide)
  · have hmem : ∀ z ∈ hashed H (forkInputs r n (Vector.replicate 15 0)) ++
        hashed H (forkInputs r n (Vector.replicate 15 1)),
        z = r.toList ∨ z = (H r.toList).toList := by
      intro z hz
      rcases List.mem_append.mp hz with hz | hz
      · exact hashedFrom_plain _ (forkInputs_plain r n _) none (fun p hp => by cases hp) z hz
      · exact hashedFrom_plain _ (forkInputs_plain r n _) none (fun p hp => by cases hp) z hz
    rcases hmem x hx with rfl | rfl <;> rcases hmem y hy with rfl | rfl
    · exact hne rfl
    · exact hne (congrArg Vector.toList (hr hxy)).symm
    · exact hne (congrArg Vector.toList (hr hxy.symm))
    · exact hne rfl

end Forks

/-- Whatever the hash function: equal last blocks mean equal chains of length `n`, up to a
collision, exactly for chains of at most one block. In longer ones the last block fixes
the Merkle root of the block before it. -/
theorem chain_commits_iff (H : GenericHash) (n : ℕ) :
    ((∀ is js : List BlockInput, is.length = n → js.length = n → Commits H is js) ↔ n ≤ 1) ∧
    ∀ (is js : List BlockInput) (i j : BlockInput) (p q : Block),
      (chain H is).getLast? = some p → (chain H js).getLast? = some q →
      (chain H (is ++ [i])).getLast? = (chain H (js ++ [j])).getLast? →
      p.merkleRoot = q.merkleRoot ∨
        Collides H (hashed H (is ++ [i]) ++ hashed H (js ++ [j])) := by
  refine ⟨⟨fun hall => ?_, fun hn is js his hjs => ?_⟩, fun is js i j p q hp hq h =>
    previous_merkleRoot_eq hp hq h⟩
  · by_contra hn
    obtain ⟨m, rfl⟩ : ∃ m, n = m + 2 := ⟨n - 2, by omega⟩
    obtain ⟨r, hr⟩ := exists_root (H := H)
    exact forkInputs_not_commits hr m (hall _ _ (by simp [forkInputs]) (by simp [forkInputs]))
  · exact commits_of_length_le_one (his.trans hjs.symm) (his.trans_le hn)

/-- The first 32 bytes of the input, padded with zeros. -/
def firstBytesHash : GenericHash := fun x => Vector.ofFn fun i => x.getD i 0

/-- Two chains of two blocks on the zero root: equal last blocks, first blocks that differ
in the nonce, and no two inputs hashed to the same value. -/
theorem chain_not_committed : ¬ Commits firstBytesHash
    (forkInputs (Vector.replicate 32 0) 0 (Vector.replicate 15 0))
    (forkInputs (Vector.replicate 32 0) 0 (Vector.replicate 15 1)) :=
  forkInputs_not_commits (fun _ => by decide) 0

end CBlockchain.BlockChain
