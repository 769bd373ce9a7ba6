import CBlockchain.BlockData
import CBlockchain.CalcMerkleTree
import CBlockchain.Copying
import CBlockchain.Traced

/-! The two puzzle solvers of `blockdata.c` on the buffer they share with the hash:
`CONCAT_BYTES` is allocated once, its nonce part is rewritten for every sample and its
root part is written before the loop. A run records how many bytes of the pattern every
comparison reads and what `test_solution` answers at the end. -/
namespace CBlockchain.PuzzleSolvers
open BlockData Copying
variable (H : GenericHash)

inductive SolverEvent where
  | comparison (n : ℕ)
  | tested (nonce : Nonce) (answer : Digest) (accepted : Bool)
  deriving DecidableEq

/-- The zeroed `CONCAT_BYTES` with the root behind the place of the nonce. -/
def concatRoot (merkleRoot : Digest) : List UInt8 :=
  writeAt 15 merkleRoot.toList (List.replicate 47 0)

/-- The first `NONCE_LEN` bytes of `CONCAT_BYTES`. -/
def nonceOf (concat : List UInt8) : Nonce := Vector.ofFn fun i => concat.getD i 0

/-- The `do … while` loop; `ii` samples have been drawn before. -/
def searchLoop (difficulty : ℕ) (samples : ℕ → Nonce) :
    ℕ → ℕ → List UInt8 → Traced SolverEvent (List UInt8 × Digest)
  | 0, _, _ => .fault
  | fuel + 1, ii, concat =>
    let concat := writeAt 0 (samples ii).toList concat
    let outHash := H concat
    .emit (.comparison difficulty) <|
      if memcmp difficulty outHash.toList ans ≠ 0 then
        searchLoop difficulty samples fuel (ii + 1) concat
      else .ok (concat, outHash)

/-- What both solvers do after the loop with the nonce they found. -/
def testNonce (merkleRoot : Digest) (nonce : Nonce) (outHash : Digest) :
    Traced SolverEvent Nonce :=
  .emit (.tested nonce outHash (testSolution H merkleRoot nonce outHash)) (.ok nonce)

def solvePuzzle (merkleRoot : Digest) (difficulty : ℕ) (samples : ℕ → Nonce) (fuel : ℕ) :
    Traced SolverEvent Nonce := do
  let difficulty := if difficulty > 5 then 5 else difficulty
  let difficulty := if difficulty = 0 then 1 else difficulty
  let (concat, outHash) ← searchLoop H difficulty samples fuel 0 (concatRoot merkleRoot)
  testNonce H merkleRoot (nonceOf concat) outHash

/-- `puzzle_thr_container`, with the bytes behind its pointers. -/
structure PuzzleThrContainer where
  merkleRootP : Digest
  nonce : Nonce

def solvePuzzleFixedDiff (pc : PuzzleThrContainer) (samples : ℕ → Nonce) (fuel : ℕ) :
    Traced SolverEvent PuzzleThrContainer := do
  let difficulty := 3
  let (concat, outHash) ← searchLoop H difficulty samples fuel 0 (concatRoot pc.merkleRootP)
  let nonce ← testNonce H pc.merkleRootP (nonceOf concat) outHash
  pure { pc with nonce := nonce }

/-- The loop invariant of both solvers: the buffer keeps its size and the root. -/
structure HoldsRoot (merkleRoot : Digest) (concat : List UInt8) : Prop where
  length : concat.length = 47
  root : slice 15 32 concat = merkleRoot.toList

theorem holdsRoot_concatRoot (merkleRoot : Digest) :
    HoldsRoot merkleRoot (concatRoot merkleRoot) where
  length := by
    rw [concatRoot, length_writeAt (by simp)]
    simp
  root := by
    have hfit : 15 + merkleRoot.toList.length ≤ (List.replicate 47 (0 : UInt8)).length := by simp
    have h := slice_writeAt_self 15 merkleRoot.toList hfit
    simpa [concatRoot] using h

section Buffer
variable {merkleRoot : Digest} {concat : List UInt8}

theorem HoldsRoot.writeAt (h : HoldsRoot merkleRoot concat) (sample : Nonce) :
    HoldsRoot merkleRoot (writeAt 0 sample.toList concat) where
  length := by rw [length_writeAt (by simp [h.length]), h.length]
  root := by
    rw [slice_writeAt_of_disjoint (by simp [h.length]) (by simp), h.root]

/-- After a sample has been drawn the buffer is what the hash is to be taken of. -/
theorem HoldsRoot.writeAt_eq (h : HoldsRoot merkleRoot concat) (sample : Nonce) :
    Copying.writeAt 0 sample.toList concat = concatBytes sample merkleRoot := by
  have hroot := (h.writeAt sample).root
  have hlen := (h.writeAt sample).length
  have hfit : 0 + sample.toList.length ≤ concat.length := by simp [h.length]
  have hnonce := slice_writeAt_self 0 sample.toList hfit
  rw [Vector.length_toList] at hnonce
  have hsplit := slice_append_slice 0 15 32 (Copying.writeAt 0 sample.toList concat)
  rw [zero_add, hroot, hnonce] at hsplit
  have hall := slice_zero_length (Copying.writeAt 0 sample.toList concat)
  rw [hlen] at hall
  exact hall.symm.trans hsplit.symm

theorem nonceOf_concatBytes (nonce : Nonce) (merkleRoot : Digest) :
    nonceOf (concatBytes nonce merkleRoot) = nonce := by
  apply Vector.ext
  intro i hi
  simp [nonceOf, concatBytes, List.getD_eq_getElem?_getD, List.getElem?_append]

end Buffer

section Loop
variable (difficulty : ℕ) (merkleRoot : Digest) (samples : ℕ → Nonce)

/-- The loop on the buffer returns what the loop on samples returns. -/
theorem searchLoop_result (fuel ii : ℕ) {concat : List UInt8} (h : HoldsRoot merkleRoot concat) :
    (searchLoop H difficulty samples fuel ii concat).result =
      (puzzleLoop H difficulty merkleRoot samples fuel ii).map fun r =>
        (concatBytes r.1 merkleRoot, r.2) := by
  induction fuel generalizing ii concat with
  | zero => rfl
  | succ fuel ih =>
    have hnext := ih (ii + 1) (h.writeAt (samples ii))
    rw [h.writeAt_eq] at hnext
    simp only [searchLoop, puzzleLoop, h.writeAt_eq, Traced.emit]
    split_ifs with hz
    · exact hnext
    · rfl

/-- A comparison stays within the pattern. -/
def WithinPattern : SolverEvent → Prop
  | .comparison n => n ≤ ans.length
  | .tested _ _ _ => True

/-- Every comparison of the loop is over the difficulty it was started with. -/
theorem searchLoop_within (hd : difficulty ≤ 5) (fuel ii : ℕ) (concat : List UInt8) :
    (searchLoop H difficulty samples fuel ii concat).Always WithinPattern := by
  induction fuel generalizing ii concat with
  | zero => exact Traced.always_lift none
  | succ fuel ih =>
    unfold searchLoop
    apply Traced.always_emit
    · exact hd
    · apply Traced.always_ite
      · exact fun _ => ih _ _
      · exact fun _ => Traced.always_pure _

theorem testNonce_within (merkleRoot : Digest) (nonce : Nonce) (outHash : Digest) :
    (testNonce H merkleRoot nonce outHash).Always WithinPattern :=
  Traced.always_emit trivial (Traced.always_pure nonce)

end Loop

/-- The difficulty the loop of `solve_puzzle` runs with. -/
theorem clamp_eq (d : ℕ) : (let d := if d > 5 then 5 else d; if d = 0 then 1 else d) =
    min (max d 1) 5 := by
  by_cases h5 : d > 5
  · rw [if_pos h5, min_eq_right (by omega)]
    rfl
  · simp only [if_neg h5]
    split_ifs <;> omega

theorem solvePuzzle_eq (merkleRoot : Digest) (d : ℕ) (samples : ℕ → Nonce) (fuel : ℕ) :
    solvePuzzle H merkleRoot d samples fuel =
      (searchLoop H (min (max d 1) 5) samples fuel 0 (concatRoot merkleRoot) >>= fun r =>
        testNonce H merkleRoot (nonceOf r.1) r.2) := by
  rw [← clamp_eq]
  rfl

theorem solvePuzzleFixedDiff_eq (pc : PuzzleThrContainer) (samples : ℕ → Nonce) (fuel : ℕ) :
    (solvePuzzleFixedDiff H pc samples fuel).result =
      (solvePuzzle H pc.merkleRootP 3 samples fuel).result.map fun nonce =>
        { pc with nonce := nonce } := by
  rw [solvePuzzle_eq]
  simp only [solvePuzzleFixedDiff, show min (max 3 1) 5 = 3 from rfl]
  rcases searchLoop H 3 samples fuel 0 (concatRoot pc.merkleRootP) with ⟨tr, _ | ⟨concat, out⟩⟩
  · rfl
  · rfl

/-- The solver on the buffer returns what the loop on samples finds. -/
theorem solvePuzzle_result (merkleRoot : Digest) (d : ℕ) (samples : ℕ → Nonce) (fuel : ℕ) :
    (solvePuzzle H merkleRoot d samples fuel).result =
      (puzzleLoop H (min (max d 1) 5) merkleRoot samples fuel 0).map Prod.fst := by
  rw [solvePuzzle_eq, Traced.result_bind,
    searchLoop_result H _ merkleRoot samples fuel 0 (holdsRoot_concatRoot merkleRoot)]
  cases puzzleLoop H (min (max d 1) 5) merkleRoot samples fuel 0 with
  | none => rfl
  | some r => simp [testNonce, Traced.emit, Traced.ok, nonceOf_concatBytes]

theorem solvePuzzleFixedDiff_result (pc : PuzzleThrContainer) (samples : ℕ → Nonce) (fuel : ℕ) :
    (solvePuzzleFixedDiff H pc samples fuel).result.map PuzzleThrContainer.nonce =
      (puzzleLoop H 3 pc.merkleRootP samples fuel 0).map Prod.fst := by
  rw [solvePuzzleFixedDiff_eq, solvePuzzle_result, show min (max 3 1) 5 = 3 from rfl]
  cases puzzleLoop H 3 pc.merkleRootP samples fuel 0 <;> rfl

section Runs
variable (merkleRoot : Digest) (d : ℕ) (samples : ℕ → Nonce)

theorem clamp_le (d : ℕ) : min (max d 1) 5 ≤ 5 := min_le_right _ _

theorem solvePuzzle_within (fuel : ℕ) :
    (solvePuzzle H merkleRoot d samples fuel).Always WithinPattern := by
  rw [solvePuzzle_eq]
  apply Traced.always_bind (searchLoop_within H _ samples (clamp_le d) fuel 0 _)
  exact fun r _ => testNonce_within H merkleRoot _ r.2

theorem solvePuzzleFixedDiff_within (pc : PuzzleThrContainer) (fuel : ℕ) :
    (solvePuzzleFixedDiff H pc samples fuel).Always WithinPattern := by
  apply Traced.always_bind (searchLoop_within H 3 samples (by norm_num) fuel 0 _)
  intro r _
  apply Traced.always_bind (testNonce_within H pc.merkleRootP _ r.2)
  exact fun nonce _ => Traced.always_pure _

theorem testSolution_self (nonce : Nonce) :
    testSolution H merkleRoot nonce (H (concatBytes nonce merkleRoot)) = true := by
  rw [testSolution, beq_iff_eq, memcmp_vector]

/-- A run that reaches the first qualifying sample ends with it and with its test. -/
theorem solvePuzzle_first {n fuel : ℕ} (hfuel : n < fuel)
    (hn : Qualifies H (min (max d 1) 5) merkleRoot (samples n))
    (hfirst : ∀ m < n, ¬ Qualifies H (min (max d 1) 5) merkleRoot (samples m)) :
    (solvePuzzle H merkleRoot d samples fuel).result = some (samples n) ∧
      .tested (samples n) (H (concatBytes (samples n) merkleRoot)) true ∈
        (solvePuzzle H merkleRoot d samples fuel).trace := by
  have hloop := searchLoop_result H (min (max d 1) 5) merkleRoot samples fuel 0
    (holdsRoot_concatRoot merkleRoot)
  rw [puzzleLoop_first H (clamp_le d) merkleRoot samples hn hfirst fuel 0 (Nat.zero_le n)
    (by omega), Option.map_some] at hloop
  rw [solvePuzzle_eq]
  constructor
  · rw [Traced.result_bind, hloop, Option.bind_some, nonceOf_concatBytes]
    rfl
  · apply Traced.mem_bind_right hloop
    simp [testNonce, Traced.emit, nonceOf_concatBytes, testSolution_self]

theorem exists_first {p : ℕ → Prop} (h : ∃ n, p n) : ∃ n, p n ∧ ∀ m < n, ¬ p m := by
  classical
  exact ⟨Nat.find h, Nat.find_spec h, fun m hm => Nat.find_min h hm⟩

end Runs

/-- Both solvers, for every root, difficulty and stream. Once the fuel reaches the first
sample that qualifies for the clamped difficulty, `solve_puzzle` returns it and
`test_solution` accepts it with the final hash. No comparison is longer than the pattern,
and the solver with the fixed difficulty leaves the nonce that `solve_puzzle` returns for
difficulty 3. -/
theorem solvers_first_and_agree (merkleRoot : Digest) (d : ℕ) (samples : ℕ → Nonce)
    (hex : ∃ n, Qualifies H (min (max d 1) 5) merkleRoot (samples n)) :
    (∃ n, Qualifies H (min (max d 1) 5) merkleRoot (samples n) ∧
      (∀ m < n, ¬ Qualifies H (min (max d 1) 5) merkleRoot (samples m)) ∧
      ∀ fuel, n < fuel →
        (solvePuzzle H merkleRoot d samples fuel).result = some (samples n) ∧
        .tested (samples n) (H (concatBytes (samples n) merkleRoot)) true ∈
          (solvePuzzle H merkleRoot d samples fuel).trace) ∧
    (∀ fuel k, .comparison k ∈ (solvePuzzle H merkleRoot d samples fuel).trace → k ≤ ans.length) ∧
    ∀ pc : PuzzleThrContainer, pc.merkleRootP = merkleRoot →
      (∀ fuel, (solvePuzzleFixedDiff H pc samples fuel).result.map PuzzleThrContainer.nonce =
        (solvePuzzle H merkleRoot 3 samples fuel).result) ∧
      (∀ fuel k, .comparison k ∈ (solvePuzzleFixedDiff H pc samples fuel).trace →
        k ≤ ans.length) ∧
      ((∃ n, Qualifies H 3 merkleRoot (samples n)) → ∃ nonce fuel₀, ∀ fuel, fuel₀ ≤ fuel →
        (solvePuzzleFixedDiff H pc samples fuel).result = some { pc with nonce := nonce }) := by
  refine ⟨?_, ?_, ?_⟩
  · obtain ⟨n, hn, hfirst⟩ := exists_first hex
    refine ⟨n, hn, hfirst, ?_⟩
    intro fuel hfuel
    exact solvePuzzle_first H merkleRoot d samples hfuel hn hfirst
  · intro fuel k hk
    exact solvePuzzle_within H merkleRoot d samples fuel _ hk
  · rintro pc rfl
    refine ⟨?_, ?_, ?_⟩
    · intro fuel
      rw [solvePuzzleFixedDiff_eq]
      cases (solvePuzzle H pc.merkleRootP 3 samples fuel).result <;> rfl
    · intro fuel k hk
      exact solvePuzzleFixedDiff_within H samples pc fuel _ hk
    · intro hthree
      obtain ⟨n, hn, hfirst⟩ := exists_first hthree
      refine ⟨samples n, n + 1, ?_⟩
      intro fuel hfuel
      rw [solvePuzzleFixedDiff_eq,
        (solvePuzzle_first H pc.merkleRootP 3 samples hfuel hn hfirst).1, Option.map_some]

section Demonstration
open CalcMerkleTree

/-- One sample of ones, then zeros. -/
def onceOne (n : ℕ) : Nonce := Vector.replicate 15 (if n = 0 then 1 else 0)

/-- With a hash that is zero on zeros only, the second sample solves the puzzle at the
hardest difficulty. -/
theorem solvers_at_zero_root : ∃ n, Qualifies orHash 5 (Vector.replicate 32 0) (onceOne n) ∧
    (∀ m < n, ¬ Qualifies orHash 5 (Vector.replicate 32 0) (onceOne m)) ∧
    (solvePuzzle orHash (Vector.replicate 32 0) 9 onceOne (n + 1)).result = some (onceOne n) := by
  obtain ⟨⟨n, hn, hfirst, hrun⟩, -, -⟩ := solvers_first_and_agree orHash (Vector.replicate 32 0) 9
    onceOne ⟨1, by decide⟩
  exact ⟨n, hn, hfirst, (hrun (n + 1) (Nat.lt_succ_self n)).1⟩

end Demonstration

end CBlockchain.PuzzleSolvers
