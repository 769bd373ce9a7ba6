import CBlockchain.PuzzleSolvers

/-! `processing_block` of `block_process.c`: from a finished tree to a block. The
puzzle is solved on the tree's root, while the block keeps the hash of that root,
so the nonce is checked against the root the messages give. -/
namespace CBlockchain.BlockProcess
open Hashing BlockData CalcMerkleTree MerkleTree PerfectTree PuzzleSolvers
variable (H : GenericHash)

/-- What one call of `processing_block` takes from the machine: whether the worker
thread starts, the random samples it draws, and the clock. -/
structure Machine where
  threadStarts : Bool
  samples : ℕ → Nonce
  created : Clock
  solved : UInt64

/-- The worker thread solves the puzzle and leaves the nonce in the zeroed `nonce_answ`, while
the caller waits in `thrd_join`. If it does not start, the join is on an indeterminate thread. -/
def joinPuzzle (m : Machine) (merkleRootFirst : Digest) (fuel : ℕ) : Option Nonce :=
  if m.threadStarts then
    (solvePuzzleFixedDiff H ⟨merkleRootFirst, Vector.replicate 15 0⟩ m.samples fuel).result.map
      PuzzleThrContainer.nonce
  else none

theorem joinPuzzle_eq {m : Machine} (hthread : m.threadStarts = true) (merkleRootFirst : Digest)
    (fuel : ℕ) : joinPuzzle H m merkleRootFirst fuel =
      (puzzleLoop H 3 merkleRootFirst m.samples fuel 0).map Prod.fst := by
  rw [joinPuzzle, if_pos hthread, solvePuzzleFixedDiff_result]

def processingBlock (m : Machine) (cont : LMsgContainer) (mem : Mem) (fuel : ℕ) :
    Option Block := do
  let merkleRootFirst ← storedHash mem cont.mainLayerPointer 0 0
  let nonceAnsw ← joinPuzzle H m merkleRootFirst fuel
  let blockDummy := createBlockDummy H none merkleRootFirst m.created
  some (setPrevBlockHash H (setNonceToBlock blockDummy nonceAnsw m.solved) none)

/-- The puzzle loop stops on `merkleRoot`: the thread runs and some sample solves it. -/
def PuzzleStops (m : Machine) (merkleRoot : Digest) : Prop :=
  m.threadStarts = true ∧ ∃ n, Qualifies H 3 merkleRoot (m.samples n)

/-- The block built on `root` with the first solving sample, the same for every fuel
that reaches the sample. -/
theorem processingBlock_spec {m : Machine} {cont : LMsgContainer} {mem : Mem} {top : Digest}
    (hroot : storedHash mem cont.mainLayerPointer 0 0 = some top)
    (hstop : PuzzleStops H m top) :
    ∃ n, Qualifies H 3 top (m.samples n) ∧
      (∀ j < n, ¬ Qualifies H 3 top (m.samples j)) ∧
      ∀ fuel, n < fuel → processingBlock H m cont mem fuel =
        some { createBlockDummy H none top m.created with
          nonce := m.samples n, timestampEnd := m.solved } := by
  obtain ⟨hthread, hsome⟩ := hstop
  refine ⟨Nat.find hsome, Nat.find_spec hsome, fun j hj => Nat.find_min hsome hj, ?_⟩
  intro fuel hfuel
  have hloop := puzzleLoop_first H (by norm_num) top m.samples (Nat.find_spec hsome)
    (fun j hj => Nat.find_min hsome hj) fuel 0 (Nat.zero_le _) (by omega)
  simp [processingBlock, hroot, joinPuzzle_eq H hthread, hloop, setPrevBlockHash, setNonceToBlock,
    createBlockDummy]

theorem processingBlock_sound {m : Machine} {cont : LMsgContainer} {mem : Mem} {fuel : ℕ}
    {block : Block} (h : processingBlock H m cont mem fuel = some block) :
    ∃ top, storedHash mem cont.mainLayerPointer 0 0 = some top ∧
      Qualifies H 3 top block.nonce ∧ block.merkleRoot = calcHashofHash H top := by
  simp only [processingBlock, Option.bind_eq_bind, Option.bind_eq_some_iff] at h
  obtain ⟨top, htop, nonce, hnonce, hblock⟩ := h
  by_cases hthread : m.threadStarts = true
  · rw [joinPuzzle_eq H hthread, Option.map_eq_some_iff] at hnonce
    obtain ⟨⟨n, out⟩, hloop, rfl⟩ := hnonce
    obtain ⟨hq, -⟩ := puzzleLoop_qualifies H (by norm_num) top m.samples fuel 0 hloop
    rw [Option.some.injEq] at hblock
    subst hblock
    exact ⟨top, htop, hq, rfl⟩
  · rw [joinPuzzle, if_neg hthread] at hnonce
    cases hnonce

/-- The digest of `nonce ‖ merkleRoot`, taken from the block's own fields, starts with
three zero bytes. -/
def ChecksAlone (block : Block) : Prop := Qualifies H 3 block.merkleRoot block.nonce

/-- The same with a root obtained elsewhere, of which the block stores the hash. -/
def ChecksAgainst (top : Digest) (block : Block) : Prop :=
  block.merkleRoot = calcHashofHash H top ∧ Qualifies H 3 top block.nonce

/-- For every set of messages and every stream on which the puzzle loop stops, a block
is returned, the same from some fuel on; its nonce solves the puzzle for the root that
the messages give, and the block stores the hash of that root. -/
theorem processingBlock_checks_against_root (E msgPointer : ℕ) (mem : Mem)
    (msg : ℕ → SignedMessage) (m : Machine) (hE : 1 ≤ E) (hm : MessagesAt mem E msgPointer msg)
    (hstop : PuzzleStops H m (root (calcHash H) (merge2hashses H) E msg)) :
    ∃ cont mem' block, calcMerkleTree H E msgPointer mem = some (cont, mem') ∧
      storedHash mem' cont.mainLayerPointer 0 0 =
        some (root (calcHash H) (merge2hashses H) E msg) ∧
      (∃ need, ∀ fuel, need < fuel → processingBlock H m cont mem' fuel = some block) ∧
      ChecksAgainst H (root (calcHash H) (merge2hashses H) E msg) block := by
  obtain ⟨cont, mem', hrun, -, hb, -⟩ := calcMerkleTree_built H hE hm
  have hroot := storedHash_of_built H hb hE (by norm_num : 0 < 2 ^ 0)
  rw [referenceHash_zero] at hroot
  obtain ⟨n, hq, -, hblock⟩ := processingBlock_spec H hroot hstop
  exact ⟨cont, mem', _, hrun, hroot, ⟨n, hblock⟩, rfl, hq⟩

/-- Pairs of digests hash to ones, a digest to twos, and a nonce with a root hashes to
zeros exactly when the root ends in a one. -/
def lastByteHash : GenericHash := fun x =>
  if x.length = 32 then Vector.replicate 32 2
  else if x.length = 47 ∧ x.getLast? = some 1 then Vector.replicate 32 0
  else Vector.replicate 32 1

def zeroMachine : Machine where
  threadStarts := true
  samples := fun _ => Vector.replicate 15 0
  created := ⟨⟨[], by norm_num, by simp⟩, 0⟩
  solved := 0

theorem zeroMachine_stops (msg : ℕ → SignedMessage) :
    PuzzleStops lastByteHash zeroMachine
      (root (calcHash lastByteHash) (merge2hashses lastByteHash) 1 msg) := by
  have hroot : root (calcHash lastByteHash) (merge2hashses lastByteHash) 1 msg =
      Vector.replicate 32 1 := by
    simp [root, merge2hashses, hashS, lastByteHash]
  rw [hroot]
  exact ⟨rfl, 0, by decide⟩

theorem processingBlock_checks_against_root_at_one :
    ∃ cont mem' block, calcMerkleTree lastByteHash 1 0
        (.ofMessages ((List.range (2 ^ 1)).map fun i => byteMessage (UInt8.ofNat i))) =
          some (cont, mem') ∧
      (∃ need, ∀ fuel, need < fuel →
        processingBlock lastByteHash zeroMachine cont mem' fuel = some block) ∧
      ChecksAgainst lastByteHash (root (calcHash lastByteHash) (merge2hashses lastByteHash) 1
        fun i => byteMessage (UInt8.ofNat i)) block := by
  obtain ⟨cont, mem', block, hrun, -, hblock, hcheck⟩ :=
    processingBlock_checks_against_root lastByteHash 1 0 _ _ zeroMachine le_rfl
      (messagesAt_ofMessages 1 fun i => byteMessage (UInt8.ofNat i)) (zeroMachine_stops _)
  exact ⟨cont, mem', block, hrun, hblock, hcheck⟩

/-- The block's own fields need not pass the check: with `lastByteHash` the nonce solves
the puzzle on the root, and not on the hash of the root, which is what the block holds. -/
theorem processingBlock_not_checksAlone :
    ¬ ∀ (H : GenericHash) (E msgPointer : ℕ) (mem : Mem) (msg : ℕ → SignedMessage) (m : Machine),
      1 ≤ E → MessagesAt mem E msgPointer msg →
      PuzzleStops H m (root (calcHash H) (merge2hashses H) E msg) →
      ∃ cont mem' block, calcMerkleTree H E msgPointer mem = some (cont, mem') ∧
        (∃ need, ∀ fuel, need < fuel → processingBlock H m cont mem' fuel = some block) ∧
        ChecksAlone H block := by
  intro hall
  obtain ⟨cont, mem', block, -, ⟨need, hblock⟩, hcheck⟩ := hall lastByteHash 1 0 _ _ zeroMachine
    le_rfl (messagesAt_ofMessages 1 fun i => byteMessage (UInt8.ofNat i)) (zeroMachine_stops _)
  obtain ⟨top, -, -, hstored⟩ := processingBlock_sound lastByteHash (hblock (need + 1) (by omega))
  have htwo : block.merkleRoot = Vector.replicate 32 2 := by
    rw [hstored]
    simp [calcHashofHash, lastByteHash]
  have hhash : lastByteHash (concatBytes block.nonce block.merkleRoot) = Vector.replicate 32 1 := by
    simp [lastByteHash, concatBytes, htwo]
  rw [ChecksAlone, Qualifies, hhash] at hcheck
  exact absurd hcheck (by decide)

end CBlockchain.BlockProcess
