import CBlockchain.Hashing

/-! Blocks and the nonce puzzle of `blockdata.c`. What the machine supplies (clock
readings, random samples) is an argument; the puzzle loop may run forever, so it takes
the number of samples it may draw. -/
namespace CBlockchain

/-- `NONCE_LEN` bytes. -/
abbrev Nonce := Vector UInt8 15

/-- What `strftime` leaves in `char date[32]`: the bytes before the terminator. -/
structure DateString where
  bytes : List UInt8
  length_lt : bytes.length < 32
  noNul : 0 ∉ bytes

structure Clock where
  date : DateString
  epochNs : UInt64

structure Block where
  nonce : Nonce
  date : Vector UInt8 35
  timestampBegin : UInt64
  timestampEnd : UInt64
  difficulty : UInt64
  previousBlock : Digest
  merkleRoot : Digest
  deriving DecidableEq

namespace BlockData
open Hashing
variable (H : GenericHash)

/-- `get_timestamp`: the string and its terminator; the rest of the buffer is kept. -/
def getTimestamp (d : DateString) (buffer : Vector UInt8 35) : Vector UInt8 35 :=
  Vector.ofFn fun i => ((d.bytes ++ [0])[i.val]?).getD buffer[i]

/-- The eight bytes of a machine word, lowest first. -/
def wordBytes (x : UInt64) : List UInt8 :=
  (List.range 8).map fun i => (x >>> UInt64.ofNat (8 * i)).toUInt8

/-- The `sizeof(block_t)` bytes of the packed structure. -/
def blockBytes (b : Block) : List UInt8 :=
  b.nonce.toList ++ b.date.toList ++ wordBytes b.timestampBegin ++ wordBytes b.timestampEnd ++
    wordBytes b.difficulty ++ b.previousBlock.toList ++ b.merkleRoot.toList

theorem length_blockBytes (b : Block) : (blockBytes b).length = 138 := by
  simp [blockBytes, wordBytes]

/-- The block stores the hash of the root it is given, against birthday attacks. -/
def createBlockDummy (prevBlock : Option Block) (merkleRoot : Digest) (clock : Clock) : Block where
  nonce := Vector.replicate 15 0
  date := getTimestamp clock.date (Vector.replicate 35 0)
  timestampBegin := clock.epochNs
  timestampEnd := 0
  difficulty := 0
  previousBlock :=
    match prevBlock with
    | none => Vector.replicate 32 0
    | some prev => H (blockBytes prev)
  merkleRoot := calcHashofHash H merkleRoot

def setNonceToBlock (blk : Block) (nonce : Nonce) (epochNs : UInt64) : Block :=
  { blk with nonce := nonce, timestampEnd := epochNs }

def setPrevBlockHash (blkCurrent : Block) : Option Block → Block
  | none => { blkCurrent with previousBlock := Vector.replicate 32 0 }
  | some blkPrev => { blkCurrent with previousBlock := calcHashofHash H blkPrev.merkleRoot }

/-- `CONCAT_BYTES`: nonce first, root behind it. -/
def concatBytes (nonce : Nonce) (merkleRoot : Digest) : List UInt8 :=
  nonce.toList ++ merkleRoot.toList

def ans : List UInt8 := List.replicate 5 0

def testSolution (merkleRoot : Digest) (nonce : Nonce) (answer : Digest) : Bool :=
  memcmp 32 (H (concatBytes nonce merkleRoot)).toList answer.toList == 0

/-- The first `difficulty` bytes of the digest are zero. -/
def Qualifies (difficulty : ℕ) (merkleRoot : Digest) (nonce : Nonce) : Prop :=
  (H (concatBytes nonce merkleRoot)).toList.take difficulty = List.replicate difficulty 0

instance (difficulty : ℕ) (merkleRoot : Digest) (nonce : Nonce) :
    Decidable (Qualifies H difficulty merkleRoot nonce) := decEq _ _

/-- The `do … while` loop of both solvers, on the samples alone; `ii` of them have been drawn
before. -/
def puzzleLoop (difficulty : ℕ) (merkleRoot : Digest) (samples : ℕ → Nonce) :
    ℕ → ℕ → Option (Nonce × Digest)
  | 0, _ => none
  | fuel + 1, ii =>
    let nonce := samples ii
    let outHash := H (concatBytes nonce merkleRoot)
    if memcmp difficulty outHash.toList ans ≠ 0 then
      puzzleLoop difficulty merkleRoot samples fuel (ii + 1)
    else some (nonce, outHash)

theorem memcmp_ans {difficulty : ℕ} (hd : difficulty ≤ 5) (merkleRoot : Digest) (nonce : Nonce) :
    memcmp difficulty (H (concatBytes nonce merkleRoot)).toList ans = 0 ↔
      Qualifies H difficulty merkleRoot nonce := by
  have htake : ans.take difficulty = List.replicate difficulty 0 := by
    rw [ans, List.take_replicate, min_eq_left hd]
  rw [memcmp_eq_zero_iff (by simp; omega) (by simpa [ans] using hd), htake, Qualifies]

/-- The loop returns the first qualifying sample once its fuel reaches it. -/
theorem puzzleLoop_first {difficulty : ℕ} (hd : difficulty ≤ 5) (merkleRoot : Digest)
    (samples : ℕ → Nonce) {n : ℕ} (hn : Qualifies H difficulty merkleRoot (samples n))
    (hfirst : ∀ m < n, ¬ Qualifies H difficulty merkleRoot (samples m)) :
    ∀ fuel ii, ii ≤ n → n < ii + fuel →
      puzzleLoop H difficulty merkleRoot samples fuel ii =
        some (samples n, H (concatBytes (samples n) merkleRoot)) := by
  intro fuel
  induction fuel with
  | zero =>
    intro ii hle hlt
    omega
  | succ fuel ih =>
    intro ii hle hlt
    rcases Nat.lt_or_eq_of_le hle with hii | rfl
    · have hne := (memcmp_ans H hd merkleRoot (samples ii)).not.mpr (hfirst ii hii)
      rw [puzzleLoop, if_pos hne]
      exact ih (ii + 1) hii (by omega)
    · have heq := (memcmp_ans H hd merkleRoot (samples ii)).mpr hn
      rw [puzzleLoop, if_neg (not_not.mpr heq)]

theorem puzzleLoop_qualifies {difficulty : ℕ} (hd : difficulty ≤ 5) (merkleRoot : Digest)
    (samples : ℕ → Nonce) {nonce : Nonce} {out : Digest} :
    ∀ fuel ii, puzzleLoop H difficulty merkleRoot samples fuel ii = some (nonce, out) →
      Qualifies H difficulty merkleRoot nonce ∧ ∃ n, nonce = samples n := by
  intro fuel
  induction fuel with
  | zero =>
    intro ii h
    simp [puzzleLoop] at h
  | succ fuel ih =>
    intro ii h
    rw [puzzleLoop] at h
    split at h
    · exact ih _ h
    · rename_i hz
      simp only [Option.some.injEq, Prod.mk.injEq] at h
      obtain ⟨rfl, -⟩ := h
      exact ⟨(memcmp_ans H hd merkleRoot _).mp (not_not.mp hz), ii, rfl⟩

end BlockData
end CBlockchain
