import CBlockchain.MerkleProcess

/-! What a verdict of `merkle_verify_message` says about the tree. The verdict is
expressed through the links the run checks; the link between layers `E-1` and
`E-2` is not among them, and a mismatch in a middle layer is answered with 1. -/
namespace CBlockchain.MerkleVerdict
open Hashing Layering MerkleTree CalcMerkleTree PerfectTree MerkleProcess

section Verdict
variable (H : GenericHash) {mem : Mem} {E : ℕ} {layers : List LayerHp} {msg : ℕ → SignedMessage}

/-- The links on the path of message `i` that the middle turns compare: from
layer `E - 2` up to the root. -/
def PathLinked (mem : Mem) (E : ℕ) (layers : List LayerHp) (i : ℕ) : Prop :=
  ∀ l < E - 2, Linked (merge2hashses H) (hashAt mem layers) l (i >>> (E - l))

/-- Verdict and comparisons of a run, by the links that hold. -/
structure VerifyOutcome (mem : Mem) (E : ℕ) (layers : List LayerHp) (msg : ℕ → SignedMessage)
    (i : ℕ) (r : Traced VerifyEvent ℤ) : Prop where
  allEqual : AllEqual r.trace ↔ BaseLinked H mem E layers msg (i >>> 1) ∧
    PathLinked H mem E layers i ∧ Linked (merge2hashses H) (hashAt mem layers) 0 0
  accepted : BaseLinked H mem E layers msg (i >>> 1) → PathLinked H mem E layers i →
    Linked (merge2hashses H) (hashAt mem layers) 0 0 → r.result = some 1
  baseMismatch : ¬ BaseLinked H mem E layers msg (i >>> 1) → r.result = some 0
  middleMismatch : BaseLinked H mem E layers msg (i >>> 1) → ¬ PathLinked H mem E layers i →
    r.result = some 1
  rootMismatch : BaseLinked H mem E layers msg (i >>> 1) → PathLinked H mem E layers i →
    ¬ Linked (merge2hashses H) (hashAt mem layers) 0 0 → r.result = some 0

theorem pathLinked_iff {i : ℕ} :
    PathLinked H mem E layers i ↔ MiddleLinked H mem layers (E - 2) (i >>> 2) := by
  have hidx : ∀ l < E - 2, (i >>> 2) / 2 ^ (E - 2 - l) = i >>> (E - l) := by
    intro l hl
    rw [← Nat.shiftRight_eq_div_pow, ← Nat.shiftRight_add]
    congr 1
    omega
  constructor
  · intro h l hl
    rw [hidx l hl]
    exact h l hl
  · intro h l hl
    rw [← hidx l hl]
    exact h l hl

theorem merkleVerifyMessage_outcome (hs : MerkleShape mem E layers msg) (hE : 2 ≤ E) {i : ℕ}
    (hi : i < 2 ^ E) :
    VerifyOutcome H mem E layers msg i (merkleVerifyMessage H mem layers E i) := by
  obtain ⟨e, rfl⟩ : ∃ e, E = e + 2 := ⟨E - 2, by omega⟩
  have hr : i >>> 1 < 2 ^ (e + 1) := shift_lt hi
  have hx : i >>> 2 < 2 ^ e := by
    have := shift_lt hr
    rwa [← Nat.shiftRight_add] at this
  obtain ⟨pre, rez, hpre, hrez, hrun⟩ := merkleVerifyMessage_base H hs hE (i := i) rfl hr
  have hreq : (i >>> 1) >>> 1 = i >>> 2 := by rw [← Nat.shiftRight_add]
  have hloop := verifyLoop_outcome H hs (i := e) (by omega) hreq hx 0
  have hmid : PathLinked H mem (e + 2) layers i ↔ _ := pathLinked_iff H
  rw [Nat.add_sub_cancel] at hmid
  rw [hrun]
  by_cases hb : BaseLinked H mem (e + 2) layers msg (i >>> 1)
  · rw [if_pos (hrez.mpr hb)]
    refine ⟨?_, fun _ hp hl => ?_, fun h => absurd hb h, fun _ hp => ?_, fun _ hp hl => ?_⟩
    · rw [allEqual_append, allEqual_append, allEqual_memcmp]
      simp [hpre, hb, hloop.allEqual, hmid]
    · simp [hloop.linked (hmid.mp hp) hl]
    · simp [hloop.middleMismatch fun h => hp (hmid.mpr h)]
    · simp [hloop.rootMismatch (hmid.mp hp) hl]
  · have hz : ¬ rez = 0 := fun h => hb (hrez.mp h)
    rw [if_neg hz]
    refine ⟨?_, fun h => absurd h hb, fun _ => rfl, fun h => absurd h hb, fun h => absurd h hb⟩
    rw [allEqual_append, allEqual_memcmp]
    simp [hz, hb]

/-- The verdict 1 is given exactly to runs without a mismatch. -/
def FailsClosed (r : Traced VerifyEvent ℤ) : Prop :=
  (r.result = some 1 ↔ AllEqual r.trace) ∧ (¬ AllEqual r.trace → r.result = some 0)

/-- The verifier fails closed exactly when no comparison of a middle layer is
reached and finds a mismatch. -/
theorem merkleVerifyMessage_failsClosed_iff (E i : ℕ) (hE : 2 ≤ E) (hi : i < 2 ^ E)
    (hs : MerkleShape mem E layers msg) :
    FailsClosed (merkleVerifyMessage H mem layers E i) ↔
      ¬ BaseLinked H mem E layers msg (i >>> 1) ∨ PathLinked H mem E layers i := by
  have ho := merkleVerifyMessage_outcome H hs hE hi
  by_cases hb : BaseLinked H mem E layers msg (i >>> 1)
  · by_cases hp : PathLinked H mem E layers i
    · by_cases hl : Linked (merge2hashses H) (hashAt mem layers) 0 0
      · have ha := ho.allEqual.mpr ⟨hb, hp, hl⟩
        simp [FailsClosed, ha, ho.accepted hb hp hl, hp]
      · have ha : ¬ AllEqual (merkleVerifyMessage H mem layers E i).trace :=
          fun h => hl (ho.allEqual.mp h).2.2
        simp [FailsClosed, ha, ho.rootMismatch hb hp hl, hp]
    · have ha : ¬ AllEqual (merkleVerifyMessage H mem layers E i).trace :=
        fun h => hp (ho.allEqual.mp h).2.1
      simp [FailsClosed, ha, ho.middleMismatch hb hp, hb, hp]
  · have ha : ¬ AllEqual (merkleVerifyMessage H mem layers E i).trace :=
      fun h => hb (ho.allEqual.mp h).1
    simp [FailsClosed, ha, ho.baseMismatch hb, hb]

/-- The root recomputed from the message pair of `i`, merged layer by layer with the
stored hash of the sibling from layer `E - 1` down to layer 1. -/
def recomputedRoot (mem : Mem) (E : ℕ) (layers : List LayerHp) (msg : ℕ → SignedMessage)
    (i : ℕ) : Digest :=
  climb (merge2hashses H) (hashAt mem layers) (E - 1) (i >>> 1)
    (merge2hashses H (calcHash H (msg (2 * (i >>> 1)))) (calcHash H (msg (2 * (i >>> 1) + 1))))

/-- The pairs that this recomputation merges, from the base upwards. -/
def recomputedPairs (mem : Mem) (E : ℕ) (layers : List LayerHp) (msg : ℕ → SignedMessage)
    (i : ℕ) : List (Digest × Digest) :=
  climbPairs (merge2hashses H) (hashAt mem layers) (E - 1) (i >>> 1)
    (merge2hashses H (calcHash H (msg (2 * (i >>> 1)))) (calcHash H (msg (2 * (i >>> 1) + 1))))

/-- The pairs merged upwards from the stored hash at layer `E - 2`. On a passing run each is a
pair of stored siblings that the loop has merged. -/
def storedPairs (mem : Mem) (E : ℕ) (layers : List LayerHp) (i : ℕ) : List (Digest × Digest) :=
  climbPairs (merge2hashses H) (hashAt mem layers) (E - 2) (i >>> 2)
    (hashAt mem layers (E - 2) (i >>> 2))

/-- If every `memcmp` of the run reports equality, the stored root is the recomputed one. -/
def Covers (mem : Mem) (E : ℕ) (layers : List LayerHp) (msg : ℕ → SignedMessage) (i : ℕ) : Prop :=
  AllEqual (merkleVerifyMessage H mem layers E i).trace →
    hashAt mem layers 0 0 = recomputedRoot H mem E layers msg i

/-- A passing run leaves one link open: it fixes the root as what the stored hash
at layer `E - 2` climbs to, and the base as what the recomputation starts from. -/
theorem climb_of_allEqual (hs : MerkleShape mem E layers msg) (hE : 2 ≤ E) {i : ℕ}
    (hi : i < 2 ^ E) (ha : AllEqual (merkleVerifyMessage H mem layers E i).trace) :
    climb (merge2hashses H) (hashAt mem layers) (E - 2) (i >>> 2)
        (hashAt mem layers (E - 2) (i >>> 2)) = hashAt mem layers 0 0 ∧
      ∃ v, v = merge2hashses H (hashAt mem layers (E - 2 + 1) (2 * (i >>> 2)))
          (hashAt mem layers (E - 2 + 1) (2 * (i >>> 2) + 1)) ∧
        recomputedRoot H mem E layers msg i =
          climb (merge2hashses H) (hashAt mem layers) (E - 2) (i >>> 2) v ∧
        (recomputedPairs H mem E layers msg i).tail =
          climbPairs (merge2hashses H) (hashAt mem layers) (E - 2) (i >>> 2) v := by
  obtain ⟨hb, hp, -⟩ := (merkleVerifyMessage_outcome H hs hE hi).allEqual.mp ha
  obtain ⟨e, rfl⟩ : ∃ e, E = e + 2 := ⟨E - 2, by omega⟩
  have hx : i >>> 2 < 2 ^ e := by
    have := shift_lt (shift_lt hi)
    rwa [← Nat.shiftRight_add] at this
  have hhalf : (i >>> 1) / 2 = i >>> 2 := by
    rw [show (2 : ℕ) = 1 + 1 from rfl, Nat.shiftRight_add, Nat.shiftRight_eq_div_pow _ 1, pow_one]
    rw [Nat.shiftRight_eq_div_pow _ 1, pow_one]
  have hb' : merge2hashses H (calcHash H (msg (2 * (i >>> 1))))
      (calcHash H (msg (2 * (i >>> 1) + 1))) = hashAt mem layers (e + 1) (i >>> 1) := hb
  refine ⟨?_, _, rfl, ?_, ?_⟩
  · have hm := (pathLinked_iff H).mp hp
    have hc := climb_stored (merge2hashses H) (hashAt mem layers) e (i >>> 2) hm
    rwa [Nat.div_eq_of_lt hx] at hc
  · rw [recomputedRoot, show e + 2 - 1 = e + 1 from rfl, climb, hb', merge_sides, hhalf]
    rfl
  · have hmerge := merge_sides (merge2hashses H) (hashAt mem layers) (e + 1) (i >>> 1)
    rw [hhalf] at hmerge
    rw [recomputedPairs, show e + 2 - 1 = e + 1 from rfl, climbPairs, List.tail_cons, hb', hhalf,
      show e + 2 - 2 = e from rfl, ← hmerge]
    split_ifs <;> rfl

/-- After a passing run the stored root is the recomputed one exactly if the open link holds,
or if above it two different pairs on the path are merged to one hash. -/
theorem root_eq_iff (hs : MerkleShape mem E layers msg) (hE : 2 ≤ E) {i : ℕ} (hi : i < 2 ^ E)
    (ha : AllEqual (merkleVerifyMessage H mem layers E i).trace) :
    hashAt mem layers 0 0 = recomputedRoot H mem E layers msg i ↔
      Linked (merge2hashses H) (hashAt mem layers) (E - 2) (i >>> 2) ∨
      PathClash (merge2hashses H) (storedPairs H mem E layers i)
        (recomputedPairs H mem E layers msg i).tail := by
  obtain ⟨hup, v, hv, hre, hpairs⟩ := climb_of_allEqual H hs hE hi ha
  rw [hre, ← hup, climb_eq_iff, hpairs, storedPairs, Linked, ← hv]
  exact or_congr_left eq_comm

end Verdict

section Forged

/-- Node `j` of layer `k` in a tree whose nodes are laid out layer by layer. -/
def forgedNode (E : ℕ) (hash : ℕ → ℕ → Digest) (k j : ℕ) : HashPoint :=
  if k + 1 = E then
    ⟨hash k j, .messages (some (2 * j)) (hash k j) (some (2 * j + 1)) (hash k j), 0⟩
  else
    ⟨hash k j, .hpoints (some (2 ^ (k + 1) - 1 + 2 * j)) (some (2 ^ (k + 1) - 1 + (2 * j + 1))), 1⟩

/-- A memory holding a tree of the builder's shape with freely chosen hashes. -/
def forgedMem (E : ℕ) (hash : ℕ → ℕ → Digest) (msg : ℕ → SignedMessage) : Mem where
  msgs := ⟨(List.range (2 ^ E)).map fun i => some (msg i)⟩
  nodes := ⟨(List.range (2 ^ E - 1)).map fun a =>
    some (forgedNode E hash (Nat.log 2 (a + 1)) (a + 1 - 2 ^ Nat.log 2 (a + 1)))⟩
  layers := .empty
  hashed := []

def forgedLayer (E k : ℕ) : LayerHp :=
  ⟨(List.range (2 ^ k)).map fun j => some (2 ^ k - 1 + j), 2 ^ k, recordedLevel E k⟩

def forgedLayers (E : ℕ) : List LayerHp := (List.range E).map (forgedLayer E)

theorem forgedLayers_get {E k : ℕ} (hk : k < E) :
    (forgedLayers E)[k]? = some (forgedLayer E k) := by
  simp [forgedLayers, hk]

theorem nodePtr_forged {E k j : ℕ} (hk : k < E) (hj : j < 2 ^ k) :
    nodePtr (forgedLayers E) k j = some (2 ^ k - 1 + j) := by
  rw [nodePtr, layerPtrs_eq (forgedLayers_get hk)]
  exact ptrAt_eq (by simp [forgedLayer, hj])

theorem read_forged {E k j : ℕ} (hash : ℕ → ℕ → Digest) (msg : ℕ → SignedMessage)
    (hk : k < E) (hj : j < 2 ^ k) :
    (forgedMem E hash msg).nodes.read (nodePtr (forgedLayers E) k j) =
      some (forgedNode E hash k j) := by
  have hp : 0 < 2 ^ k := by positivity
  have hle : 2 ^ (k + 1) ≤ 2 ^ E := Nat.pow_le_pow_right (by norm_num) hk
  have hs : 2 ^ (k + 1) = 2 * 2 ^ k := pow_succ' 2 k
  have ha : 2 ^ k - 1 + j + 1 = 2 ^ k + j := by omega
  have hlog : Nat.log 2 (2 ^ k + j) = k :=
    (Nat.log_eq_iff (Or.inr ⟨by norm_num, by omega⟩)).mpr ⟨by omega, by omega⟩
  have hlt : 2 ^ k - 1 + j < 2 ^ E - 1 := by omega
  simp [nodePtr_forged hk hj, Heap.read_some, forgedMem, hlt, ha, hlog]

theorem hashAt_forged {E k j : ℕ} (hash : ℕ → ℕ → Digest) (msg : ℕ → SignedMessage)
    (hk : k < E) (hj : j < 2 ^ k) :
    hashAt (forgedMem E hash msg) (forgedLayers E) k j = hash k j := by
  rw [hashAt_eq (read_forged hash msg hk hj), forgedNode]
  split_ifs <;> rfl

theorem forged_shape (E : ℕ) (hE : 1 ≤ E) (hash : ℕ → ℕ → Digest) (msg : ℕ → SignedMessage) :
    MerkleShape (forgedMem E hash msg) E (forgedLayers E) msg where
  layer := by
    intro k hk
    exact ⟨_, forgedLayers_get hk, rfl, by simp [forgedLayer]⟩
  inner := by
    intro k j hk hj
    have hs : 2 ^ (k + 1) = 2 * 2 ^ k := pow_succ' 2 k
    refine ⟨hash k j, ?_⟩
    rw [read_forged hash msg (by omega) hj, forgedNode, if_neg (by omega),
      nodePtr_forged hk (by omega), nodePtr_forged hk (by omega)]
  base := by
    intro p hp
    have hs : 2 ^ E = 2 * 2 ^ (E - 1) := by rw [← pow_succ', Nat.sub_add_cancel hE]
    refine ⟨hash (E - 1) p, some (2 * p), hash (E - 1) p, some (2 * p + 1), hash (E - 1) p,
      ?_, ?_, ?_⟩
    · rw [read_forged hash msg (by omega) hp, forgedNode, if_pos (by omega)]
    · simp [forgedMem, Heap.read_some, show 2 * p < 2 ^ E by omega]
    · simp [forgedMem, Heap.read_some, show 2 * p + 1 < 2 ^ E by omega]

def zeroDigest : Digest := Vector.replicate 32 0

def oneDigest : Digest := Vector.replicate 32 1

theorem merge_zero_zero : merge2hashses orHash zeroDigest zeroDigest = zeroDigest := by decide

theorem merge_one_left (a : Digest) : merge2hashses orHash oneDigest a = oneDigest := by
  simp [merge2hashses, orHash, hashS, oneDigest]

theorem merge_one_right (a : Digest) : merge2hashses orHash a oneDigest = oneDigest := by
  simp [merge2hashses, orHash, hashS, oneDigest]

theorem climb_oneDigest (stored : ℕ → ℕ → Digest) (k x : ℕ) :
    climb (merge2hashses orHash) stored k x oneDigest = oneDigest := by
  induction k generalizing x with
  | zero => rfl
  | succ k ih => simp only [climb, merge_one_left, merge_one_right, ite_self, ih]

/-- Zero hashes everywhere above a base layer of ones. -/
def cutHash (E k _j : ℕ) : Digest := if k + 1 = E then oneDigest else zeroDigest

theorem cut_allEqual {E i : ℕ} (hE : 3 ≤ E) (hi : i < 2 ^ E) :
    AllEqual (merkleVerifyMessage orHash (forgedMem E (cutHash E) fun _ => byteMessage 1)
      (forgedLayers E) E i).trace := by
  have hs := forged_shape E (by omega) (cutHash E) fun _ => byteMessage 1
  have hlink : ∀ l x, l + 2 < E → x < 2 ^ l → Linked (merge2hashses orHash)
      (hashAt (forgedMem E (cutHash E) fun _ => byteMessage 1) (forgedLayers E)) l x := by
    intro l x hl hx
    have hp : 2 ^ (l + 1) = 2 * 2 ^ l := pow_succ' 2 l
    rw [Linked, hashAt_forged _ _ (by omega) (by omega), hashAt_forged _ _ (by omega) (by omega),
      hashAt_forged _ _ (by omega) hx]
    simp only [cutHash, if_neg (show ¬ l + 1 + 1 = E by omega), if_neg (show ¬ l + 1 = E by omega)]
    exact merge_zero_zero
  refine (merkleVerifyMessage_outcome orHash hs (by omega) hi).allEqual.mpr ⟨?_, ?_, ?_⟩
  · have hr : i >>> 1 < 2 ^ (E - 1) := shift_lt (by rwa [Nat.sub_add_cancel (by omega)])
    rw [BaseLinked, hashAt_forged _ _ (by omega) hr, cutHash, if_pos (by omega)]
    decide
  · intro l hl
    apply hlink l _ (by omega)
    rw [Nat.shiftRight_eq_div_pow, Nat.div_lt_iff_lt_mul (by positivity), ← pow_add,
      show l + (E - l) = E by omega]
    exact hi
  · exact hlink 0 0 (by omega) (by norm_num)

theorem cut_not_covers {E i : ℕ} (hE : 3 ≤ E) (hi : i < 2 ^ E) :
    ¬ Covers orHash (forgedMem E (cutHash E) fun _ => byteMessage 1) E (forgedLayers E)
      (fun _ => byteMessage 1) i := by
  intro hc
  have heq := hc (cut_allEqual hE hi)
  have hpair : merge2hashses orHash (calcHash orHash (byteMessage 1))
      (calcHash orHash (byteMessage 1)) = oneDigest := by decide
  rw [hashAt_forged _ _ (by omega) (by norm_num), recomputedRoot, hpair, climb_oneDigest,
    cutHash, if_neg (by omega)] at heq
  exact absurd heq (by decide)

end Forged

/-- A passing run covers the whole path, whatever the hash and the stored tree, only
for trees of two layers. After a passing run on one tree the root is the recomputed one
exactly if the stored hash at layer `E - 2` is the merge of its stored children, or if
further up two different pairs on the path are merged to one hash. -/
theorem merkleVerifyMessage_covers_iff (E i : ℕ) (hE : 2 ≤ E) (hi : i < 2 ^ E) :
    ((∀ (H : GenericHash) mem layers msg, MerkleShape mem E layers msg →
        Covers H mem E layers msg i) ↔ E = 2) ∧
    ∀ (H : GenericHash) mem layers msg, MerkleShape mem E layers msg →
      AllEqual (merkleVerifyMessage H mem layers E i).trace →
        (hashAt mem layers 0 0 = recomputedRoot H mem E layers msg i ↔
          Linked (merge2hashses H) (hashAt mem layers) (E - 2) (i >>> 2) ∨
          PathClash (merge2hashses H) (storedPairs H mem E layers i)
            (recomputedPairs H mem E layers msg i).tail) := by
  refine ⟨⟨fun hall => ?_, ?_⟩, ?_⟩
  · by_contra hne
    have hE3 : 3 ≤ E := by omega
    exact cut_not_covers hE3 hi (hall _ _ _ _ (forged_shape E (by omega) _ _))
  · rintro rfl H mem layers msg hs ha
    rw [root_eq_iff H hs hE hi ha]
    have h0 : i >>> 2 = 0 := by
      rw [Nat.shiftRight_eq_div_pow]
      exact Nat.div_eq_of_lt hi
    left
    rw [h0]
    exact ((merkleVerifyMessage_outcome H hs hE hi).allEqual.mp ha).2.2
  · intro H mem layers msg hs ha
    exact root_eq_iff H hs hE hi ha

theorem merkleVerifyMessage_covers_at_two :
    Covers orHash (forgedMem 2 (fun _ _ => oneDigest) fun _ => byteMessage 1) 2 (forgedLayers 2)
      (fun _ => byteMessage 1) 3 :=
  ((merkleVerifyMessage_covers_iff 2 3 le_rfl (by norm_num)).1.mpr rfl) _ _ _ _
    (forged_shape 2 (by norm_num) _ _)

/-- Three layers, messages of one byte 1, base hashes one and all other hashes zero:
every comparison reports equality, the recomputed root is not the stored one. -/
theorem merkleVerifyMessage_misses_link :
    MerkleShape (forgedMem 3 (cutHash 3) fun _ => byteMessage 1) 3 (forgedLayers 3)
      (fun _ => byteMessage 1) ∧
    AllEqual (merkleVerifyMessage orHash (forgedMem 3 (cutHash 3) fun _ => byteMessage 1)
      (forgedLayers 3) 3 0).trace ∧
    hashAt (forgedMem 3 (cutHash 3) fun _ => byteMessage 1) (forgedLayers 3) 0 0 ≠
      recomputedRoot orHash (forgedMem 3 (cutHash 3) fun _ => byteMessage 1) 3 (forgedLayers 3)
        (fun _ => byteMessage 1) 0 :=
  ⟨forged_shape 3 (by norm_num) _ _, cut_allEqual le_rfl (by norm_num),
    fun heq => cut_not_covers (E := 3) (i := 0) le_rfl (by norm_num) fun _ => heq⟩

theorem merkleVerifyMessage_failsClosed_at_three :
    FailsClosed (merkleVerifyMessage orHash
      (forgedMem 3 (fun _ _ => zeroDigest) fun _ => byteMessage 0) (forgedLayers 3) 3 5) := by
  refine (merkleVerifyMessage_failsClosed_iff orHash 3 5 (by norm_num) (by norm_num)
    (forged_shape 3 (by norm_num) _ _)).mpr (Or.inr ?_)
  intro l hl
  obtain rfl : l = 0 := by omega
  rw [Linked, hashAt_forged _ _ (by norm_num) (by decide),
    hashAt_forged _ _ (by norm_num) (by decide), hashAt_forged _ _ (by norm_num) (by decide)]
  exact merge_zero_zero

/-- Zero hashes everywhere below a root of ones. -/
def rootHash (k _j : ℕ) : Digest := if k = 0 then oneDigest else zeroDigest

/-- A wrong root over three layers of zeros is a mismatch in the middle layer, and
the verdict is 1. -/
theorem merkleVerifyMessage_accepts_mismatch :
    MerkleShape (forgedMem 3 rootHash fun _ => byteMessage 0) 3 (forgedLayers 3)
      (fun _ => byteMessage 0) ∧
    (merkleVerifyMessage orHash (forgedMem 3 rootHash fun _ => byteMessage 0)
      (forgedLayers 3) 3 0).result = some 1 ∧
    ¬ FailsClosed (merkleVerifyMessage orHash (forgedMem 3 rootHash fun _ => byteMessage 0)
      (forgedLayers 3) 3 0) := by
  have hs := forged_shape 3 (by norm_num) rootHash fun _ => byteMessage 0
  have ho := merkleVerifyMessage_outcome orHash hs (i := 0) (by norm_num) (by norm_num)
  have hbase : BaseLinked orHash (forgedMem 3 rootHash fun _ => byteMessage 0) 3
      (forgedLayers 3) (fun _ => byteMessage 0) (0 >>> 1) := by
    rw [BaseLinked, hashAt_forged _ _ (by norm_num) (by norm_num)]
    decide
  have hpath : ¬ PathLinked orHash (forgedMem 3 rootHash fun _ => byteMessage 0) 3
      (forgedLayers 3) 0 := by
    intro h
    have h0 := h 0 (by norm_num)
    rw [Linked, hashAt_forged _ _ (by norm_num) (by norm_num),
      hashAt_forged _ _ (by norm_num) (by norm_num),
      hashAt_forged _ _ (by norm_num) (by norm_num)] at h0
    exact absurd h0 (by decide)
  have hone := ho.middleMismatch hbase hpath
  exact ⟨hs, hone, fun hf => hpath (ho.allEqual.mp (hf.1.mp hone)).2.1⟩

section Honest
variable (H : GenericHash)

/-- The shape says nothing of the hashes, so the messages now in memory need not be
those the tree was built from. -/
theorem shape_of_built {E : ℕ} {mem : Mem} {lA : List Ptr} {lP : List LayerHp} {mp : ℕ → Ptr}
    {msg msg' : ℕ → SignedMessage} (hE : 1 ≤ E) (hb : Built H mem E lA lP mp msg 0)
    (hm : ∀ i < 2 ^ E, mem.msgs.read (mp i) = some (msg' i)) : MerkleShape mem E lP msg' where
  layer := by
    intro k hk
    obtain ⟨lp, l, -, -, hP, hhold, -⟩ := hb.layer k (Nat.zero_le k) hk
    exact ⟨l, hP, hhold.size, hhold.length⟩
  inner := by
    intro k j hk hj
    obtain ⟨lp, l, -, -, hP, hhold, -⟩ := hb.layer k (Nat.zero_le k) (by omega)
    have hn := hhold.node j hj
    rw [treeNode, if_neg (by omega)] at hn
    rw [nodePtr, layerPtrs_eq hP, hn]
    exact ⟨_, rfl⟩
  base := by
    intro p hp
    have hs : 2 ^ E = 2 * 2 ^ (E - 1) := by rw [← pow_succ', Nat.sub_add_cancel hE]
    obtain ⟨lp, l, -, -, hP, hhold, -⟩ := hb.layer (E - 1) (Nat.zero_le _) (by omega)
    have hn := hhold.node p hp
    rw [treeNode, if_pos (by omega)] at hn
    rw [nodePtr, layerPtrs_eq hP, hn]
    exact ⟨_, _, _, _, _, rfl, hm (2 * p) (by omega), hm (2 * p + 1) (by omega)⟩

theorem links_of_built {E : ℕ} {mem : Mem} {lA : List Ptr} {lP : List LayerHp} {mp : ℕ → Ptr}
    {msg : ℕ → SignedMessage} (hb : Built H mem E lA lP mp msg 0) :
    (∀ l x, l + 1 < E → x < 2 ^ l → Linked (merge2hashses H) (hashAt mem lP) l x) ∧
      ∀ r, 1 ≤ E → r < 2 ^ (E - 1) → BaseLinked H mem E lP msg r := by
  have hh : ∀ k j, k < E → j < 2 ^ k → hashAt mem lP k j = referenceHash H E msg k j := by
    intro k j hk hj
    rw [hashAt, storedHash_of_built H hb hk hj, Option.getD_some]
  constructor
  · intro l x hl hx
    have hp : 2 ^ (l + 1) = 2 * 2 ^ l := pow_succ' 2 l
    rw [Linked, hh _ _ hl (by omega), hh _ _ hl (by omega), hh _ _ (by omega) hx,
      ← referenceHash_inner H (by omega)]
  · intro r hE hr
    rw [BaseLinked, hh _ _ (by omega) hr, referenceHash_inner H (by omega),
      show E - 1 + 1 = E by omega, referenceHash_leaf, referenceHash_leaf]

/-- `merge_2hashses` of the two `calc_hash` values of pair `r`. -/
def pairHash (msg : ℕ → SignedMessage) (r : ℕ) : Digest :=
  merge2hashses H (calcHash H (msg (2 * r))) (calcHash H (msg (2 * r + 1)))

/-- On a built tree the verdict depends on the message's pair only: whether the messages
now in memory merge to what the tree was built with. -/
theorem verdict_of_built {E : ℕ} {mem : Mem} {lA : List Ptr} {lP : List LayerHp} {mp : ℕ → Ptr}
    {msg msg' : ℕ → SignedMessage} (hE : 2 ≤ E) (hb : Built H mem E lA lP mp msg 0)
    (hm : ∀ i < 2 ^ E, mem.msgs.read (mp i) = some (msg' i)) {i : ℕ} (hi : i < 2 ^ E) :
    (merkleVerifyMessage H mem lP E i).result =
      some (if pairHash H msg' (i >>> 1) = pairHash H msg (i >>> 1) then 1 else 0) := by
  have hs := shape_of_built H (by omega) hb hm
  obtain ⟨hlinks, hbase⟩ := links_of_built H hb
  have hr : i >>> 1 < 2 ^ (E - 1) := shift_lt (by rwa [Nat.sub_add_cancel (by omega)])
  have hstored : hashAt mem lP (E - 1) (i >>> 1) = pairHash H msg (i >>> 1) :=
    (hbase (i >>> 1) (by omega) hr).symm
  have ho := merkleVerifyMessage_outcome H hs hE hi
  by_cases hpair : pairHash H msg' (i >>> 1) = pairHash H msg (i >>> 1)
  · rw [if_pos hpair]
    apply ho.accepted
    · exact hpair.trans hstored.symm
    · intro l hl
      apply hlinks l _ (by omega)
      rw [Nat.shiftRight_eq_div_pow, Nat.div_lt_iff_lt_mul (by positivity), ← pow_add,
        show l + (E - l) = E by omega]
      exact hi
    · exact hlinks 0 0 (by omega) (by norm_num)
  · rw [if_neg hpair]
    apply ho.baseMismatch
    intro hlinked
    exact hpair (hlinked.trans hstored)

/-- Every message of an honestly built tree is accepted, whatever the hash. -/
theorem merkleVerifyMessage_complete (E msgPointer i : ℕ) (mem : Mem) (msg : ℕ → SignedMessage)
    (hE : 2 ≤ E) (hi : i < 2 ^ E) (hm : MessagesAt mem E msgPointer msg) :
    ∃ cont mem', calcMerkleTree H E msgPointer mem = some (cont, mem') ∧
      (merkleVerifyMessage H mem' cont.mainLayerPointer E i).result = some 1 := by
  obtain ⟨cont, mem', hrun, hext, hb, harr⟩ := calcMerkleTree_built H (by omega) hm
  refine ⟨cont, mem', hrun, ?_⟩
  rw [verdict_of_built H hE hb ((hm.extends hext).read_ptrAt harr) hi, if_pos rfl]

theorem merkleVerifyMessage_complete_at_three :
    ∃ cont mem', calcMerkleTree orHash 3 0
        (.ofMessages ((List.range (2 ^ 3)).map fun i => byteMessage (UInt8.ofNat i))) =
          some (cont, mem') ∧
      (merkleVerifyMessage orHash mem' cont.mainLayerPointer 3 6).result = some 1 :=
  merkleVerifyMessage_complete orHash 3 0 6 _ (fun i => byteMessage (UInt8.ofNat i)) (by norm_num)
    (by norm_num) (messagesAt_ofMessages 3 _)

end Honest

end CBlockchain.MerkleVerdict
