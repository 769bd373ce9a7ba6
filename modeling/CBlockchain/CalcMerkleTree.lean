import CBlockchain.MerkleTree

/-! `calc_merkle_tree` of `block_process.c`. The builder returns for every exponent,
its layers are the recursive reference tree, and the root it computes binds the
ordered list of messages. -/
namespace CBlockchain

/-- A memory that holds one array of messages and nothing else. -/
def Mem.ofMessages (ms : List SignedMessage) : Mem := ⟨⟨ms.map some⟩, .empty, .empty, []⟩

namespace CalcMerkleTree
open Hashing Layering MerkleTree PerfectTree
variable (H : GenericHash)

structure LMsgContainer where
  mainLayerPointer : List LayerHp
  layersForDestr : List Ptr
  messagesArr : List Ptr

/-- The messages lie side by side from `msgPointer` on, so their number fits the
machine word. Exponent 0 would store the base layer in front of both arrays. -/
def calcMerkleTree (exponent msgPointer : ℕ) (mem : Mem) : Option (LMsgContainer × Mem) :=
  if exponent = 0 then none
  else do
    let nMsg := 1 <<< exponent
    let lArrays := List.replicate exponent (none : Ptr)
    let lArraysP := List.replicate exponent (⟨[], 0, 0⟩ : LayerHp)
    let msgArr := (List.range nMsg).map fun i => (some (msgPointer + i) : Ptr)
    let (base, mem) ← processSMessagesV2 H nMsg msgArr mem
    let copy ← mem.layers.read base
    let (lArrays, lArraysP, mem) ← fillIntermediateLevels H exponent (nMsg >>> 1)
      (lArrays.set (exponent - 1) base) (lArraysP.set (exponent - 1) copy) mem
    some (⟨lArraysP, lArrays, msgArr⟩, mem)

/-- Hash stored in node `j` of layer `k`, if there is such a node. -/
def storedHash (mem : Mem) (layers : List LayerHp) (k j : ℕ) : Option Digest :=
  (mem.nodes.read (nodePtr layers k j)).map HashPoint.hash

/-- `2^E` messages lie in memory from `msgPointer` on. -/
def MessagesAt (mem : Mem) (E msgPointer : ℕ) (msg : ℕ → SignedMessage) : Prop :=
  ∀ i < 2 ^ E, mem.msgs.read (some (msgPointer + i)) = some (msg i)

theorem messagesAt_ofMessages (E : ℕ) (msg : ℕ → SignedMessage) :
    MessagesAt (.ofMessages ((List.range (2 ^ E)).map msg)) E 0 msg := by
  intro i hi
  simp [Mem.ofMessages, Heap.read, hi]

theorem MessagesAt.extends {E msgPointer : ℕ} {mem mem' : Mem} {msg : ℕ → SignedMessage}
    (hm : MessagesAt mem E msgPointer msg) (hext : mem.Extends mem') :
    MessagesAt mem' E msgPointer msg := by
  intro i hi
  rw [hext.msgs]
  exact hm i hi

/-- The messages behind the array of pointers that the container keeps. -/
theorem MessagesAt.read_ptrAt {E msgPointer : ℕ} {mem : Mem} {msg : ℕ → SignedMessage}
    (hm : MessagesAt mem E msgPointer msg) {arr : List Ptr}
    (harr : arr = (List.range (2 ^ E)).map fun i => (some (msgPointer + i) : Ptr)) :
    ∀ i < 2 ^ E, mem.msgs.read (ptrAt arr i) = some (msg i) := by
  intro i hi
  have hp : ptrAt arr i = some (msgPointer + i) := ptrAt_eq (by simp [harr, hi])
  rw [hp]
  exact hm i hi

theorem calcMerkleTree_built {E msgPointer : ℕ} {mem : Mem} {msg : ℕ → SignedMessage}
    (hE : 1 ≤ E) (hm : MessagesAt mem E msgPointer msg) :
    ∃ cont mem', calcMerkleTree H E msgPointer mem = some (cont, mem') ∧ mem.Extends mem' ∧
      Built H mem' E cont.layersForDestr cont.mainLayerPointer
        (ptrAt cont.messagesArr) msg 0 ∧
      cont.messagesArr = (List.range (2 ^ E)).map fun i => (some (msgPointer + i) : Ptr) := by
  let msgArr := (List.range (2 ^ E)).map fun i => (some (msgPointer + i) : Ptr)
  obtain ⟨lA, lP, mem', hrun, hext, hb⟩ := buildLayers_built H hE
    msgArr (List.replicate E none) (List.replicate E ⟨[], 0, 0⟩) mem
    (by simp [msgArr]) (by simp) (by simp) (hm.read_ptrAt rfl)
  refine ⟨⟨lP, lA, msgArr⟩, mem', ?_, hext, hb, rfl⟩
  have hn : 1 <<< E = 2 ^ E := by rw [Nat.shiftLeft_eq, one_mul]
  have hE0 : E ≠ 0 := by omega
  unfold buildLayers at hrun
  simp only [Option.bind_eq_bind, Option.bind_eq_some_iff] at hrun
  obtain ⟨⟨base, mem₁⟩, hbase, copy, hcopy, hfill⟩ := hrun
  rw [hn] at hbase hfill
  simp [calcMerkleTree, hE0, hn, msgArr, hbase, hcopy, hfill]

theorem storedHash_of_built {E : ℕ} {mem : Mem} {lA : List Ptr} {lP : List LayerHp}
    {mp : ℕ → Ptr} {msg : ℕ → SignedMessage} (hb : Built H mem E lA lP mp msg 0) {k j : ℕ}
    (hk : k < E) (hj : j < 2 ^ k) : storedHash mem lP k j = some (referenceHash H E msg k j) := by
  obtain ⟨lp, l, -, -, hP, hhold, -⟩ := hb.layer k (Nat.zero_le k) hk
  rw [storedHash, nodePtr, layerPtrs_eq hP, hhold.node j hj, Option.map_some,
    treeNode_hash H hk]

/-- For every exponent the builder returns, and its layers are the reference tree. -/
theorem calcMerkleTree_eq_reference (E msgPointer : ℕ) (mem : Mem) (msg : ℕ → SignedMessage)
    (hE : 1 ≤ E) (hm : MessagesAt mem E msgPointer msg) :
    ∃ cont mem', calcMerkleTree H E msgPointer mem = some (cont, mem') ∧
      (∀ k < E, ∃ lp l, cont.layersForDestr[k]? = some lp ∧ mem'.layers.read lp = some l ∧
        cont.mainLayerPointer[k]? = some l ∧ l.size = 2 ^ k ∧ l.mainPointer.length = 2 ^ k ∧
        ∀ j < 2 ^ k, ∃ n, mem'.nodes.read (ptrAt l.mainPointer j) = some n ∧
          n.hash = root (calcHash H) (merge2hashses H) (E - k)
            fun i => msg (j * 2 ^ (E - k) + i)) ∧
      storedHash mem' cont.mainLayerPointer 0 0 =
        some (root (calcHash H) (merge2hashses H) E msg) := by
  obtain ⟨cont, mem', hrun, -, hb, -⟩ := calcMerkleTree_built H hE hm
  refine ⟨cont, mem', hrun, ?_, ?_⟩
  · intro k hk
    obtain ⟨lp, l, hA, hread, hP, hhold, -⟩ := hb.layer k (Nat.zero_le k) hk
    refine ⟨lp, l, hA, hread, hP, hhold.size, hhold.length, fun j hj => ?_⟩
    exact ⟨_, hhold.node j hj, treeNode_hash H hk _ _ _ _⟩
  · rw [storedHash_of_built H hb hE (by norm_num), referenceHash_zero]

def byteMessage (b : UInt8) : SignedMessage := ⟨[b], 1, Vector.replicate 32 0, by simp⟩

/-- The hash that only tells whether some input byte is nonzero. -/
def orHash : GenericHash := fun x => Vector.replicate 32 (if x.all (· == 0) then 0 else 1)

theorem calcMerkleTree_eq_reference_at_two :
    ∃ cont mem', calcMerkleTree orHash 2 0
        (.ofMessages ((List.range (2 ^ 2)).map fun i => byteMessage (UInt8.ofNat i))) =
          some (cont, mem') ∧
      storedHash mem' cont.mainLayerPointer 0 0 = some (root (calcHash orHash)
        (merge2hashses orHash) 2 fun i => byteMessage (UInt8.ofNat i)) := by
  obtain ⟨cont, mem', hrun, -, hroot⟩ := calcMerkleTree_eq_reference orHash 2 0 _
    (fun i => byteMessage (UInt8.ofNat i)) (by norm_num) (messagesAt_ofMessages 2 _)
  exact ⟨cont, mem', hrun, hroot⟩

/-- Layer `k` of the container, in both of its arrays. -/
def IsLayer (mem : Mem) (cont : LMsgContainer) (k : ℕ) (l : LayerHp) : Prop :=
  cont.mainLayerPointer[k]? = some l ∧
    ∃ lp, cont.layersForDestr[k]? = some lp ∧ mem.layers.read lp = some l

/-- Every layer records its own number, and with it its size. -/
def LevelsConsistent (mem : Mem) (E : ℕ) (cont : LMsgContainer) : Prop :=
  ∀ k < E, ∃ l, IsLayer mem cont k l ∧ l.level = k ∧ l.size = 2 ^ l.level

theorem recordedLevel_eq_iff {E k : ℕ} : recordedLevel E k = k ↔ k = 0 ∨ k + 1 = E := by
  unfold recordedLevel
  split <;> omega

theorem level_iff_of_built {E : ℕ} {mem : Mem} {cont : LMsgContainer} {mp : ℕ → Ptr}
    {msg : ℕ → SignedMessage}
    (hb : Built H mem E cont.layersForDestr cont.mainLayerPointer mp msg 0) {k : ℕ} (hk : k < E) :
    ∃ l, IsLayer mem cont k l ∧ (l.level = k ↔ k = 0 ∨ k + 1 = E) ∧
      (l.size = 2 ^ l.level ↔ l.level = k) := by
  obtain ⟨lp, l, hA, hread, hP, hhold, hlevel⟩ := hb.layer k (Nat.zero_le k) hk
  refine ⟨l, ⟨hP, lp, hA, hread⟩, ?_, ?_⟩
  · rw [hlevel]
    exact recordedLevel_eq_iff
  · rw [hhold.size, Nat.pow_right_inj (le_refl 2), eq_comm]

theorem levelsConsistent_of_built {E : ℕ} {mem : Mem} {cont : LMsgContainer} {mp : ℕ → Ptr}
    {msg : ℕ → SignedMessage}
    (hb : Built H mem E cont.layersForDestr cont.mainLayerPointer mp msg 0) :
    LevelsConsistent mem E cont ↔ E ≤ 2 := by
  constructor
  · intro hall
    by_contra hE
    obtain ⟨l, hl, hlevel, -⟩ := level_iff_of_built H hb (show 1 < E by omega)
    obtain ⟨l', hl', hone, -⟩ := hall 1 (by omega)
    obtain rfl : l = l' := Option.some.inj (hl.1.symm.trans hl'.1)
    rcases hlevel.mp hone with h | h <;> omega
  · intro hE k hk
    obtain ⟨l, hl, hlevel, hsize⟩ := level_iff_of_built H hb hk
    have hown := hlevel.mpr (by omega)
    exact ⟨l, hl, hown, hsize.mpr hown⟩

/-- The base layer and the root record their numbers, a layer between them only records 0:
the layers are consistent exactly when there is none between them. -/
theorem calcMerkleTree_levels_iff (E msgPointer : ℕ) (mem : Mem) (msg : ℕ → SignedMessage)
    (hE : 1 ≤ E) (hm : MessagesAt mem E msgPointer msg) :
    ∃ cont mem', calcMerkleTree H E msgPointer mem = some (cont, mem') ∧
      (LevelsConsistent mem' E cont ↔ E ≤ 2) ∧
      ∀ k < E, ∃ l, IsLayer mem' cont k l ∧ (l.level = k ↔ k = 0 ∨ k + 1 = E) ∧
        (l.size = 2 ^ l.level ↔ l.level = k) := by
  obtain ⟨cont, mem', hrun, -, hb, -⟩ := calcMerkleTree_built H hE hm
  exact ⟨cont, mem', hrun, levelsConsistent_of_built H hb, fun k hk => level_iff_of_built H hb hk⟩

theorem calcMerkleTree_levels_at_two :
    ∃ cont mem', calcMerkleTree orHash 2 0
        (.ofMessages ((List.range (2 ^ 2)).map fun i => byteMessage (UInt8.ofNat i))) =
          some (cont, mem') ∧ LevelsConsistent mem' 2 cont := by
  obtain ⟨cont, mem', hrun, hiff, -⟩ := calcMerkleTree_levels_iff orHash 2 0 _
    (fun i => byteMessage (UInt8.ofNat i)) (by norm_num) (messagesAt_ofMessages 2 _)
  exact ⟨cont, mem', hrun, hiff.mpr le_rfl⟩

/-- With eight messages there is a middle layer, of two nodes; it says it is layer 0. -/
theorem calcMerkleTree_middle_level_lost :
    ∃ cont mem' l, calcMerkleTree orHash 3 0
        (.ofMessages ((List.range (2 ^ 3)).map fun i => byteMessage (UInt8.ofNat i))) =
          some (cont, mem') ∧
      IsLayer mem' cont 1 l ∧ l.size = 2 ∧ l.level = 0 ∧ ¬ LevelsConsistent mem' 3 cont := by
  obtain ⟨cont, mem', hrun, -, hb, -⟩ := calcMerkleTree_built orHash (by norm_num : 1 ≤ 3)
    (messagesAt_ofMessages 3 fun i => byteMessage (UInt8.ofNat i))
  obtain ⟨lp, l, hA, hread, hP, hhold, hlevel⟩ := hb.layer 1 (by norm_num) (by norm_num)
  refine ⟨cont, mem', l, hrun, ⟨hP, lp, hA, hread⟩, hhold.size, hlevel, ?_⟩
  rw [levelsConsistent_of_built orHash hb]
  norm_num

/-- Equal reference roots: the messages agree byte for byte, or two different
inputs hashed while building the trees collide. -/
theorem Built.collision {E : ℕ} {mem₁ mem₂ : Mem} {lA₁ lA₂ : List Ptr} {lP₁ lP₂ : List LayerHp}
    {mp₁ mp₂ : ℕ → Ptr} {msg₁ msg₂ : ℕ → SignedMessage}
    (hb₁ : Built H mem₁ E lA₁ lP₁ mp₁ msg₁ 0) (hb₂ : Built H mem₂ E lA₂ lP₂ mp₂ msg₂ 0)
    (heq : referenceHash H E msg₁ 0 0 = referenceHash H E msg₂ 0 0) :
    (∀ i < 2 ^ E, (msg₁ i).bytes = (msg₂ i).bytes) ∨
      ∃ x ∈ mem₁.hashed, ∃ y ∈ mem₂.hashed, x ≠ y ∧ H x = H y := by
  simp only [referenceHash_eq_subtree, Nat.sub_zero] at heq
  rcases subtree_binds _ _ msg₁ msg₂ E 0 heq with hleaf | ⟨l, x, hl, hx, hne, he⟩
  · by_cases hall : ∀ i < 2 ^ E, (msg₁ i).bytes = (msg₂ i).bytes
    · exact Or.inl hall
    · push Not at hall
      obtain ⟨i, hi, hdiff⟩ := hall
      have hc := hleaf i hi
      simp only [zero_mul, zero_add] at hc
      exact Or.inr ⟨_, hb₁.hashed_msg i hi, _, hb₂.hashed_msg i hi, hdiff, hc⟩
  · right
    have hk : E - (E - (l + 1)) = l + 1 := by omega
    have hx' : x < 2 ^ (E - (l + 1)) := by simpa using hx
    have h₁ := hb₁.hashed_pair (E - (l + 1)) x (Nat.zero_le _) (by omega) hx'
    have h₂ := hb₂.hashed_pair (E - (l + 1)) x (Nat.zero_le _) (by omega) hx'
    simp only [referenceHash_eq_subtree, show E - (E - (l + 1) + 1) = l by omega] at h₁ h₂
    refine ⟨_, h₁, _, h₂, fun hS => hne (Prod.ext (hashS_inj hS).1 (hashS_inj hS).2), ?_⟩
    simpa only [subtree_succ, merge2hashses] using he

/-- Two arrays with the same root agree in every length and every byte in use, or
the inputs hashed during the two builds contain a collision. -/
theorem calcMerkleTree_root_binds (E p₁ p₂ : ℕ) (mem₁ mem₂ : Mem) (msg₁ msg₂ : ℕ → SignedMessage)
    (hE : 1 ≤ E) (hm₁ : MessagesAt mem₁ E p₁ msg₁) (hm₂ : MessagesAt mem₂ E p₂ msg₂) :
    ∃ cont₁ mem₁' cont₂ mem₂',
      calcMerkleTree H E p₁ { mem₁ with hashed := [] } = some (cont₁, mem₁') ∧
      calcMerkleTree H E p₂ { mem₂ with hashed := [] } = some (cont₂, mem₂') ∧
      (storedHash mem₁' cont₁.mainLayerPointer 0 0 = storedHash mem₂' cont₂.mainLayerPointer 0 0 →
        (∀ i < 2 ^ E, (msg₁ i).length = (msg₂ i).length ∧ (msg₁ i).bytes = (msg₂ i).bytes) ∨
        ∃ x ∈ mem₁'.hashed, ∃ y ∈ mem₂'.hashed, x ≠ y ∧ H x = H y) := by
  obtain ⟨cont₁, mem₁', hrun₁, -, hb₁, -⟩ :=
    calcMerkleTree_built H hE (show MessagesAt { mem₁ with hashed := [] } E p₁ msg₁ from hm₁)
  obtain ⟨cont₂, mem₂', hrun₂, -, hb₂, -⟩ :=
    calcMerkleTree_built H hE (show MessagesAt { mem₂ with hashed := [] } E p₂ msg₂ from hm₂)
  refine ⟨cont₁, mem₁', cont₂, mem₂', hrun₁, hrun₂, fun hroot => ?_⟩
  rw [storedHash_of_built H hb₁ hE (by norm_num), storedHash_of_built H hb₂ hE (by norm_num)] at hroot
  rcases Built.collision H hb₁ hb₂ (Option.some.inj hroot) with hbytes | hcol
  · left
    intro i hi
    refine ⟨?_, hbytes i hi⟩
    simpa using congrArg List.length (hbytes i hi)
  · exact Or.inr hcol

theorem calcMerkleTree_root_binds_at_one :
    ∃ cont₁ mem₁' cont₂ mem₂',
      calcMerkleTree orHash 1 0 (.ofMessages ((List.range (2 ^ 1)).map fun _ => byteMessage 7)) =
        some (cont₁, mem₁') ∧
      calcMerkleTree orHash 1 0
        (.ofMessages ((List.range (2 ^ 1)).map fun i => byteMessage (UInt8.ofNat i))) =
        some (cont₂, mem₂') ∧
      (storedHash mem₁' cont₁.mainLayerPointer 0 0 = storedHash mem₂' cont₂.mainLayerPointer 0 0 →
        ∃ x ∈ mem₁'.hashed, ∃ y ∈ mem₂'.hashed, x ≠ y ∧ orHash x = orHash y) := by
  obtain ⟨cont₁, mem₁', cont₂, mem₂', hrun₁, hrun₂, hbind⟩ :=
    calcMerkleTree_root_binds orHash 1 0 0 (.ofMessages _) (.ofMessages _) (fun _ => byteMessage 7)
      (fun i => byteMessage (UInt8.ofNat i)) le_rfl (messagesAt_ofMessages 1 _)
      (messagesAt_ofMessages 1 _)
  refine ⟨cont₁, mem₁', cont₂, mem₂', hrun₁, hrun₂, fun hroot => ?_⟩
  rcases hbind hroot with hall | hcol
  · exact absurd (hall 0 (by norm_num)).2 (by decide)
  · exact hcol

end CalcMerkleTree
end CBlockchain
