import CBlockchain.Layering
import CBlockchain.PerfectTree

/-! The layers a Merkle driver builds, against the recursive reference tree. Both
drivers of the repository store a base layer and let `fill_intermediate_levels`
complete it; `buildLayers` is that common part. -/
namespace CBlockchain.MerkleTree
open Hashing Layering PerfectTree
variable (H : GenericHash)

/-- Base layer into slot `exponent - 1`, then every layer above it. -/
def buildLayers (exponent : ℕ) (msgArr : List Ptr) (lArrays : List Ptr)
    (lArraysP : List LayerHp) (mem : Mem) : Option (List Ptr × List LayerHp × Mem) := do
  let (base, mem) ← processSMessagesV2 H (1 <<< exponent) msgArr mem
  let copy ← mem.layers.read base
  fillIntermediateLevels H exponent ((1 <<< exponent) >>> 1) (lArrays.set (exponent - 1) base)
    (lArraysP.set (exponent - 1) copy) mem

/-- Reference hash of node `j` of layer `k`: the tree over messages
`j*2^(E-k), …, (j+1)*2^(E-k)-1`. -/
def referenceHash (E : ℕ) (msg : ℕ → SignedMessage) (k j : ℕ) : Digest :=
  root (calcHash H) (merge2hashses H) (E - k) fun i => msg (j * 2 ^ (E - k) + i)

theorem referenceHash_eq_subtree (E : ℕ) (msg : ℕ → SignedMessage) (k j : ℕ) :
    referenceHash H E msg k j = subtree (calcHash H) (merge2hashses H) (E - k) j msg := rfl

theorem referenceHash_zero (E : ℕ) (msg : ℕ → SignedMessage) :
    referenceHash H E msg 0 0 = root (calcHash H) (merge2hashses H) E msg := by
  rw [referenceHash_eq_subtree, subtree_at_zero, Nat.sub_zero]

theorem referenceHash_inner {E k : ℕ} (hk : k < E) (msg : ℕ → SignedMessage) (j : ℕ) :
    referenceHash H E msg k j = merge2hashses H (referenceHash H E msg (k + 1) (2 * j))
      (referenceHash H E msg (k + 1) (2 * j + 1)) := by
  simp only [referenceHash_eq_subtree]
  rw [show E - k = E - (k + 1) + 1 by omega, subtree_succ]

theorem referenceHash_leaf (E : ℕ) (msg : ℕ → SignedMessage) (j : ℕ) :
    referenceHash H E msg E j = calcHash H (msg j) := by
  simp [referenceHash_eq_subtree]

def layerPtrs (layers : List LayerHp) (k : ℕ) : List Ptr :=
  (layers[k]?.map LayerHp.mainPointer).getD []

def nodePtr (layers : List LayerHp) (k j : ℕ) : Ptr := ptrAt (layerPtrs layers k) j

theorem layerPtrs_eq {layers : List LayerHp} {k : ℕ} {l : LayerHp} (h : layers[k]? = some l) :
    layerPtrs layers k = l.mainPointer := by
  simp [layerPtrs, h]

theorem layerPtrs_set_of_ne {layers : List LayerHp} {i k : ℕ} (hne : i ≠ k) (l : LayerHp) :
    layerPtrs (layers.set i l) k = layerPtrs layers k := by
  simp [layerPtrs, List.getElem?_set_ne hne]

/-- Node `j` of layer `k` as an honest build leaves it. -/
def treeNode (E : ℕ) (layers : List LayerHp) (mp : ℕ → Ptr) (msg : ℕ → SignedMessage)
    (k j : ℕ) : HashPoint :=
  if k + 1 = E then baseNode H mp msg j
  else innerNode H (layerPtrs layers (k + 1)) (referenceHash H E msg (k + 1)) j

theorem treeNode_hash {E k : ℕ} (hk : k < E) (layers : List LayerHp) (mp : ℕ → Ptr)
    (msg : ℕ → SignedMessage) (j : ℕ) :
    (treeNode H E layers mp msg k j).hash = referenceHash H E msg k j := by
  rw [referenceHash_inner H hk]
  by_cases hb : k + 1 = E
  · subst hb
    simp [treeNode, baseNode, referenceHash_leaf]
  · simp [treeNode, hb, innerNode]

/-- Level recorded in layer `k`. Only the base layer and the root get theirs. -/
def recordedLevel (E k : ℕ) : ℕ := if k + 1 = E then E - 1 else 0

/-- Layers `k₀, …, E-1` are complete, in the pointer array and in the copies. -/
structure Built (mem : Mem) (E : ℕ) (lArrays : List Ptr) (lArraysP : List LayerHp)
    (mp : ℕ → Ptr) (msg : ℕ → SignedMessage) (k₀ : ℕ) : Prop where
  length_ptrs : lArrays.length = E
  length_copies : lArraysP.length = E
  layer : ∀ k, k₀ ≤ k → k < E → ∃ lp l, lArrays[k]? = some lp ∧ mem.layers.read lp = some l ∧
    lArraysP[k]? = some l ∧ HoldsLayer mem l (2 ^ k) (treeNode H E lArraysP mp msg k) ∧
    l.level = recordedLevel E k
  hashed_msg : ∀ i < 2 ^ E, (msg i).bytes ∈ mem.hashed
  hashed_pair : ∀ k j, k₀ ≤ k → k < E → j < 2 ^ k →
    hashS (referenceHash H E msg (k + 1) (2 * j)) (referenceHash H E msg (k + 1) (2 * j + 1)) ∈
      mem.hashed

theorem Built.base {E : ℕ} {mem : Mem} {lArrays : List Ptr} {lArraysP : List LayerHp}
    {mp : ℕ → Ptr} {msg : ℕ → SignedMessage} {lp : Ptr} {l : LayerHp}
    (hA : lArrays.length = E + 1) (hP : lArraysP.length = E + 1)
    (hlp : mem.layers.read lp = some l) (hl : HoldsLayer mem l (2 ^ E) (baseNode H mp msg))
    (hlevel : l.level = levelLoop (2 ^ E) 0)
    (hh : ∀ t < 2 ^ E, (msg (2 * t)).bytes ∈ mem.hashed ∧ (msg (2 * t + 1)).bytes ∈ mem.hashed ∧
      hashS (calcHash H (msg (2 * t))) (calcHash H (msg (2 * t + 1))) ∈ mem.hashed) :
    Built H mem (E + 1) (lArrays.set E lp) (lArraysP.set E l) mp msg E where
  length_ptrs := by simpa using hA
  length_copies := by simpa using hP
  layer := by
    intro k hk hkE
    obtain rfl : k = E := by omega
    refine ⟨lp, l, ?_, hlp, ?_, ?_, ?_⟩
    · simp [hA]
    · simp [hP]
    · have hn : treeNode H (k + 1) (lArraysP.set k l) mp msg k = baseNode H mp msg := by
        funext j
        simp [treeNode]
      rwa [hn]
    · rw [hlevel, levelLoop_two_pow]
      simp [recordedLevel]
  hashed_msg := by
    intro i hi
    have hp : 2 ^ (E + 1) = 2 * 2 ^ E := pow_succ' 2 E
    have hpair := hh (i / 2) (by omega)
    by_cases hpar : i % 2 = 0
    · have := hpair.1
      rwa [show 2 * (i / 2) = i by omega] at this
    · have := hpair.2.1
      rwa [show 2 * (i / 2) + 1 = i by omega] at this
  hashed_pair := by
    intro k j hk hkE hj
    obtain rfl : k = E := by omega
    simpa only [referenceHash_leaf] using (hh j hj).2.2

theorem Built.step {E k : ℕ} {mem : Mem} {lArrays : List Ptr} {lArraysP : List LayerHp}
    {mp : ℕ → Ptr} {msg : ℕ → SignedMessage} (hk : k + 1 < E)
    (hb : Built H mem E lArrays lArraysP mp msg (k + 1)) :
    ∃ above aboveLayer lp l mem', lArrays[k + 1]? = some above ∧
      mem.layers.read above = some aboveLayer ∧
      createAHLayer H (2 ^ (k + 1)) aboveLayer.mainPointer mem = some (lp, 2 ^ k, mem') ∧
      mem'.layers.read lp = some l ∧ mem.Extends mem' ∧
      Built H mem' E (lArrays.set k lp) (lArraysP.set k l) mp msg k := by
  obtain ⟨above, aboveLayer, hA, hread, hP, hhold, -⟩ := hb.layer (k + 1) le_rfl hk
  have hptrs := layerPtrs_eq hP
  have hbelow : ∀ j < 2 * 2 ^ k, mem.nodes.read (ptrAt aboveLayer.mainPointer j) =
      some (treeNode H E lArraysP mp msg (k + 1) j) :=
    fun j hj => hhold.node j (by rw [pow_succ']; omega)
  obtain ⟨lp, l, mem', hrun, hext, hlp, hl, hlevel, hh⟩ := createAHLayer_spec H
    (n := 2 ^ k) (by rw [hhold.length, pow_succ']) hbelow
  rw [← pow_succ'] at hrun
  have hnode : ∀ i, treeNode H E (lArraysP.set k l) mp msg k i =
      innerNode H aboveLayer.mainPointer
        (fun j => (treeNode H E lArraysP mp msg (k + 1) j).hash) i := by
    intro i
    rw [treeNode, if_neg (by omega), layerPtrs_set_of_ne (by omega), hptrs]
    simp only [innerNode, treeNode_hash H hk]
  refine ⟨above, aboveLayer, lp, l, mem', hA, hread, hrun, hlp, hext, ?_⟩
  refine ⟨by simpa using hb.length_ptrs, by simpa using hb.length_copies, ?_,
    fun i hi => hext.hashed (hb.hashed_msg i hi), ?_⟩
  · intro k' hk' hkE
    rcases Nat.eq_or_lt_of_le hk' with rfl | hlt
    · refine ⟨lp, l, ?_, hlp, ?_, ⟨hl.size, hl.length, ?_⟩, ?_⟩
      · simp [hb.length_ptrs, hkE]
      · simp [hb.length_copies, hkE]
      · intro t ht
        rw [hl.node t ht, hnode]
      · have hrec : recordedLevel E k = 0 := if_neg (by omega)
        rw [hlevel, hrec]
        split_ifs with h1
        · rw [h1]; simpa using levelLoop_two_pow 0 0
        · rfl
    · obtain ⟨lp', l', hA', hr', hP', hh', hl'⟩ := hb.layer k' (by omega) hkE
      refine ⟨lp', l', by rwa [List.getElem?_set_ne (by omega)], hext.layers _ _ hr',
        by rwa [List.getElem?_set_ne (by omega)], ?_, hl'⟩
      refine ⟨hh'.size, hh'.length, fun t ht => ?_⟩
      rw [hext.nodes _ _ (hh'.node t ht)]
      simp only [treeNode, layerPtrs_set_of_ne (show k ≠ k' + 1 by omega)]
  · intro k' j hk' hkE hj
    rcases Nat.eq_or_lt_of_le hk' with rfl | hlt
    · simpa only [treeNode_hash H hk] using hh j hj
    · exact hext.hashed (hb.hashed_pair k' j (by omega) hkE hj)

theorem fillLoop_built {E k : ℕ} {mem : Mem} {lArrays : List Ptr} {lArraysP : List LayerHp}
    {mp : ℕ → Ptr} {msg : ℕ → SignedMessage} (hk : k < E)
    (hb : Built H mem E lArrays lArraysP mp msg k) :
    ∃ lA lP mem', fillLoop H k (2 ^ k) lArrays lArraysP mem = some (lA, lP, mem') ∧
      mem.Extends mem' ∧ Built H mem' E lA lP mp msg 0 := by
  induction k generalizing mem lArrays lArraysP with
  | zero => exact ⟨lArrays, lArraysP, mem, rfl, .refl _, hb⟩
  | succ k ih =>
    obtain ⟨above, aboveLayer, lp, l, mem₁, hA, hread, hrun, hlp, hext, hb₁⟩ := hb.step H hk
    obtain ⟨lA, lP, mem', hfill, hext', hb'⟩ := ih (by omega) hb₁
    refine ⟨lA, lP, mem', ?_, hext.trans hext', hb'⟩
    simp [fillLoop, hA, hread, hrun, hlp, hfill]

theorem buildLayers_built {E : ℕ} (hE : 1 ≤ E) (msgArr lArrays : List Ptr)
    (lArraysP : List LayerHp) (mem : Mem) {msg : ℕ → SignedMessage}
    (hlen : msgArr.length = 2 ^ E) (hA : lArrays.length = E) (hP : lArraysP.length = E)
    (hm : ∀ i < 2 ^ E, mem.msgs.read (ptrAt msgArr i) = some (msg i)) :
    ∃ lA lP mem', buildLayers H E msgArr lArrays lArraysP mem = some (lA, lP, mem') ∧
      mem.Extends mem' ∧ Built H mem' E lA lP (ptrAt msgArr) msg 0 := by
  obtain ⟨e, rfl⟩ : ∃ e, E = e + 1 := ⟨E - 1, by omega⟩
  have hp : 2 ^ (e + 1) = 2 * 2 ^ e := pow_succ' 2 e
  rw [hp] at hlen hm
  obtain ⟨lp, l, mem₁, hrun, hext, hlp, hl, hlevel, hh⟩ :=
    processSMessagesV2_spec H hlen.ge hm
  have hb := Built.base H hA hP hlp hl hlevel hh
  obtain ⟨lA, lP, mem', hfill, hext', hb'⟩ := fillLoop_built H (Nat.lt_succ_self e) hb
  refine ⟨lA, lP, mem', ?_, hext.trans hext', hb'⟩
  have hn : 1 <<< (e + 1) = 2 * 2 ^ e := by rw [Nat.shiftLeft_eq, one_mul, hp]
  have hs : (2 * 2 ^ e) >>> 1 = 2 ^ e := by rw [Nat.shiftRight_eq_div_pow]; omega
  simp [buildLayers, fillIntermediateLevels, hn, hs, hrun, hlp, hfill]

end CBlockchain.MerkleTree
