import CBlockchain.CalcMerkleTree

/-! Reading the messages back from a built tree: down from the root by `FLAG0` and
the union arm it announces, and pair by pair through `get_s_msg_from_L0`. -/
namespace CBlockchain.TreeWalk
open Hashing Layering MerkleTree CalcMerkleTree

/-- `msg_link` of `hashing.h`. -/
structure MsgLink where
  msg1 : Ptr
  msg2 : Ptr
  deriving DecidableEq

/-- The message arm of a node; reading it in an inner node faults. -/
def messageArm (n : HashPoint) : Option MsgLink :=
  match n.body with
  | .messages smsgP1 _ smsgP2 _ => some ⟨smsgP1, smsgP2⟩
  | .hpoints _ _ => none

/-- `n` is compared with the recorded size before anything is read. -/
def getSMsgFromL0 (mem : Mem) (L0 : LayerHp) (n : ℕ) : Option MsgLink :=
  if L0.size ≤ n then some ⟨none, none⟩
  else do
    let p ← L0.mainPointer[n]?
    let node ← mem.nodes.read p
    messageArm node

/-- The message pointers below the node at `p` in the order of the walk, each with
the number of descents made to reach it. Fewer descents than `fuel` are made. -/
def walk (mem : Mem) : ℕ → ℕ → Ptr → Option (List (Ptr × ℕ))
  | 0, _, _ => none
  | fuel + 1, descents, p => do
      let n ← mem.nodes.read p
      if n.FLAG0 = 1 then
        match n.body with
        | .hpoints hpoint1 hpoint2 => do
            let left ← walk mem fuel (descents + 1) hpoint1
            let right ← walk mem fuel (descents + 1) hpoint2
            some (left ++ right)
        | .messages _ _ _ _ => none
      else if n.FLAG0 = 0 then do
        let link ← messageArm n
        some [(link.msg1, descents), (link.msg2, descents)]
      else none

section Built
variable (H : GenericHash) {mem : Mem} {E : ℕ} {lA : List Ptr} {lP : List LayerHp}
  {mp : ℕ → Ptr} {msg : ℕ → SignedMessage}

theorem read_of_built (hb : Built H mem E lA lP mp msg 0) {k j : ℕ} (hk : k < E)
    (hj : j < 2 ^ k) :
    mem.nodes.read (nodePtr lP k j) = some (treeNode H E lP mp msg k j) := by
  obtain ⟨lp, l, -, -, hP, hhold, -⟩ := hb.layer k (Nat.zero_le k) hk
  rw [nodePtr, layerPtrs_eq hP]
  exact hhold.node j hj

/-- The leaves below node `j` of layer `k` are the block of `2^(E-k)` positions from
`j*2^(E-k)` on; a node's block is the left child's followed by the right child's. -/
theorem walk_of_built (hb : Built H mem E lA lP mp msg 0) (d : ℕ) {k j : ℕ} (fuel : ℕ)
    (hk : k + d + 1 = E) (hj : j < 2 ^ k) (hfuel : d < fuel) :
    walk mem fuel k (nodePtr lP k j) =
      some ((List.range' (j * 2 ^ (d + 1)) (2 ^ (d + 1))).map fun i => (mp i, E - 1)) := by
  induction d generalizing k j fuel with
  | zero =>
    obtain ⟨f, rfl⟩ : ∃ f, fuel = f + 1 := ⟨fuel - 1, by omega⟩
    have hread := read_of_built H hb (by omega) hj
    rw [treeNode, if_pos (by omega)] at hread
    have hk1 : E - 1 = k := by omega
    simp [walk, hread, baseNode, messageArm, List.range'_succ, mul_comm, hk1]
  | succ d ih =>
    obtain ⟨f, rfl⟩ : ∃ f, fuel = f + 1 := ⟨fuel - 1, by omega⟩
    have hp : 2 ^ (k + 1) = 2 * 2 ^ k := pow_succ' 2 k
    have hread := read_of_built H hb (by omega) hj
    rw [treeNode, if_neg (by omega)] at hread
    have hleft := ih (k := k + 1) (j := 2 * j) f (by omega) (by omega) (by omega)
    have hright := ih (k := k + 1) (j := 2 * j + 1) f (by omega) (by omega) (by omega)
    have hsplit : List.range' (j * 2 ^ (d + 2)) (2 ^ (d + 2)) =
        List.range' (2 * j * 2 ^ (d + 1)) (2 ^ (d + 1)) ++
          List.range' ((2 * j + 1) * 2 ^ (d + 1)) (2 ^ (d + 1)) := by
      rw [show j * 2 ^ (d + 2) = 2 * j * 2 ^ (d + 1) by ring,
        show (2 * j + 1) * 2 ^ (d + 1) = 2 * j * 2 ^ (d + 1) + 2 ^ (d + 1) by ring,
        List.range'_append_1, show 2 ^ (d + 2) = 2 ^ (d + 1) + 2 ^ (d + 1) by ring]
    rw [nodePtr] at hleft hright
    simp only [walk, hread, innerNode, Option.bind_eq_bind, Option.bind_some, if_true, hleft,
      hright, hsplit, List.map_append]

theorem getSMsgFromL0_of_built (hb : Built H mem E lA lP mp msg 0) (hE : 1 ≤ E) {L0 : LayerHp}
    (hL0 : lP[E - 1]? = some L0) (n : ℕ) :
    getSMsgFromL0 mem L0 n =
      some (if n < 2 ^ (E - 1) then ⟨mp (2 * n), mp (2 * n + 1)⟩ else ⟨none, none⟩) := by
  obtain ⟨lp, l, -, -, hP, hhold, -⟩ := hb.layer (E - 1) (Nat.zero_le _) (by omega)
  obtain rfl : l = L0 := Option.some.inj (hP.symm.trans hL0)
  by_cases hn : n < 2 ^ (E - 1)
  · have hsize : ¬ l.size ≤ n := by
      rw [hhold.size]
      omega
    have hget : l.mainPointer[n]? = some (ptrAt l.mainPointer n) :=
      getElem?_ptrAt (by rw [hhold.length]; exact hn)
    have hread := hhold.node n hn
    rw [treeNode, if_pos (by omega)] at hread
    rw [getSMsgFromL0, if_neg hsize, if_pos hn]
    simp [hget, hread, baseNode, messageArm]
  · have hsize : l.size ≤ n := by
      rw [hhold.size]
      omega
    rw [getSMsgFromL0, if_pos hsize, if_neg hn]

end Built

/-- The tree in `layers` holds the pointers of `arr`, each once and in order. The base
layer is the same behind the pointer in `ptrs` and in the copy in `layers`. -/
structure HoldsInOrder (mem : Mem) (E : ℕ) (ptrs : List Ptr) (layers : List LayerHp)
    (arr : List Ptr) : Prop where
  walk : ∀ fuel, E ≤ fuel →
    walk mem fuel 0 (nodePtr layers 0 0) = some (arr.map fun p => (p, E - 1))
  pairs : ∃ lp L0, ptrs[E - 1]? = some lp ∧ mem.layers.read lp = some L0 ∧
    layers[E - 1]? = some L0 ∧ ∀ n, getSMsgFromL0 mem L0 n =
      some (if n < 2 ^ (E - 1) then ⟨ptrAt arr (2 * n), ptrAt arr (2 * n + 1)⟩ else ⟨none, none⟩)

theorem map_ptrAt_range (arr : List Ptr) {n : ℕ} (hlen : arr.length = n) :
    (List.range n).map (ptrAt arr) = arr := by
  subst hlen
  apply List.ext_getElem?
  intro i
  by_cases hi : i < arr.length
  · rw [getElem?_ptrAt hi]
    simp [hi]
  · simp [hi]

theorem holdsInOrder_of_built (H : GenericHash) {mem : Mem} {E : ℕ} {lA : List Ptr}
    {lP : List LayerHp} {arr : List Ptr} {msg : ℕ → SignedMessage} (hE : 1 ≤ E)
    (hlen : arr.length = 2 ^ E) (hb : Built H mem E lA lP (ptrAt arr) msg 0) :
    HoldsInOrder mem E lA lP arr where
  walk := by
    intro fuel hfuel
    have hw := walk_of_built H hb (E - 1) (k := 0) (j := 0) fuel (by omega) (by norm_num)
      (by omega)
    rw [Nat.sub_add_cancel hE, zero_mul, ← List.range_eq_range'] at hw
    rw [hw]
    nth_rewrite 2 [← map_ptrAt_range arr hlen]
    rw [List.map_map]
    rfl
  pairs := by
    obtain ⟨lp, L0, hA, hread, hP, -, -⟩ := hb.layer (E - 1) (Nat.zero_le _) (by omega)
    exact ⟨lp, L0, hA, hread, hP, getSMsgFromL0_of_built H hb hE hP⟩

/-- Both drivers' layers over any array of message pointers, and the tree
`calc_merkle_tree` builds over its own array, hold every pointer once and in order. -/
theorem buildLayers_holdsInOrder (H : GenericHash) (E : ℕ) (hE : 1 ≤ E) :
    (∀ (msgArr lArrays : List Ptr) (lArraysP : List LayerHp) (mem : Mem) (msg : ℕ → SignedMessage),
      msgArr.length = 2 ^ E → lArrays.length = E → lArraysP.length = E →
      (∀ i < 2 ^ E, mem.msgs.read (ptrAt msgArr i) = some (msg i)) →
      ∃ lA lP mem', buildLayers H E msgArr lArrays lArraysP mem = some (lA, lP, mem') ∧
        HoldsInOrder mem' E lA lP msgArr) ∧
    ∀ (msgPointer : ℕ) (mem : Mem) (msg : ℕ → SignedMessage), MessagesAt mem E msgPointer msg →
      ∃ cont mem', calcMerkleTree H E msgPointer mem = some (cont, mem') ∧
        cont.messagesArr = ((List.range (2 ^ E)).map fun i => (some (msgPointer + i) : Ptr)) ∧
        cont.messagesArr.Nodup ∧
        HoldsInOrder mem' E cont.layersForDestr cont.mainLayerPointer cont.messagesArr := by
  constructor
  · intro msgArr lArrays lArraysP mem msg hlen hA hP hm
    obtain ⟨lA, lP, mem', hrun, -, hb⟩ := buildLayers_built H hE msgArr lArrays lArraysP mem
      hlen hA hP hm
    exact ⟨lA, lP, mem', hrun, holdsInOrder_of_built H hE hlen hb⟩
  · intro msgPointer mem msg hm
    obtain ⟨cont, mem', hrun, -, hb, harr⟩ := calcMerkleTree_built H hE hm
    refine ⟨cont, mem', hrun, harr, ?_, holdsInOrder_of_built H hE (by simp [harr]) hb⟩
    rw [harr]
    apply List.Nodup.map _ List.nodup_range
    intro a b hab
    simpa using hab

theorem buildLayers_holdsInOrder_at_three :
    ∃ cont mem', calcMerkleTree orHash 3 0
        (.ofMessages ((List.range (2 ^ 3)).map fun i => byteMessage (UInt8.ofNat i))) =
          some (cont, mem') ∧
      walk mem' 3 0 (nodePtr cont.mainLayerPointer 0 0) =
        some ((List.range 8).map fun i => (some i, 2)) := by
  obtain ⟨cont, mem', hrun, harr, -, hh⟩ := (buildLayers_holdsInOrder orHash 3 (by norm_num)).2 0 _
    (fun i => byteMessage (UInt8.ofNat i)) (messagesAt_ofMessages 3 _)
  refine ⟨cont, mem', hrun, ?_⟩
  rw [hh.walk 3 le_rfl, harr]
  rfl

end CBlockchain.TreeWalk
