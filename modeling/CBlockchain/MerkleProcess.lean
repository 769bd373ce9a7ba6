import CBlockchain.CalcMerkleTree
import CBlockchain.Traced

/-! `merkle_verify_message` of `merkle_process.c`. A run records every node it
addresses, every union arm it reads and the result of every `memcmp`, in the
order of the source. The verifier is studied on layers of the shape the builder
leaves, with arbitrary stored hashes and message bytes. -/
namespace CBlockchain.MerkleProcess
open Hashing Layering MerkleTree CalcMerkleTree PerfectTree

inductive VerifyEvent
  | node (layer : ℤ) (idx : ℕ)
  | messageArm (layer : ℤ) (idx : ℕ)
  | hpointArm (layer : ℤ) (idx : ℕ)
  | memcmp (rez : ℤ)
  deriving DecidableEq

section Code
variable (H : GenericHash) (mem : Mem) (layers : List LayerHp)

/-- `*(Layers_pointer[k].main_pointer[j])`; an index in front of the array faults. -/
def readNode (k : ℤ) (j : ℕ) : Traced VerifyEvent HashPoint :=
  .emit (.node k j) <| .lift do
    let l ← if k < 0 then none else layers[k.toNat]?
    let p ← l.mainPointer[j]?
    mem.nodes.read p

def readMessages (k : ℤ) (j : ℕ) (n : HashPoint) : Traced VerifyEvent (Ptr × Ptr) :=
  .emit (.messageArm k j) <| match n.body with
    | .messages smsgP1 _ smsgP2 _ => .ok (smsgP1, smsgP2)
    | .hpoints _ _ => .fault

def readHpoints (k : ℤ) (j : ℕ) (n : HashPoint) : Traced VerifyEvent (Ptr × Ptr) :=
  .emit (.hpointArm k j) <| match n.body with
    | .hpoints hpoint1 hpoint2 => .ok (hpoint1, hpoint2)
    | .messages _ _ _ _ => .fault

def memcmpHash (a b : Digest) : Traced VerifyEvent ℤ :=
  let rez := memcmp 32 a.toList b.toList
  .emit (.memcmp rez) (.ok rez)

inductive LoopExit
  | returned (value : ℤ)
  | finished (sret : ℤ)
  deriving DecidableEq

/-- The loop over the layers, `i + 1` standing for the loop index `i`. A mismatch
between a middle layer and its parent leaves the function with 1, a mismatch
below the root with 0. -/
def verifyLoop : ℕ → ℕ → ℤ → Traced VerifyEvent LoopExit
  | 0, _, sret => pure (.finished sret)
  | i + 1, req, sret => do
      let req := req >>> 1
      if i = 0 then
        let r1 ← readNode mem layers i i
        let (hpoint1, _) ← readHpoints i i r1
        let n1 ← .lift (mem.nodes.read hpoint1)
        let r2 ← readNode mem layers i i
        let (_, hpoint2) ← readHpoints i i r2
        let n2 ← .lift (mem.nodes.read hpoint2)
        let shash := merge2hashses H n1.hash n2.hash
        let top ← readNode mem layers i req
        let rez ← memcmpHash shash top.hash
        if rez = 0 then pure (.finished (sret + rez)) else pure (.returned 0)
      else
        let neighborNumber := if req % 2 = 1 then req - 1 else req + 1
        let shash ←
          if req % 2 = 1 then do
            let a ← readNode mem layers i neighborNumber
            let b ← readNode mem layers i req
            pure (merge2hashses H a.hash b.hash)
          else do
            let a ← readNode mem layers i req
            let b ← readNode mem layers i neighborNumber
            pure (merge2hashses H a.hash b.hash)
        let up ← readNode mem layers (i - 1) (req >>> 1)
        let rez ← memcmpHash shash up.hash
        if rez ≠ 0 then pure (.returned 1) else verifyLoop i req (sret + rez)

/-- `hash` is the first member of a node, so the cast in the first comparison
yields the node itself and `memcmp` reads the hash of the child it points to. -/
def merkleVerifyMessage (exponent msgNum : ℕ) : Traced VerifyEvent ℤ := do
  let req := msgNum >>> 1
  let flip := if req % 2 = 1 then 0 else 1
  let b1 ← readNode mem layers (exponent - 1) req
  let (smsgP1, _) ← readMessages (exponent - 1) req b1
  let m1 ← .lift (mem.msgs.read smsgP1)
  let b2 ← readNode mem layers (exponent - 1) req
  let (_, smsgP2) ← readMessages (exponent - 1) req b2
  let m2 ← .lift (mem.msgs.read smsgP2)
  let shash := merge2hashses H (calcHash H m1) (calcHash H m2)
  let parent ← readNode mem layers (exponent - 2) (req >>> 1)
  let (hpoint1, hpoint2) ← readHpoints (exponent - 2) (req >>> 1) parent
  let child ← .lift (mem.nodes.read (if flip = 1 then hpoint1 else hpoint2))
  let retGrLev ← memcmpHash shash child.hash
  if retGrLev ≠ 0 then pure 0
  else
    match ← verifyLoop H mem layers (exponent - 1) req 0 with
    | .returned value => pure value
    | .finished sret => pure (if sret + retGrLev = 0 then 1 else 0)

end Code

/-- Layers of the shape the builder leaves: layer `k` has `2^k` nodes, an inner node
points to its two children, a base node to its two messages. Hashes and message
bytes are arbitrary. -/
structure MerkleShape (mem : Mem) (E : ℕ) (layers : List LayerHp) (msg : ℕ → SignedMessage) :
    Prop where
  layer : ∀ k < E, ∃ l, layers[k]? = some l ∧ l.size = 2 ^ k ∧ l.mainPointer.length = 2 ^ k
  inner : ∀ k j, k + 1 < E → j < 2 ^ k → ∃ hash, mem.nodes.read (nodePtr layers k j) =
    some ⟨hash, .hpoints (nodePtr layers (k + 1) (2 * j)) (nodePtr layers (k + 1) (2 * j + 1)), 1⟩
  base : ∀ p, p < 2 ^ (E - 1) → ∃ hash p₁ h₁ p₂ h₂, mem.nodes.read (nodePtr layers (E - 1) p) =
    some ⟨hash, .messages p₁ h₁ p₂ h₂, 0⟩ ∧
    mem.msgs.read p₁ = some (msg (2 * p)) ∧ mem.msgs.read p₂ = some (msg (2 * p + 1))

/-- Hash stored in node `j` of layer `k`; zero where there is no such node. -/
def hashAt (mem : Mem) (layers : List LayerHp) (k j : ℕ) : Digest :=
  (storedHash mem layers k j).getD (Vector.replicate 32 0)

/-- Every `memcmp` of the run reports equality. -/
def AllEqual (trace : List VerifyEvent) : Prop := ∀ rez, .memcmp rez ∈ trace → rez = 0

section Shape
variable (H : GenericHash) {mem : Mem} {E : ℕ} {layers : List LayerHp} {msg : ℕ → SignedMessage}

theorem hashAt_eq {k j : ℕ} {n : HashPoint} (h : mem.nodes.read (nodePtr layers k j) = some n) :
    hashAt mem layers k j = n.hash := by
  simp [hashAt, storedHash, h]

theorem MerkleShape.readNode_eq (hs : MerkleShape mem E layers msg) {k j : ℕ} {n : HashPoint}
    (hk : k < E) (hj : j < 2 ^ k) (hn : mem.nodes.read (nodePtr layers k j) = some n) :
    readNode mem layers k j = ⟨[.node k j], some n⟩ := by
  obtain ⟨l, hl, -, hlen⟩ := hs.layer k hk
  have hp : l.mainPointer[j]? = some (ptrAt l.mainPointer j) := getElem?_ptrAt (by omega)
  rw [nodePtr, layerPtrs_eq hl] at hn
  have hk0 : ¬ ((k : ℤ) < 0) := by omega
  simp [readNode, hk0, hl, hp, hn]

theorem MerkleShape.exists_node (hs : MerkleShape mem E layers msg) {k j : ℕ}
    (hk : k < E) (hj : j < 2 ^ k) :
    ∃ n, readNode mem layers k j = ⟨[.node k j], some n⟩ ∧ n.hash = hashAt mem layers k j := by
  by_cases hb : k + 1 < E
  · obtain ⟨hash, hn⟩ := hs.inner k j hb hj
    exact ⟨_, hs.readNode_eq hk hj hn, (hashAt_eq hn).symm⟩
  · obtain rfl : k = E - 1 := by omega
    obtain ⟨hash, p₁, h₁, p₂, h₂, hn, -, -⟩ := hs.base j hj
    exact ⟨_, hs.readNode_eq hk hj hn, (hashAt_eq hn).symm⟩

theorem MerkleShape.exists_child (hs : MerkleShape mem E layers msg) {k j : ℕ}
    (hk : k < E) (hj : j < 2 ^ k) :
    ∃ n, mem.nodes.read (nodePtr layers k j) = some n ∧ n.hash = hashAt mem layers k j := by
  by_cases hb : k + 1 < E
  · obtain ⟨hash, hn⟩ := hs.inner k j hb hj
    exact ⟨_, hn, (hashAt_eq hn).symm⟩
  · obtain rfl : k = E - 1 := by omega
    obtain ⟨hash, p₁, h₁, p₂, h₂, hn, -, -⟩ := hs.base j hj
    exact ⟨_, hn, (hashAt_eq hn).symm⟩

theorem memcmpHash_eq (a b : Digest) :
    memcmpHash a b = ⟨[.memcmp (memcmp 32 a.toList b.toList)],
      some (memcmp 32 a.toList b.toList)⟩ := rfl

theorem shift_lt {x k : ℕ} (h : x < 2 ^ (k + 1)) : x >>> 1 < 2 ^ k := by
  rw [Nat.shiftRight_eq_div_pow, pow_one]
  rw [pow_succ] at h
  omega

/-- The links the middle turns of the loop check, from layer `k` upwards. -/
def MiddleLinked (mem : Mem) (layers : List LayerHp) (k x : ℕ) : Prop :=
  ∀ l < k, Linked (merge2hashses H) (hashAt mem layers) l (x / 2 ^ (k - l))

theorem middleLinked_succ {k x : ℕ} :
    MiddleLinked H mem layers (k + 1) x ↔
      Linked (merge2hashses H) (hashAt mem layers) k (x / 2) ∧
        MiddleLinked H mem layers k (x / 2) := by
  constructor
  · intro h
    refine ⟨by simpa using h k (by omega), fun l hl => ?_⟩
    have hh := h l (by omega)
    rwa [show k + 1 - l = k - l + 1 by omega, pow_succ', ← Nat.div_div_eq_div_mul] at hh
  · rintro ⟨hk, h⟩ l hl
    rcases Nat.eq_or_lt_of_le (Nat.lt_succ_iff.mp hl) with rfl | hlt
    · simpa using hk
    · have hh := h l hlt
      rwa [Nat.div_div_eq_div_mul, ← pow_succ', ← show k + 1 - l = k - l + 1 by omega] at hh

/-- Outcome of the loop over the layers, decided by the links it checks. -/
structure LoopOutcome (mem : Mem) (layers : List LayerHp) (k x : ℕ) (sret : ℤ)
    (r : Traced VerifyEvent LoopExit) : Prop where
  linked : MiddleLinked H mem layers k x → Linked (merge2hashses H) (hashAt mem layers) 0 0 →
    r.result = some (.finished sret)
  rootMismatch : MiddleLinked H mem layers k x →
    ¬ Linked (merge2hashses H) (hashAt mem layers) 0 0 → r.result = some (.returned 0)
  middleMismatch : ¬ MiddleLinked H mem layers k x → r.result = some (.returned 1)
  allEqual : AllEqual r.trace ↔
    MiddleLinked H mem layers k x ∧ Linked (merge2hashses H) (hashAt mem layers) 0 0

/-- What `memcmp` reports between node `x` of layer `k` and its merged children. -/
def linkRez (mem : Mem) (layers : List LayerHp) (k x : ℕ) : ℤ :=
  memcmp 32 (merge2hashses H (hashAt mem layers (k + 1) (2 * x))
    (hashAt mem layers (k + 1) (2 * x + 1))).toList (hashAt mem layers k x).toList

theorem linkRez_eq_zero {k x : ℕ} : linkRez H mem layers k x = 0 ↔
    Linked (merge2hashses H) (hashAt mem layers) k x := memcmp_vector _ _

theorem allEqual_append {t u : List VerifyEvent} :
    AllEqual (t ++ u) ↔ AllEqual t ∧ AllEqual u := by
  simp only [AllEqual, List.mem_append]
  exact ⟨fun h => ⟨fun r hr => h r (Or.inl hr), fun r hr => h r (Or.inr hr)⟩,
    fun h r hr => hr.elim (h.1 r) (h.2 r)⟩

theorem allEqual_memcmp {rez : ℤ} : AllEqual [.memcmp rez] ↔ rez = 0 := by
  simp [AllEqual]

theorem verifyLoop_root (hs : MerkleShape mem E layers msg) (hE : 2 ≤ E) {req : ℕ}
    (hreq : req >>> 1 = 0) (sret : ℤ) :
    LoopOutcome H mem layers 0 0 sret (verifyLoop H mem layers 1 req sret) := by
  obtain ⟨hash, hroot⟩ := hs.inner 0 0 (by omega) (by norm_num)
  obtain ⟨n1, hn1, he1⟩ := hs.exists_child (k := 1) (j := 0) (by omega) (by norm_num)
  obtain ⟨n2, hn2, he2⟩ := hs.exists_child (k := 1) (j := 1) (by omega) (by norm_num)
  have hread := hs.readNode_eq (by omega) (by norm_num) hroot
  have hh : hash = hashAt mem layers 0 0 := (hashAt_eq hroot).symm
  have hrez : memcmp 32 (merge2hashses H n1.hash n2.hash).toList hash.toList =
      linkRez H mem layers 0 0 := by
    rw [he1, he2, hh]
    rfl
  have hrun : verifyLoop H mem layers 1 req sret =
      ⟨[VerifyEvent.node 0 0, .hpointArm 0 0, .node 0 0, .hpointArm 0 0, .node 0 0] ++
        [.memcmp (linkRez H mem layers 0 0)],
        some (if linkRez H mem layers 0 0 = 0 then .finished sret else .returned 0)⟩ := by
    simp only [Nat.cast_zero, zero_add, mul_zero] at hread
    by_cases hz : linkRez H mem layers 0 0 = 0 <;>
      simp [verifyLoop, hreq, hread, readHpoints, Traced.ok, hn1, hn2, memcmpHash_eq, hrez, hz]
  have hmid : MiddleLinked H mem layers 0 0 := fun l hl => absurd hl (by omega)
  rw [hrun]
  refine ⟨fun _ hL => ?_, fun _ hL => ?_, fun h => absurd hmid h, ?_⟩
  · rw [if_pos ((linkRez_eq_zero H).mpr hL)]
  · rw [if_neg fun hz => hL ((linkRez_eq_zero H).mp hz)]
  · rw [allEqual_append, allEqual_memcmp, linkRez_eq_zero]
    simp [AllEqual, hmid]

/-- A middle turn compares a pair with its parent. Equality leads one layer up,
a mismatch out of the function with 1. -/
theorem verifyLoop_middle (hs : MerkleShape mem E layers msg) {i x req : ℕ} (hi : i + 1 < E)
    (hreq : req >>> 1 = x) (hx : x < 2 ^ (i + 1)) (sret : ℤ) :
    ∃ pre, AllEqual pre ∧ verifyLoop H mem layers (i + 2) req sret =
      if linkRez H mem layers i (x / 2) = 0 then
        ⟨pre ++ [VerifyEvent.memcmp 0] ++ (verifyLoop H mem layers (i + 1) x sret).trace,
          (verifyLoop H mem layers (i + 1) x sret).result⟩
      else ⟨pre ++ [VerifyEvent.memcmp (linkRez H mem layers i (x / 2))], some (.returned 1)⟩ := by
  have hpow : 2 ^ (i + 1) = 2 * 2 ^ i := pow_succ' 2 i
  have hhalf : x >>> 1 = x / 2 := by rw [Nat.shiftRight_eq_div_pow, pow_one]
  obtain ⟨np, hnp, hep⟩ := hs.exists_node (k := i) (j := x / 2) (by omega) (by omega)
  by_cases hpar : x % 2 = 1
  · obtain ⟨nl, hnl, hel⟩ := hs.exists_node (k := i + 1) (j := x - 1) hi (by omega)
    obtain ⟨nr, hnr, her⟩ := hs.exists_node (k := i + 1) (j := x) hi (by omega)
    have hrez : memcmp 32 (merge2hashses H nl.hash nr.hash).toList np.hash.toList =
        linkRez H mem layers i (x / 2) := by
      rw [linkRez, show 2 * (x / 2) = x - 1 by omega, show x - 1 + 1 = x by omega, hel, her, hep]
    refine ⟨[.node (i + 1 : ℕ) (x - 1), .node (i + 1 : ℕ) x, .node i (x / 2)],
      by simp [AllEqual], ?_⟩
    push_cast at hnl hnr
    split_ifs with hz
    all_goals
      rw [verifyLoop]
      simp [hreq, hhalf, hpar, hnl, hnr, hnp, memcmpHash_eq, hrez, hz]
  · obtain ⟨nl, hnl, hel⟩ := hs.exists_node (k := i + 1) (j := x) hi (by omega)
    obtain ⟨nr, hnr, her⟩ := hs.exists_node (k := i + 1) (j := x + 1) hi (by omega)
    have hrez : memcmp 32 (merge2hashses H nl.hash nr.hash).toList np.hash.toList =
        linkRez H mem layers i (x / 2) := by
      rw [linkRez, show 2 * (x / 2) = x by omega, hel, her, hep]
    refine ⟨[.node (i + 1 : ℕ) x, .node (i + 1 : ℕ) (x + 1), .node i (x / 2)],
      by simp [AllEqual], ?_⟩
    push_cast at hnl hnr
    split_ifs with hz
    all_goals
      rw [verifyLoop]
      simp [hreq, hhalf, hpar, hnl, hnr, hnp, memcmpHash_eq, hrez, hz]

theorem verifyLoop_outcome (hs : MerkleShape mem E layers msg) {i x req : ℕ} (hi : i + 1 < E)
    (hreq : req >>> 1 = x) (hx : x < 2 ^ i) (sret : ℤ) :
    LoopOutcome H mem layers i x sret (verifyLoop H mem layers (i + 1) req sret) := by
  induction i generalizing x req with
  | zero =>
    obtain rfl : x = 0 := by simpa using hx
    exact verifyLoop_root H hs (by omega) hreq sret
  | succ i ih =>
    obtain ⟨pre, hpre, hrun⟩ := verifyLoop_middle H hs (by omega) hreq hx sret
    have hhalf : x >>> 1 = x / 2 := by rw [Nat.shiftRight_eq_div_pow, pow_one]
    have hup := ih (by omega) hhalf (by rw [pow_succ'] at hx; omega)
    by_cases hL : Linked (merge2hashses H) (hashAt mem layers) i (x / 2)
    · have hm : MiddleLinked H mem layers (i + 1) x ↔ MiddleLinked H mem layers i (x / 2) := by
        rw [middleLinked_succ]
        exact and_iff_right hL
      rw [hrun, if_pos ((linkRez_eq_zero H).mpr hL)]
      refine ⟨fun h => hup.linked (hm.mp h), fun h => hup.rootMismatch (hm.mp h),
        fun h => hup.middleMismatch fun h' => h (hm.mpr h'), ?_⟩
      rw [allEqual_append, allEqual_append, hup.allEqual, hm, allEqual_memcmp]
      simp [hpre]
    · have hm : ¬ MiddleLinked H mem layers (i + 1) x := fun h => hL (middleLinked_succ H |>.mp h).1
      have hz : ¬ linkRez H mem layers i (x / 2) = 0 := fun hz => hL ((linkRez_eq_zero H).mp hz)
      rw [hrun, if_neg hz]
      refine ⟨fun h => absurd h hm, fun h => absurd h hm, fun _ => rfl, ?_⟩
      rw [allEqual_append, allEqual_memcmp]
      simp [hz, hm]

/-- The message pair of base node `r` hashes to what that node stores. -/
def BaseLinked (mem : Mem) (E : ℕ) (layers : List LayerHp) (msg : ℕ → SignedMessage) (r : ℕ) :
    Prop :=
  merge2hashses H (calcHash H (msg (2 * r))) (calcHash H (msg (2 * r + 1))) =
    hashAt mem layers (E - 1) r

/-- Everything in front of the loop: one comparison, of the recomputed pair hash
with the child of layer `E - 2` on the message's side, which is its base node. -/
theorem merkleVerifyMessage_base (hs : MerkleShape mem E layers msg) (hE : 2 ≤ E) {i r : ℕ}
    (hr : i >>> 1 = r) (hlt : r < 2 ^ (E - 1)) :
    ∃ pre rez, AllEqual pre ∧ (rez = 0 ↔ BaseLinked H mem E layers msg r) ∧
      merkleVerifyMessage H mem layers E i =
        if rez = 0 then
          ⟨pre ++ [VerifyEvent.memcmp 0] ++ (verifyLoop H mem layers (E - 1) r 0).trace,
            (verifyLoop H mem layers (E - 1) r 0).result.map fun
              | .returned value => value
              | .finished sret => if sret = 0 then 1 else 0⟩
        else ⟨pre ++ [VerifyEvent.memcmp rez], some 0⟩ := by
  obtain ⟨e, rfl⟩ : ∃ e, E = e + 2 := ⟨E - 2, by omega⟩
  have hpow : 2 ^ (e + 1) = 2 * 2 ^ e := pow_succ' 2 e
  simp only [Nat.add_succ_sub_one] at hlt ⊢
  have hhalf : r >>> 1 = r / 2 := by rw [Nat.shiftRight_eq_div_pow, pow_one]
  obtain ⟨hash, p₁, h₁, p₂, h₂, hbase, hm₁, hm₂⟩ := hs.base r hlt
  obtain ⟨phash, hparent⟩ := hs.inner e (r / 2) (by omega) (by omega)
  have hb := hs.readNode_eq (k := e + 1) (by omega) hlt hbase
  have hp := hs.readNode_eq (k := e) (by omega) (by omega) hparent
  have hchild : (if r % 2 = 0 then nodePtr layers (e + 1) (2 * (r / 2))
      else nodePtr layers (e + 1) (2 * (r / 2) + 1)) = nodePtr layers (e + 1) r := by
    split_ifs with hpar
    · rw [show 2 * (r / 2) = r by omega]
    · rw [show 2 * (r / 2) + 1 = r by omega]
  have hh : hash = hashAt mem layers (e + 1) r := (hashAt_eq hbase).symm
  obtain ⟨rez, hrez⟩ : ∃ rez, memcmp 32 (merge2hashses H (calcHash H (msg (2 * r)))
      (calcHash H (msg (2 * r + 1)))).toList hash.toList = rez := ⟨_, rfl⟩
  refine ⟨[.node (e + 1) r, .messageArm (e + 1) r, .node (e + 1) r, .messageArm (e + 1) r,
    .node e (r / 2), .hpointArm e (r / 2)], rez, by simp [AllEqual], ?_, ?_⟩
  · rw [← hrez, memcmp_vector, hh]
    rfl
  · have hc1 : ((e + 2 : ℕ) : ℤ) - 1 = (e : ℤ) + 1 := by push_cast; ring
    have hc2 : ((e + 2 : ℕ) : ℤ) - 2 = (e : ℤ) := by push_cast; ring
    push_cast at hb
    simp only [merkleVerifyMessage, hr, hc1, hc2, hhalf, hb, hp, readMessages, readHpoints,
      Nat.add_succ_sub_one] at hbase ⊢
    by_cases hz : rez = 0
    · subst hz
      rcases verifyLoop H mem layers (e + 1) r 0 with ⟨tr, _ | exit | sret⟩ <;>
        simp [Traced.ok, hm₁, hm₂, hchild, hbase, memcmpHash_eq, hrez]
    · simp [Traced.ok, hm₁, hm₂, hchild, hbase, memcmpHash_eq, hrez, hz]

end Shape
end CBlockchain.MerkleProcess
