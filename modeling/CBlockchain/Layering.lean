import CBlockchain.Hashing

/-! Merkle nodes and layers: the data model of `hashing.h` and `layering.h`, the
node constructors of `hashing.c` and the layer builders of `layering.c`. Nodes,
layers and messages live behind pointers; a null or foreign pointer makes the
builder fault. -/
namespace CBlockchain
open Hashing

/-- The union in `hash_point`: base nodes carry the message arm, all others the
pair of child pointers. -/
inductive NodeBody
  | messages (smsgP1 : Ptr) (hashMSG1 : Digest) (smsgP2 : Ptr) (hashMSG2 : Digest)
  | hpoints (hpoint1 hpoint2 : Ptr)
  deriving DecidableEq

structure HashPoint where
  hash : Digest
  body : NodeBody
  FLAG0 : ℕ
  deriving DecidableEq

/-- `layer_hp`, with the pointer array behind `main_pointer`. -/
structure LayerHp where
  mainPointer : List Ptr
  size : ℕ
  level : ℕ
  deriving DecidableEq

/-- The memory a tree is built in. `hashed` records the input of every call of
`crypto_generichash` made while building. -/
structure Mem where
  msgs : Heap SignedMessage
  nodes : Heap HashPoint
  layers : Heap LayerHp
  hashed : List (List UInt8)

namespace Mem

def newNode (mem : Mem) (n : HashPoint) (inputs : List (List UInt8)) : Ptr × Mem :=
  ((mem.nodes.alloc n).1,
    { mem with nodes := (mem.nodes.alloc n).2, hashed := mem.hashed ++ inputs })

def newLayer (mem : Mem) (l : LayerHp) : Ptr × Mem :=
  ((mem.layers.alloc l).1, { mem with layers := (mem.layers.alloc l).2 })

/-- What building may do to memory: messages stay as they are, cells are only added. -/
structure Extends (mem mem' : Mem) : Prop where
  msgs : mem'.msgs = mem.msgs
  nodes : mem.nodes.Extends mem'.nodes
  layers : mem.layers.Extends mem'.layers
  hashed : mem.hashed ⊆ mem'.hashed

theorem Extends.refl (mem : Mem) : mem.Extends mem :=
  ⟨rfl, .refl _, .refl _, List.Subset.refl _⟩

theorem Extends.trans {m₁ m₂ m₃ : Mem} (h12 : m₁.Extends m₂) (h23 : m₂.Extends m₃) :
    m₁.Extends m₃ :=
  ⟨h23.msgs.trans h12.msgs, h12.nodes.trans h23.nodes, h12.layers.trans h23.layers,
    List.Subset.trans h12.hashed h23.hashed⟩

theorem newNode_extends (mem : Mem) (n : HashPoint) (inputs : List (List UInt8)) :
    mem.Extends (mem.newNode n inputs).2 :=
  ⟨rfl, Heap.alloc_extends _ _, .refl _, List.subset_append_left _ _⟩

theorem newLayer_extends (mem : Mem) (l : LayerHp) : mem.Extends (mem.newLayer l).2 :=
  ⟨rfl, .refl _, Heap.alloc_extends _ _, List.Subset.refl _⟩

end Mem

namespace Layering
variable (H : GenericHash)

/-- Base node over two messages; the source stores both message pointers and hashes. -/
def createHpointMessage (sMsg1 sMsg2 : Ptr) (mem : Mem) : Option (Ptr × Mem) := do
  let m1 ← mem.msgs.read sMsg1
  let m2 ← mem.msgs.read sMsg2
  let hashMsg1 := calcHash H m1
  let hashMsg2 := calcHash H m2
  some (mem.newNode
    ⟨merge2hashses H hashMsg1 hashMsg2, .messages sMsg1 hashMsg1 sMsg2 hashMsg2, 0⟩
    [m1.bytes, m2.bytes, hashS hashMsg1 hashMsg2])

def createHpointHashG (hp1 hp2 : Ptr) (mem : Mem) : Option (Ptr × Mem) := do
  let n1 ← mem.nodes.read hp1
  let n2 ← mem.nodes.read hp2
  some (mem.newNode ⟨merge2hashses H n1.hash n2.hash, .hpoints hp1 hp2, 1⟩
    [hashS n1.hash n2.hash])

def levelLoop (n level : ℕ) : ℕ :=
  if n >>> 1 = 0 then level else levelLoop (n >>> 1) (level + 1)
termination_by n
decreasing_by
  simp only [Nat.shiftRight_eq_div_pow, pow_one] at *
  omega

/-- The loop both layer builders run: `remaining` nodes from the pairs at
`i, i+1`, `i+2, i+3`, … of `start`. -/
def pairLoop (create : Ptr → Ptr → Mem → Option (Ptr × Mem)) (start : List Ptr) :
    ℕ → ℕ → Mem → Option (List Ptr × Mem)
  | 0, _, mem => some ([], mem)
  | remaining + 1, i, mem => do
      let p1 ← start[i]?
      let p2 ← start[i + 1]?
      let (p, mem) ← create p1 p2 mem
      let (ps, mem) ← pairLoop create start remaining (i + 2) mem
      some (p :: ps, mem)

/-- Returns the layer and the halved counter behind `size_d_layer`. Only the root
branch records a level; the other one leaves the zero of `calloc`. -/
def createAHLayer (sizeDLayer : ℕ) (startHpointr : List Ptr) (mem : Mem) :
    Option (Ptr × ℕ × Mem) :=
  let size := sizeDLayer >>> 1
  let level := levelLoop size 0
  if size = 1 then do
    let hp1 ← startHpointr[0]?
    let hp2 ← startHpointr[1]?
    let (begPointer, mem) ← createHpointHashG H hp1 hp2 mem
    let (aLayer, mem) := mem.newLayer ⟨[begPointer], size, level⟩
    some (aLayer, size, mem)
  else do
    let (begPointer, mem) ← pairLoop (createHpointHashG H) startHpointr size 0 mem
    let (aLayer, mem) := mem.newLayer ⟨begPointer, size, 0⟩
    some (aLayer, size, mem)

def processSMessagesV2 (sMsgN : ℕ) (starMsg : List Ptr) (mem : Mem) : Option (Ptr × Mem) := do
  let size := sMsgN >>> 1
  let (begPointer, mem) ← pairLoop (createHpointMessage H) starMsg size 0 mem
  some (mem.newLayer ⟨begPointer, size, levelLoop size 0⟩)

/-- The loop of `fill_intermediate_levels`, `k + 1` being the number of layers
still to build and `k` the value of the signed loop index. -/
def fillLoop : ℕ → ℕ → List Ptr → List LayerHp → Mem → Option (List Ptr × List LayerHp × Mem)
  | 0, _, lArrays, lArraysP, mem => some (lArrays, lArraysP, mem)
  | k + 1, nMsg, lArrays, lArraysP, mem => do
      let above ← lArrays[k + 1]?
      let aboveLayer ← mem.layers.read above
      let (layer, nMsg, mem) ← createAHLayer H nMsg aboveLayer.mainPointer mem
      let copy ← mem.layers.read layer
      fillLoop k nMsg (lArrays.set k layer) (lArraysP.set k copy) mem

def fillIntermediateLevels (msgExpt nMsg : ℕ) (lArrays : List Ptr) (lArraysP : List LayerHp)
    (mem : Mem) : Option (List Ptr × List LayerHp × Mem) :=
  fillLoop H (msgExpt - 1) nMsg lArrays lArraysP mem

/-- A pointer read from an array; outside the array it is null. -/
def ptrAt (ps : List Ptr) (i : ℕ) : Ptr := (ps[i]?).join

/-- The layer stores `n` pointers, the `t`-th of which leads to `node t`. -/
structure HoldsLayer (mem : Mem) (l : LayerHp) (n : ℕ) (node : ℕ → HashPoint) : Prop where
  size : l.size = n
  length : l.mainPointer.length = n
  node : ∀ t < n, mem.nodes.read (ptrAt l.mainPointer t) = some (node t)

theorem ptrAt_eq {ps : List Ptr} {i : ℕ} {p : Ptr} (h : ps[i]? = some p) : ptrAt ps i = p := by
  simp [ptrAt, h]

theorem getElem?_ptrAt {ps : List Ptr} {i : ℕ} (h : i < ps.length) :
    ps[i]? = some (ptrAt ps i) := by
  simp [ptrAt, List.getElem?_eq_getElem h]

theorem levelLoop_two_pow (k level : ℕ) : levelLoop (2 ^ k) level = level + k := by
  induction k generalizing level with
  | zero => simp [levelLoop]
  | succ k ih =>
    have hs : 2 ^ (k + 1) >>> 1 = 2 ^ k := by
      rw [Nat.shiftRight_eq_div_pow, pow_succ]
      simp
    rw [levelLoop, hs, if_neg (by positivity), ih]
    omega

/-- If creating from the `t`-th pair adds one known node whatever was added to
memory before, the loop adds these nodes in order. -/
theorem pairLoop_spec {create : Ptr → Ptr → Mem → Option (Ptr × Mem)} {start : List Ptr}
    {n i : ℕ} {mem : Mem} {node : ℕ → HashPoint} {inputs : ℕ → List (List UInt8)}
    (hlen : i + 2 * n ≤ start.length)
    (hc : ∀ t < n, ∀ mem', mem.Extends mem' →
      create (ptrAt start (i + 2 * t)) (ptrAt start (i + 2 * t + 1)) mem' =
        some (mem'.newNode (node t) (inputs t))) :
    ∃ ps mem', pairLoop create start n i mem = some (ps, mem') ∧ mem.Extends mem' ∧
      ps.length = n ∧ (∀ t < n, mem'.nodes.read (ptrAt ps t) = some (node t)) ∧
      ∀ t < n, inputs t ⊆ mem'.hashed := by
  induction n generalizing i mem node inputs with
  | zero => exact ⟨[], mem, rfl, .refl _, rfl, by simp, by simp⟩
  | succ n ih =>
    let mem₁ := (mem.newNode (node 0) (inputs 0)).2
    have he₁ : mem.Extends mem₁ := mem.newNode_extends _ _
    have hfirst := hc 0 (by omega) mem (.refl _)
    obtain ⟨ps, mem', hrun, he, hl, hn, hi⟩ := @ih (i + 2) mem₁
      (fun t => node (t + 1)) (fun t => inputs (t + 1)) (by omega) (by
        intro t ht m hm
        have hh := hc (t + 1) (by omega) m (he₁.trans hm)
        rwa [show i + 2 * (t + 1) = i + 2 + 2 * t by ring] at hh)
    refine ⟨(mem.newNode (node 0) (inputs 0)).1 :: ps, mem', ?_, he₁.trans he, by simp [hl], ?_, ?_⟩
    · have h0 : start[i]? = some (ptrAt start i) := getElem?_ptrAt (by omega)
      have h1 : start[i + 1]? = some (ptrAt start (i + 1)) := getElem?_ptrAt (by omega)
      simp only [Nat.mul_zero, Nat.add_zero] at hfirst
      simp only [pairLoop, h0, h1, hfirst, Option.bind_eq_bind, Option.bind_some]
      exact congrArg (fun o => Option.bind o _) hrun
    · intro t ht
      cases t with
      | zero => exact he.nodes _ _ (Heap.read_alloc_self _ _)
      | succ t => simpa [ptrAt] using hn t (by omega)
    · intro t ht
      cases t with
      | zero =>
        apply List.Subset.trans _ he.hashed
        exact List.subset_append_right _ _
      | succ t => exact hi t (by omega)

/-- Node `t` of the base layer over the messages `msg` at `mp`. -/
def baseNode (mp : ℕ → Ptr) (msg : ℕ → SignedMessage) (t : ℕ) : HashPoint :=
  ⟨merge2hashses H (calcHash H (msg (2 * t))) (calcHash H (msg (2 * t + 1))),
    .messages (mp (2 * t)) (calcHash H (msg (2 * t)))
      (mp (2 * t + 1)) (calcHash H (msg (2 * t + 1))), 0⟩

/-- Node `t` of a layer above one whose nodes sit at `start` and store `hash`. -/
def innerNode (start : List Ptr) (hash : ℕ → Digest) (t : ℕ) : HashPoint :=
  ⟨merge2hashses H (hash (2 * t)) (hash (2 * t + 1)),
    .hpoints (ptrAt start (2 * t)) (ptrAt start (2 * t + 1)), 1⟩

theorem processSMessagesV2_spec {n : ℕ} {starMsg : List Ptr} {mem : Mem}
    {msg : ℕ → SignedMessage} (hlen : 2 * n ≤ starMsg.length)
    (hm : ∀ i < 2 * n, mem.msgs.read (ptrAt starMsg i) = some (msg i)) :
    ∃ lp l mem', processSMessagesV2 H (2 * n) starMsg mem = some (lp, mem') ∧
      mem.Extends mem' ∧ mem'.layers.read lp = some l ∧
      HoldsLayer mem' l n (baseNode H (ptrAt starMsg) msg) ∧ l.level = levelLoop n 0 ∧
      ∀ t < n, (msg (2 * t)).bytes ∈ mem'.hashed ∧ (msg (2 * t + 1)).bytes ∈ mem'.hashed ∧
        hashS (calcHash H (msg (2 * t))) (calcHash H (msg (2 * t + 1))) ∈ mem'.hashed := by
  have hs : (2 * n) >>> 1 = n := by rw [Nat.shiftRight_eq_div_pow]; omega
  have hcreate : ∀ t < n, ∀ mem', mem.Extends mem' →
      createHpointMessage H (ptrAt starMsg (0 + 2 * t)) (ptrAt starMsg (0 + 2 * t + 1)) mem' =
        some (mem'.newNode (baseNode H (ptrAt starMsg) msg t) [(msg (2 * t)).bytes,
          (msg (2 * t + 1)).bytes,
          hashS (calcHash H (msg (2 * t))) (calcHash H (msg (2 * t + 1)))]) := by
    intro t ht m hext
    have h0 := hm (2 * t) (by omega)
    have h1 := hm (2 * t + 1) (by omega)
    rw [← hext.msgs] at h0 h1
    simp [createHpointMessage, baseNode, h0, h1]
  obtain ⟨ps, mem₁, hrun, he, hl, hn, hi⟩ := pairLoop_spec (i := 0) (by omega) hcreate
  let l : LayerHp := ⟨ps, n, levelLoop n 0⟩
  have hext := mem₁.newLayer_extends l
  refine ⟨(mem₁.newLayer l).1, l, (mem₁.newLayer l).2, ?_, he.trans hext,
    Heap.read_alloc_self _ _, ⟨rfl, hl, fun t ht => hext.nodes _ _ (hn t ht)⟩, rfl, ?_⟩
  · simp [processSMessagesV2, hs, hrun, l]
  · intro t ht
    have hsub := List.Subset.trans (hi t ht) hext.hashed
    exact ⟨hsub (by simp), hsub (by simp), hsub (by simp)⟩

theorem createHpointMessage_reads {p1 p2 : Ptr} {mem mem' : Mem} {p : Ptr}
    (h : createHpointMessage H p1 p2 mem = some (p, mem')) :
    (∃ m, mem.msgs.read p1 = some m) ∧ (∃ m, mem.msgs.read p2 = some m) ∧
      mem'.msgs = mem.msgs := by
  simp only [createHpointMessage, Option.bind_eq_bind, Option.bind_eq_some_iff,
    Option.some.injEq] at h
  obtain ⟨m1, h1, m2, h2, hnew⟩ := h
  exact ⟨⟨m1, h1⟩, ⟨m2, h2⟩, congrArg (fun r => r.2.msgs) hnew.symm⟩

theorem pairLoop_reads (start : List Ptr) (n : ℕ) : ∀ (i : ℕ) (mem : Mem) (r : List Ptr × Mem),
    pairLoop (createHpointMessage H) start n i mem = some r →
      ∀ j < 2 * n, ∃ m, mem.msgs.read (ptrAt start (i + j)) = some m := by
  induction n with
  | zero =>
    intro i mem r _ j hj
    omega
  | succ n ih =>
    intro i mem r h j hj
    simp only [pairLoop, Option.bind_eq_bind, Option.bind_eq_some_iff] at h
    obtain ⟨p1, h1, p2, h2, ⟨p, mem₁⟩, hcreate, ⟨ps, mem₂⟩, hrest, -⟩ := h
    obtain ⟨hm1, hm2, hmsgs⟩ := createHpointMessage_reads H hcreate
    have hrest' := ih (i + 2) mem₁ _ hrest
    rw [hmsgs] at hrest'
    rcases j with _ | _ | j
    · rw [Nat.add_zero, ptrAt_eq h1]
      exact hm1
    · rw [zero_add, ptrAt_eq h2]
      exact hm2
    · rw [show i + (j + 1 + 1) = i + 2 + j by omega]
      exact hrest' j (by omega)

/-- Every message of a base layer that was built could be read. -/
theorem processSMessagesV2_reads {n : ℕ} {starMsg : List Ptr} {mem : Mem} {r : Ptr × Mem}
    (h : processSMessagesV2 H (2 * n) starMsg mem = some r) :
    ∀ i < 2 * n, ∃ m, mem.msgs.read (ptrAt starMsg i) = some m := by
  have hs : (2 * n) >>> 1 = n := by rw [Nat.shiftRight_eq_div_pow]; omega
  simp only [processSMessagesV2, hs, Option.bind_eq_bind, Option.bind_eq_some_iff] at h
  obtain ⟨r', hloop, -⟩ := h
  intro i hi
  simpa using pairLoop_reads H starMsg n 0 mem r' hloop i hi

/-- Both branches of `create_a_h_layer` build the nodes the loop builds; they
differ in the recorded level only. -/
theorem createAHLayer_eq (sizeDLayer : ℕ) (start : List Ptr) (mem : Mem) :
    createAHLayer H sizeDLayer start mem =
      (pairLoop (createHpointHashG H) start (sizeDLayer >>> 1) 0 mem).map fun r =>
        let n := sizeDLayer >>> 1
        let l := r.2.newLayer ⟨r.1, n, if n = 1 then levelLoop n 0 else 0⟩
        (l.1, n, l.2) := by
  by_cases h1 : sizeDLayer >>> 1 = 1
  · simp only [createAHLayer, h1, pairLoop, if_true, Option.bind_eq_bind, zero_add]
    rcases start[0]? with _ | p1
    · rfl
    rcases start[1]? with _ | p2
    · rfl
    simp only [Option.bind_some]
    rcases createHpointHashG H p1 p2 mem with _ | r <;> rfl
  · simp only [createAHLayer, h1, if_false, Option.bind_eq_bind]
    rcases pairLoop (createHpointHashG H) start (sizeDLayer >>> 1) 0 mem with _ | r <;> rfl

theorem createAHLayer_spec {n : ℕ} {start : List Ptr} {mem : Mem} {below : ℕ → HashPoint}
    (hlen : 2 * n ≤ start.length)
    (hb : ∀ i < 2 * n, mem.nodes.read (ptrAt start i) = some (below i)) :
    ∃ lp l mem', createAHLayer H (2 * n) start mem = some (lp, n, mem') ∧
      mem.Extends mem' ∧ mem'.layers.read lp = some l ∧
      HoldsLayer mem' l n (innerNode H start fun i => (below i).hash) ∧
      l.level = (if n = 1 then levelLoop n 0 else 0) ∧
      ∀ t < n, hashS (below (2 * t)).hash (below (2 * t + 1)).hash ∈ mem'.hashed := by
  have hs : (2 * n) >>> 1 = n := by rw [Nat.shiftRight_eq_div_pow]; omega
  have hcreate : ∀ t < n, ∀ mem', mem.Extends mem' →
      createHpointHashG H (ptrAt start (0 + 2 * t)) (ptrAt start (0 + 2 * t + 1)) mem' =
        some (mem'.newNode (innerNode H start (fun i => (below i).hash) t)
          [hashS (below (2 * t)).hash (below (2 * t + 1)).hash]) := by
    intro t ht m hext
    have h0 := hext.nodes _ _ (hb (2 * t) (by omega))
    have h1 := hext.nodes _ _ (hb (2 * t + 1) (by omega))
    simp [createHpointHashG, innerNode, h0, h1]
  obtain ⟨ps, mem₁, hrun, he, hl, hn, hi⟩ := pairLoop_spec (i := 0) (by omega) hcreate
  let l : LayerHp := ⟨ps, n, if n = 1 then levelLoop n 0 else 0⟩
  have hext := mem₁.newLayer_extends l
  refine ⟨(mem₁.newLayer l).1, l, (mem₁.newLayer l).2, ?_, he.trans hext,
    Heap.read_alloc_self _ _, ⟨rfl, hl, fun t ht => hext.nodes _ _ (hn t ht)⟩, rfl, ?_⟩
  · rw [createAHLayer_eq, hs, hrun]
    rfl
  · intro t ht
    exact List.Subset.trans (hi t ht) hext.hashed (by simp)

end Layering
end CBlockchain
