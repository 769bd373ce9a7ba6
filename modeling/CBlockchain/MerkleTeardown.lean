import CBlockchain.CalcMerkleTree
import CBlockchain.ConnectionHandlers
import CBlockchain.Release

/-! `destoroy_a_layer`, and what it leaves of a tree. A tree owns the layers it stores and the
nodes these point to, all created while it was built; destroying its layers gives back each
of them once, so that memory reads as it did before the tree. -/
namespace CBlockchain.MerkleTeardown
open Hashing Heap Layering MerkleTree CalcMerkleTree

section Code

/-- The loop over `main_pointer` from `i` on. -/
def freeLoop (mainPointer : List Ptr) : ℕ → ℕ → Heap HashPoint → Option (Heap HashPoint)
  | 0, _, nodes => some nodes
  | remaining + 1, i, nodes => do
    let hpoint ← mainPointer[i]?
    let nodes ← nodes.release hpoint
    freeLoop mainPointer remaining (i + 1) nodes

/-- The array behind `main_pointer` goes with the layer it belongs to. -/
def destoroyALayer (someLayer : Ptr) (mem : Mem) : Option Mem := do
  let layer ← mem.layers.read someLayer
  let nodes ← freeLoop layer.mainPointer layer.size 0 mem.nodes
  let layers ← mem.layers.release someLayer
  some { mem with nodes := nodes, layers := layers }

/-- The loop over the layers, from the root down. -/
def destroyLayers (lArrays : List Ptr) (mem : Mem) : Option Mem :=
  lArrays.foldlM (fun mem someLayer => destoroyALayer someLayer mem) mem

end Code

theorem freeLoop_eq (ps : List Ptr) (n : ℕ) : ∀ (i : ℕ) (nodes : Heap HashPoint),
    i + n = ps.length → freeLoop ps n i nodes = releaseAll (ps.drop i) nodes := by
  induction n with
  | zero =>
    intro i nodes hi
    rw [List.drop_eq_nil_of_le (by omega)]
    rfl
  | succ n ih =>
    intro i nodes hi
    have hlt : i < ps.length := by omega
    rw [List.drop_eq_getElem_cons hlt, releaseAll_cons, freeLoop, List.getElem?_eq_getElem hlt]
    simp only [Option.bind_eq_bind, Option.bind_some]
    apply congrArg
    funext nodes'
    exact ih (i + 1) nodes' (by omega)

/-- The nodes that a stored layer points to. -/
def layerNodes (layers : Heap LayerHp) (lp : Ptr) : List Ptr :=
  match layers.read lp with
  | none => []
  | some l => l.mainPointer

/-- The layer is there and records as many nodes as it points to. -/
def Stored (layers : Heap LayerHp) (lp : Ptr) : Prop :=
  ∃ l, layers.read lp = some l ∧ l.size = l.mainPointer.length

theorem destoroyALayer_eq {lp : Ptr} {mem : Mem} (h : Stored mem.layers lp) :
    destoroyALayer lp mem = (releaseAll (layerNodes mem.layers lp) mem.nodes).map fun nodes =>
      { mem with nodes := nodes, layers := mem.layers.free lp } := by
  obtain ⟨l, hl, hsize⟩ := h
  simp only [destoroyALayer, hl, layerNodes, Option.bind_eq_bind, Option.bind_some,
    release_live hl]
  rw [freeLoop_eq _ _ _ _ (by omega), List.drop_zero]
  rcases releaseAll l.mainPointer mem.nodes with _ | nodes <;> rfl

/-- Destroying layers one after the other is giving back all their nodes and then the layers
themselves. -/
theorem destroyLayers_eq {lps : List Ptr} : ∀ {mem : Mem}, lps.Nodup →
    (∀ lp ∈ lps, Stored mem.layers lp) → destroyLayers lps mem =
      (releaseAll (lps.flatMap (layerNodes mem.layers)) mem.nodes).bind fun nodes =>
        (releaseAll lps mem.layers).map fun layers =>
          { mem with nodes := nodes, layers := layers } := by
  induction lps with
  | nil => exact fun _ _ => rfl
  | cons lp lps ih =>
    intro mem hnodup hstored
    obtain ⟨hnot, hnodup⟩ := List.nodup_cons.mp hnodup
    have hkept : ∀ q ∈ lps, (mem.layers.free lp).read q = mem.layers.read q := by
      intro q hq
      rw [read_free, if_neg fun heq : q = lp => hnot (heq ▸ hq)]
    have hnodes : lps.flatMap (layerNodes (mem.layers.free lp)) =
        lps.flatMap (layerNodes mem.layers) := by
      apply List.flatMap_congr
      intro q hq
      rw [layerNodes, layerNodes, hkept q hq]
    obtain ⟨l, hl, -⟩ := hstored lp List.mem_cons_self
    have hrest : ∀ nodes, destroyLayers lps { mem with nodes := nodes, layers := mem.layers.free lp } =
        (releaseAll (lps.flatMap (layerNodes mem.layers)) nodes).bind fun nodes =>
          (releaseAll lps (mem.layers.free lp)).map fun layers =>
            { mem with nodes := nodes, layers := layers } := by
      intro nodes
      rw [← hnodes]
      apply ih hnodup
      intro q hq
      obtain ⟨l', hl', hsize⟩ := hstored q (List.mem_cons_of_mem lp hq)
      exact ⟨l', (hkept q hq).trans hl', hsize⟩
    rw [List.flatMap_cons, releaseAll_append, releaseAll_cons, release_live hl, Option.bind_some]
    change (destoroyALayer lp mem).bind (destroyLayers lps) = _
    rw [destoroyALayer_eq (hstored lp List.mem_cons_self)]
    rcases releaseAll (layerNodes mem.layers lp) mem.nodes with _ | nodes
    · rfl
    · exact hrest nodes

/-- The layers at `lps` were created after `mem₀`, in this order, and their nodes are the
nodes created since. -/
structure Owned (mem₀ mem : Mem) (lps : List Ptr) : Prop where
  msgs : mem.msgs = mem₀.msgs
  layers : Grown mem₀.layers mem.layers lps
  nodes : Grown mem₀.nodes mem.nodes (lps.flatMap (layerNodes mem.layers))
  stored : ∀ lp ∈ lps, Stored mem.layers lp

theorem Owned.refl (mem : Mem) : Owned mem mem [] := by
  refine ⟨rfl, .refl _, .refl _, fun lp hlp => absurd hlp List.not_mem_nil⟩

/-- Destroying all layers of a tree, in any order. -/
theorem Owned.destroy {mem₀ mem : Mem} {lps qs : List Ptr} (h : Owned mem₀ mem lps)
    (hperm : qs.Perm lps) : ∃ mem', destroyLayers qs mem = some mem' ∧ mem'.msgs = mem₀.msgs ∧
      (∀ p, mem'.nodes.read p = mem₀.nodes.read p) ∧
      ∀ p, mem'.layers.read p = mem₀.layers.read p := by
  obtain ⟨nodes, hnodes, hread⟩ := h.nodes.releaseAll (hperm.flatMap_right (layerNodes mem.layers))
  obtain ⟨layers, hlayers, hread'⟩ := h.layers.releaseAll hperm
  refine ⟨{ mem with nodes := nodes, layers := layers }, ?_, h.msgs, hread, hread'⟩
  rw [destroyLayers_eq (hperm.nodup_iff.mpr h.layers.nodup)
    fun lp hlp => h.stored lp (hperm.mem_iff.mp hlp), hnodes, Option.bind_some, hlayers,
    Option.map_some]

section Building
variable (H : GenericHash) {mem₀ mem mem' : Mem} {lps : List Ptr}

/-- Creating a node adds one node and touches nothing else. -/
def CreatesNode (create : Ptr → Ptr → Mem → Option (Ptr × Mem)) : Prop :=
  ∀ p1 p2 mem p mem', create p1 p2 mem = some (p, mem') →
    ∃ n inputs, (p, mem') = mem.newNode n inputs

theorem createHpointMessage_creates : CreatesNode (createHpointMessage H) := by
  intro p1 p2 mem p mem' h
  simp only [createHpointMessage, Option.bind_eq_bind, Option.bind_eq_some_iff,
    Option.some.injEq] at h
  obtain ⟨m1, -, m2, -, hnew⟩ := h
  exact ⟨_, _, hnew.symm⟩

theorem createHpointHashG_creates : CreatesNode (createHpointHashG H) := by
  intro p1 p2 mem p mem' h
  simp only [createHpointHashG, Option.bind_eq_bind, Option.bind_eq_some_iff,
    Option.some.injEq] at h
  obtain ⟨n1, -, n2, -, hnew⟩ := h
  exact ⟨_, _, hnew.symm⟩

theorem pairLoop_grown {create : Ptr → Ptr → Mem → Option (Ptr × Mem)}
    (hcreate : CreatesNode create) (start : List Ptr) (n : ℕ) : ∀ {i : ℕ} {mem mem' : Mem}
      {ps : List Ptr}, pairLoop create start n i mem = some (ps, mem') →
        ps.length = n ∧ Grown mem.nodes mem'.nodes ps ∧ mem'.layers = mem.layers ∧
          mem'.msgs = mem.msgs := by
  induction n with
  | zero =>
    intro i mem mem' ps h
    simp only [pairLoop, Option.some.injEq, Prod.mk.injEq] at h
    obtain ⟨rfl, rfl⟩ := h
    exact ⟨rfl, .refl _, rfl, rfl⟩
  | succ n ih =>
    intro i mem mem' ps h
    simp only [pairLoop, Option.bind_eq_bind, Option.bind_eq_some_iff, Option.some.injEq,
      Prod.mk.injEq, Prod.exists] at h
    obtain ⟨p1, -, p2, -, p, mem₁, hfirst, qs, mem₂, hrest, rfl, rfl⟩ := h
    obtain ⟨node, inputs, hnew⟩ := hcreate _ _ _ _ _ hfirst
    simp only [Mem.newNode, Prod.mk.injEq] at hnew
    obtain ⟨rfl, rfl⟩ := hnew
    obtain ⟨hlen, hgrown, hlayers, hmsgs⟩ := ih hrest
    refine ⟨by rw [List.length_cons, hlen], ?_, hlayers, hmsgs⟩
    exact (Grown.alloc mem.nodes node).trans hgrown

/-- A layer over nodes created just before it joins the tree. -/
theorem Owned.newLayer {ps : List Ptr} {n : ℕ} (h : Owned mem₀ mem lps) (level : ℕ)
    (hlen : ps.length = n) (hgrown : Grown mem.nodes mem'.nodes ps)
    (hlayers : mem'.layers = mem.layers) (hmsgs : mem'.msgs = mem.msgs) :
    Owned mem₀ (mem'.newLayer ⟨ps, n, level⟩).2 (lps ++ [(mem'.newLayer ⟨ps, n, level⟩).1]) := by
  have hlayer := Grown.alloc mem'.layers ⟨ps, n, level⟩
  have hself := read_alloc_self mem'.layers ⟨ps, n, level⟩
  have hkept : ∀ lp ∈ lps, (mem'.layers.alloc ⟨ps, n, level⟩).2.read lp = mem.layers.read lp := by
    intro lp hlp
    obtain ⟨l, hl, -⟩ := h.stored lp hlp
    rw [hl, hlayers]
    exact alloc_extends _ _ _ _ hl
  have hnodes : lps.flatMap (layerNodes (mem'.layers.alloc ⟨ps, n, level⟩).2) =
      lps.flatMap (layerNodes mem.layers) := by
    apply List.flatMap_congr
    intro lp hlp
    rw [layerNodes, layerNodes, hkept lp hlp]
  refine ⟨hmsgs.trans h.msgs, ?_, ?_, ?_⟩
  · rw [hlayers] at hlayer
    simpa only [Mem.newLayer, hlayers] using h.layers.trans hlayer
  · simp only [Mem.newLayer, List.flatMap_append, hnodes, List.flatMap_singleton]
    rw [show layerNodes (mem'.layers.alloc ⟨ps, n, level⟩).2
      (mem'.layers.alloc ⟨ps, n, level⟩).1 = ps by rw [layerNodes, hself]]
    exact h.nodes.trans hgrown
  · intro lp hlp
    rcases List.mem_append.mp hlp with hlp | hlp
    · obtain ⟨l, hl, hsize⟩ := h.stored lp hlp
      exact ⟨l, (hkept lp hlp).trans hl, hsize⟩
    · rw [List.mem_singleton.mp hlp]
      exact ⟨_, hself, hlen.symm⟩

theorem processSMessagesV2_owned {n : ℕ} {starMsg : List Ptr} {lp : Ptr}
    (h : processSMessagesV2 H n starMsg mem = some (lp, mem')) : Owned mem mem' [lp] := by
  simp only [processSMessagesV2, Option.bind_eq_bind, Option.bind_eq_some_iff, Option.some.injEq,
    Prod.exists] at h
  obtain ⟨ps, mem₁, hloop, hnew⟩ := h
  obtain ⟨hlen, hgrown, hlayers, hmsgs⟩ := pairLoop_grown (createHpointMessage_creates H) _ _ hloop
  have howned := (Owned.refl mem).newLayer (levelLoop (n >>> 1) 0) hlen hgrown hlayers hmsgs
  rw [hnew] at howned
  exact howned

theorem createAHLayer_owned {n n' : ℕ} {start : List Ptr} {lp : Ptr} (h : Owned mem₀ mem lps)
    (hrun : createAHLayer H n start mem = some (lp, n', mem')) : Owned mem₀ mem' (lps ++ [lp]) := by
  rw [createAHLayer_eq, Option.map_eq_some_iff] at hrun
  obtain ⟨⟨ps, mem₁⟩, hloop, hnew⟩ := hrun
  simp only [Prod.mk.injEq] at hnew
  obtain ⟨rfl, -, rfl⟩ := hnew
  obtain ⟨hlen, hgrown, hlayers, hmsgs⟩ := pairLoop_grown (createHpointHashG_creates H) _ _ hloop
  exact h.newLayer _ hlen hgrown hlayers hmsgs

/-- The array fills from its end, so it lists the layers from the newest to the oldest. -/
theorem fillLoop_owned (k : ℕ) : ∀ {nMsg : ℕ} {lA lA' : List Ptr} {lP lP' : List LayerHp}
    {mem mem' : Mem} {lps : List Ptr}, fillLoop H k nMsg lA lP mem = some (lA', lP', mem') →
      Owned mem₀ mem lps → k ≤ lA.length → lA.drop k = lps.reverse →
      ∃ lps', Owned mem₀ mem' lps' ∧ lA' = lps'.reverse := by
  induction k with
  | zero =>
    intro nMsg lA lA' lP lP' mem mem' lps h howned hk hdrop
    simp only [fillLoop, Option.some.injEq, Prod.mk.injEq] at h
    obtain ⟨rfl, rfl, rfl⟩ := h
    exact ⟨lps, howned, hdrop⟩
  | succ k ih =>
    intro nMsg lA lA' lP lP' mem mem' lps h howned hk hdrop
    simp only [fillLoop, Option.bind_eq_bind, Option.bind_eq_some_iff, Prod.exists] at h
    obtain ⟨above, -, aboveLayer, -, lp, nMsg', mem₁, hcreate, copy, -, hrest⟩ := h
    apply ih hrest (createAHLayer_owned H howned hcreate)
    · rw [List.length_set]
      omega
    · rw [List.drop_eq_getElem_cons (by rw [List.length_set]; omega), List.getElem_set_self,
        List.drop_set_of_lt (by omega), hdrop, List.reverse_append]
      rfl

/-- The layers of a tree, in the order of the array, are all that building it created. -/
theorem buildLayers_owned {E : ℕ} {msgArr lA lA' : List Ptr} {lP lP' : List LayerHp}
    (hE : 1 ≤ E) (hA : lA.length = E)
    (h : buildLayers H E msgArr lA lP mem = some (lA', lP', mem')) :
    ∃ lps, Owned mem mem' lps ∧ lA' = lps.reverse := by
  simp only [buildLayers, fillIntermediateLevels, Option.bind_eq_bind, Option.bind_eq_some_iff,
    Prod.exists] at h
  obtain ⟨base, mem₁, hbase, copy, -, hfill⟩ := h
  apply fillLoop_owned H (E - 1) hfill (processSMessagesV2_owned H hbase)
  · rw [List.length_set]
    omega
  · rw [List.drop_eq_getElem_cons (by rw [List.length_set]; omega), List.getElem_set_self,
      List.drop_eq_nil_of_le (by rw [List.length_set]; omega)]
    rfl

/-- The tree that is built, and what it owns. -/
theorem buildLayers_owns {E : ℕ} {msgArr : List Ptr} {msg : ℕ → SignedMessage}
    (hE : 1 ≤ E) (hlen : msgArr.length = 2 ^ E)
    (hm : ∀ i < 2 ^ E, mem.msgs.read (ptrAt msgArr i) = some (msg i)) : ∃ lA lP mem₁ lps,
    buildLayers H E msgArr (List.replicate E none) (List.replicate E ⟨[], 0, 0⟩) mem =
      some (lA, lP, mem₁) ∧ Built H mem₁ E lA lP (ptrAt msgArr) msg 0 ∧ Owned mem mem₁ lps ∧
      lA.Perm lps := by
  obtain ⟨lA, lP, mem₁, hbuild, -, hbuilt⟩ := buildLayers_built H hE msgArr
    (List.replicate E none) (List.replicate E ⟨[], 0, 0⟩) mem hlen List.length_replicate
    List.length_replicate hm
  obtain ⟨lps, howned, hlA⟩ := buildLayers_owned H hE List.length_replicate hbuild
  refine ⟨lA, lP, mem₁, lps, hbuild, hbuilt, howned, ?_⟩
  rw [hlA]
  exact lps.reverse_perm

theorem buildLayers_of_calcMerkleTree {E msgPointer : ℕ} {cont : LMsgContainer}
    (h : calcMerkleTree H E msgPointer mem = some (cont, mem')) : 1 ≤ E ∧
      buildLayers H E cont.messagesArr (List.replicate E none) (List.replicate E ⟨[], 0, 0⟩) mem =
        some (cont.layersForDestr, cont.mainLayerPointer, mem') := by
  rw [calcMerkleTree] at h
  split at h
  · cases h
  · rename_i hE
    refine ⟨Nat.one_le_iff_ne_zero.mpr hE, ?_⟩
    simp only [Option.bind_eq_bind, Option.bind_eq_some_iff, Option.some.injEq, Prod.mk.injEq,
      Prod.exists] at h
    obtain ⟨base, mem₁, hbase, copy, hcopy, lA, lP, mem₂, hfill, rfl, rfl⟩ := h
    simp [buildLayers, hbase, hcopy, hfill]

/-- Whatever a tree was built from and whatever memory held before: destroying its layers
gives back all of it and nothing else. -/
theorem calcMerkleTree_destroyed {E msgPointer : ℕ} {cont : LMsgContainer}
    (h : calcMerkleTree H E msgPointer mem = some (cont, mem')) :
    ∃ mem'', destroyLayers cont.layersForDestr mem' = some mem'' ∧ mem''.msgs = mem.msgs ∧
      (∀ p, mem''.nodes.read p = mem.nodes.read p) ∧
      ∀ p, mem''.layers.read p = mem.layers.read p := by
  obtain ⟨hE, hbuild⟩ := buildLayers_of_calcMerkleTree H h
  obtain ⟨lps, howned, harr⟩ := buildLayers_owned H hE List.length_replicate hbuild
  apply howned.destroy
  rw [harr]
  exact lps.reverse_perm

theorem calcMerkleTree_destroyed_at_three : ∃ cont mem' mem'',
    calcMerkleTree orHash 3 0
      (.ofMessages ((List.range (2 ^ 3)).map fun i => byteMessage (UInt8.ofNat i))) =
        some (cont, mem') ∧
    destroyLayers cont.layersForDestr mem' = some mem'' ∧ ∀ p, mem''.nodes.read p = none := by
  obtain ⟨cont, mem', hrun, -⟩ := calcMerkleTree_built orHash (E := 3) (by norm_num)
    (messagesAt_ofMessages 3 fun i => byteMessage (UInt8.ofNat i))
  obtain ⟨mem'', hdestroy, -, hnodes, -⟩ := calcMerkleTree_destroyed orHash hrun
  refine ⟨cont, mem', mem'', hrun, hdestroy, fun p => ?_⟩
  rw [hnodes]
  cases p <;> simp [Mem.ofMessages, Heap.empty, Heap.read]

end Building

section Server
variable (H : GenericHash)

/-- The server's `calc_merkle_tree` with the memory it works in: the root it prints, and what
is left once the layers are destroyed. -/
def serverCalcMerkleTree (msgPointer : List Ptr) (mem : Mem) : Option (Digest × Mem) := do
  let exponent := 9
  let nMsg := 1 <<< exponent
  let msgArr := (List.range nMsg).map (ptrAt msgPointer)
  let (lArrays, _, mem) ← buildLayers H exponent msgArr (List.replicate exponent none)
    (List.replicate exponent ⟨[], 0, 0⟩) mem
  let top ← mem.layers.read (ptrAt lArrays 0)
  let node ← mem.nodes.read (ptrAt top.mainPointer 0)
  let mem ← destroyLayers lArrays mem
  some (node.hash, mem)

variable {H} {ps : List Ptr} {mem mem' : Mem} {hash : Digest}

theorem serverCalcMerkleTree_reads (h : serverCalcMerkleTree H ps mem = some (hash, mem')) :
    ∀ i < 512, ∃ m, mem.msgs.read (ptrAt ps i) = some m := by
  have hshift : (1 <<< 9 : ℕ) = 2 * 256 := rfl
  simp only [serverCalcMerkleTree, buildLayers, hshift, Option.bind_eq_bind,
    Option.bind_eq_some_iff] at h
  obtain ⟨-, ⟨base, hbase, -⟩, -⟩ := h
  intro i hi
  have hptr : ptrAt ((List.range (2 * 256)).map (ptrAt ps)) i = ptrAt ps i :=
    ptrAt_eq (by rw [List.getElem?_map, List.getElem?_range hi, Option.map_some])
  obtain ⟨m, hm⟩ := processSMessagesV2_reads H hbase i hi
  rw [hptr] at hm
  exact ⟨m, hm⟩

theorem serverCalcMerkleTree_root {msg : ℕ → SignedMessage}
    (hm : ∀ i < 512, mem.msgs.read (ptrAt ps i) = some (msg i)) :
    ∃ mem', serverCalcMerkleTree H ps mem =
        some (PerfectTree.root (calcHash H) (merge2hashses H) 9 msg, mem') ∧
      mem'.msgs = mem.msgs ∧ (∀ p, mem'.nodes.read p = mem.nodes.read p) ∧
      ∀ p, mem'.layers.read p = mem.layers.read p := by
  let msgArr := (List.range (2 ^ 9)).map (ptrAt ps)
  have harr : ∀ i < 2 ^ 9, ptrAt msgArr i = ptrAt ps i := fun i hi =>
    ptrAt_eq (by rw [List.getElem?_map, List.getElem?_range hi, Option.map_some])
  obtain ⟨lA, lP, mem₁, lps, hrun, hb, howned, hperm⟩ :=
    @buildLayers_owns H mem 9 msgArr msg (by norm_num)
      (by rw [List.length_map, List.length_range])
      (fun i hi => by rw [harr i hi]; exact hm i (by simpa using hi))
  obtain ⟨mem', hdestroy, hmsgs, hnodes, hlayers⟩ := howned.destroy hperm
  obtain ⟨lp, l, hA, hread, -, hhold, -⟩ := hb.layer 0 le_rfl (by norm_num)
  have hnode := hhold.node 0 (by norm_num)
  have hhash := treeNode_hash H (E := 9) (k := 0) (by norm_num) lP (ptrAt msgArr) msg 0
  rw [referenceHash_zero] at hhash
  have hshift : (1 <<< 9 : ℕ) = 2 ^ 9 := rfl
  refine ⟨mem', ?_, hmsgs, hnodes, hlayers⟩
  simp only [serverCalcMerkleTree, Option.bind_eq_bind, hshift]
  rw [hrun, Option.bind_some]
  simp only
  rw [ptrAt_eq hA, hread, Option.bind_some, hnode, Option.bind_some, hdestroy, Option.bind_some,
    hhash]

theorem serverCalcMerkleTree_eq_none (h : ¬ ∀ i < 512, ∃ m, mem.msgs.read (ptrAt ps i) = some m) :
    serverCalcMerkleTree H ps mem = none := by
  rw [Option.eq_none_iff_forall_ne_some]
  intro r hr
  exact h (serverCalcMerkleTree_reads hr)

/-- Over 512 readable messages the server's tree returns the reference root, with one that
cannot be read it faults, and so does the handler model; when it returns, memory is as it was
found. -/
theorem serverCalcMerkleTree_restores (H : GenericHash) (ps : List Ptr) (mem : Mem) :
    (∀ msg : ℕ → SignedMessage, (∀ i < 512, mem.msgs.read (ptrAt ps i) = some (msg i)) →
      ∃ mem', serverCalcMerkleTree H ps mem =
        some (PerfectTree.root (calcHash H) (merge2hashses H) 9 msg, mem')) ∧
    (∀ i < 512, mem.msgs.read (ptrAt ps i) = none → serverCalcMerkleTree H ps mem = none) ∧
    (serverCalcMerkleTree H ps mem).map Prod.fst =
      ConnectionHandlers.calcMerkleTree H ps mem.msgs ∧
    ∀ r, serverCalcMerkleTree H ps mem = some r → r.2.msgs = mem.msgs ∧
      (∀ p, r.2.nodes.read p = mem.nodes.read p) ∧
      ∀ p, r.2.layers.read p = mem.layers.read p := by
  refine ⟨?_, ?_, ?_⟩
  · intro msg hmsg
    obtain ⟨mem', hrun, -⟩ := serverCalcMerkleTree_root (H := H) hmsg
    exact ⟨mem', hrun⟩
  · intro i hi hnone
    apply serverCalcMerkleTree_eq_none
    intro hall
    obtain ⟨m, hm⟩ := hall i hi
    rw [hnone] at hm
    cases hm
  by_cases hall : ∀ i < 512, ∃ m, mem.msgs.read (ptrAt ps i) = some m
  · obtain ⟨m₀, -⟩ := hall 0 (by norm_num)
    have : Nonempty SignedMessage := ⟨m₀⟩
    choose! msg hmsg using hall
    obtain ⟨mem', hrun, hrest⟩ := serverCalcMerkleTree_root (H := H) hmsg
    refine ⟨?_, fun r hr => ?_⟩
    · rw [hrun, ConnectionHandlers.calcMerkleTree_eq H hmsg, Option.map_some]
    · obtain rfl : _ = r := Option.some.inj (hrun.symm.trans hr)
      exact hrest
  · have hnone := serverCalcMerkleTree_eq_none (H := H) hall
    have hnone' : ConnectionHandlers.calcMerkleTree H ps mem.msgs = none := by
      rw [Option.eq_none_iff_forall_ne_some]
      intro hash hhash
      exact hall (ConnectionHandlers.calcMerkleTree_reads H hhash)
    refine ⟨by rw [hnone, hnone']; rfl, fun r hr => ?_⟩
    rw [hnone] at hr
    cases hr

end Server
end CBlockchain.MerkleTeardown
