import CBlockchain.SignedBlocks
import CBlockchain.VerifyMessages

/-! The tests of the repository that build trees (`tests.c`), as functions of the random texts
and of what the libraries compute. Each gives back all the memory it takes; the positive ones
return 0 whatever was drawn, the negative one exactly if the message it swaps in changes the
hash of its pair. -/
namespace CBlockchain.MerkleTests
open CalcMerkleTree DataHandlers Hashing Heap Layering MerkleTeardown MerkleTree MerkleVerdict
open SignedBlocks Tampering VerifyMessages

section Code
variable (H : GenericHash) (src : MessageSource) (signOpen : SignOpen) (uk : UserKeys)

/-- `ls_get_a_signed_msg(uk)`, called for the `n`-th time. -/
def lsGetASignedMsg (n : ℕ) : SignedMessage := src.signAMessage (src.text n).toList uk

/-- The loop that fills `msg_arr` and validates each message; the sum of the verdicts. -/
def fillMessages : ℕ → Heap SignedMessage → Option (List Ptr × ℕ × Heap SignedMessage)
  | 0, msgs => some ([], 0, msgs)
  | remaining + 1, msgs => do
    let (msg, msgs) := msgs.alloc (lsGetASignedMsg src uk msgs.cells.length)
    let sigmsg ← msgs.read msg
    let rez ← validateAMessage signOpen sigmsg uk.pk
    let (msgArr, total, msgs) ← fillMessages remaining msgs
    some (msg :: msgArr, rez + total, msgs)

def destroyMessages (msgArr : List Ptr) (msgs : Heap SignedMessage) :
    Option (Heap SignedMessage) := msgArr.foldlM destroySignedMessage msgs

/-- `memcpy` of the message `wrong` over the bytes of another. -/
def copyOver (wrong : SignedMessage) (i : ℕ) (old : UInt8) : UInt8 :=
  if i < wrong.length then wrong.message.getD i 0 else old

/-- The first message of a base node gets the bytes of `wrong_message`. -/
def wreckMessage (exponent node : ℕ) (wrongMessage : Ptr) (lArraysP : List LayerHp) (mem : Mem) :
    Option Mem := do
  let hpoint ← mem.nodes.read (nodePtr lArraysP (exponent - 1) node)
  let wrong ← mem.msgs.read wrongMessage
  match hpoint.body with
  | .messages smsgP1 _ _ _ =>
    let sigmsg ← mem.msgs.read smsgP1
    if sigmsg.message.length < wrong.length then none
    else smsgP1.map fun a => tamper mem a (copyOver wrong)
  | .hpoints _ _ => none

/-- What the two proof tests share: the verdicts of all messages must sum up to `expected`. -/
def proofTest (exponent : ℕ) (wreck : Ptr → List LayerHp → Mem → Option Mem) (expected : ℤ)
    (mem : Mem) : Option (ℕ × Mem) := do
  let (wrongMessage, msgs) := mem.msgs.alloc (lsGetASignedMsg src uk mem.msgs.cells.length)
  let (msgArr, _, msgs) ← fillMessages src signOpen uk (1 <<< exponent) msgs
  let (lArrays, lArraysP, mem) ← buildLayers H exponent msgArr (List.replicate exponent none)
    (List.replicate exponent ⟨[], 0, 0⟩) { mem with msgs := msgs }
  let mem ← wreck wrongMessage lArraysP mem
  let verResult ← verifyMessages H mem lArraysP exponent (1 <<< exponent) 0 0
  let mem ← destroyLayers lArrays mem
  let msgs ← destroyMessages msgArr mem.msgs
  let msgs ← destroySignedMessage msgs wrongMessage
  some (if verResult ≠ expected then 1 else 0, { mem with msgs := msgs })

def testMekrleProofRIGHT : Mem → Option (ℕ × Mem) :=
  proofTest H src signOpen uk 9 (fun _ _ mem => some mem) (1 <<< 9)

def testMekrleProofWRONG : Mem → Option (ℕ × Mem) :=
  proofTest H src signOpen uk 14 (wreckMessage 14 125) (125 * 2)

/-- Create a tree and clean it up. With exponent 0 the base layer has no place. -/
def createTestMessages (exponent : ℕ) (mem : Mem) : Option (ℕ × Mem) :=
  if exponent = 0 then none else do
  let (msgArr, _, msgs) ← fillMessages src signOpen uk (1 <<< exponent) mem.msgs
  let (lArrays, _, mem) ← buildLayers H exponent msgArr (List.replicate exponent none)
    (List.replicate exponent ⟨[], 0, 0⟩) { mem with msgs := msgs }
  let mem ← destroyLayers lArrays mem
  let msgs ← destroyMessages msgArr mem.msgs
  some (0, { mem with msgs := msgs })

def testProcessMessagesL1V2 (mem : Mem) : Option (ℕ × Mem) := do
  let nMsg := 1 <<< 5
  let (msgArr, rez, msgs) ← fillMessages src signOpen uk nMsg mem.msgs
  let (rootLayer, mem) ← processSMessagesV2 H nMsg msgArr { mem with msgs := msgs }
  let mem ← destoroyALayer rootLayer mem
  let msgs ← destroyMessages msgArr mem.msgs
  some (if rez = nMsg then 0 else 1, { mem with msgs := msgs })

def testMessageCreationAndValidation (mem : Mem) : Option (ℕ × Mem) := do
  let (msgArr, rez, msgs) ← fillMessages src signOpen uk 512 mem.msgs
  let msgs ← destroyMessages msgArr msgs
  some (if rez = 512 then 0 else 1, { mem with msgs := msgs })

end Code

/-- Memory reads as before. -/
structure Restored (mem mem' : Mem) : Prop where
  msgs : ∀ p, mem'.msgs.read p = mem.msgs.read p
  nodes : ∀ p, mem'.nodes.read p = mem.nodes.read p
  layers : ∀ p, mem'.layers.read p = mem.layers.read p

section Messages
variable {src : MessageSource} {signOpen : SignOpen} {uk : UserKeys} {msgs : Heap SignedMessage}

@[simp] theorem length_lsGetASignedMsg (n : ℕ) : (lsGetASignedMsg src uk n).length = 164 := by
  simp [lsGetASignedMsg, MessageSource.signAMessage]

/-- The verdict on the `n`-th message. -/
def Validates (src : MessageSource) (signOpen : SignOpen) (uk : UserKeys) (n : ℕ) : Prop :=
  signOpen (lsGetASignedMsg src uk n).bytes uk.pk = true

theorem validate_lsGetASignedMsg (n : ℕ) :
    validateAMessage signOpen (lsGetASignedMsg src uk n) uk.pk =
      some (if signOpen (lsGetASignedMsg src uk n).bytes uk.pk then 1 else 0) := by
  rw [validateAMessage, if_neg (by simp)]

/-- What the filling loop leaves. -/
structure Filled (src : MessageSource) (uk : UserKeys) (n : ℕ) (msgs msgs' : Heap SignedMessage)
    (msgArr : List Ptr) : Prop where
  length : msgArr.length = n
  grown : Grown msgs msgs' msgArr
  read : ∀ i < n, msgs'.read (ptrAt msgArr i) =
    some (lsGetASignedMsg src uk (msgs.cells.length + i))

theorem Filled.cons {n : ℕ} {msgs' : Heap SignedMessage} {msgArr : List Ptr}
    (h : Filled src uk n (msgs.alloc (lsGetASignedMsg src uk msgs.cells.length)).2 msgs' msgArr) :
    Filled src uk (n + 1) msgs msgs'
      ((msgs.alloc (lsGetASignedMsg src uk msgs.cells.length)).1 :: msgArr) where
  length := by rw [List.length_cons, h.length]
  grown := (Grown.alloc msgs _).trans h.grown
  read := by
    intro i hi
    rcases i with _ | i
    · exact h.grown.keeps _ _ (read_alloc_self msgs _)
    · have hlen : (msgs.alloc (lsGetASignedMsg src uk msgs.cells.length)).2.cells.length =
          msgs.cells.length + 1 := by simp [alloc]
      have hread := h.read i (by omega)
      rw [hlen, Nat.add_assoc, Nat.add_comm 1] at hread
      exact hread

theorem Filled.ptr {n i : ℕ} {msgs' : Heap SignedMessage} {msgArr : List Ptr}
    (h : Filled src uk n msgs msgs' msgArr) (hi : i < n) :
    ptrAt msgArr i = some (msgs.cells.length + i) := by
  apply ptrAt_eq
  rw [h.grown.ptrs, List.getElem?_map, List.getElem?_range (by rw [h.length]; exact hi),
    Option.map_some]

theorem fillMessages_spec (n : ℕ) : ∀ msgs : Heap SignedMessage, ∃ msgArr total msgs',
    fillMessages src signOpen uk n msgs = some (msgArr, total, msgs') ∧
      Filled src uk n msgs msgs' msgArr ∧ total ≤ n ∧
      (total = n ↔ ∀ i < n, Validates src signOpen uk (msgs.cells.length + i)) := by
  induction n with
  | zero =>
    intro msgs
    refine ⟨[], 0, msgs, rfl, ⟨rfl, .refl msgs, ?_⟩, le_rfl, by simp⟩
    exact fun i hi => absurd hi (Nat.not_lt_zero i)
  | succ n ih =>
    intro msgs
    obtain ⟨msgArr, total, msgs', hrun, hfilled, hle, htotal⟩ :=
      ih (msgs.alloc (lsGetASignedMsg src uk msgs.cells.length)).2
    have hlen : (msgs.alloc (lsGetASignedMsg src uk msgs.cells.length)).2.cells.length =
        msgs.cells.length + 1 := by simp [alloc]
    rw [hlen] at htotal
    have hsplit : (∀ i < n + 1, Validates src signOpen uk (msgs.cells.length + i)) ↔
        Validates src signOpen uk msgs.cells.length ∧
          ∀ i < n, Validates src signOpen uk (msgs.cells.length + 1 + i) := by
      rw [Nat.forall_lt_succ_left]
      simp only [Nat.add_zero, Nat.add_assoc, Nat.add_comm 1]
    refine ⟨_, (if signOpen (lsGetASignedMsg src uk msgs.cells.length).bytes uk.pk then 1 else 0) +
      total, msgs', ?_, hfilled.cons, ?_, ?_⟩
    · simp only [fillMessages, read_alloc_self, validate_lsGetASignedMsg, hrun,
        Option.bind_eq_bind, Option.bind_some]
    · split <;> omega
    · rw [hsplit, ← htotal, Validates]
      split
      · rename_i hvalid
        simp only [hvalid, true_and]
        omega
      · rename_i hvalid
        simp only [hvalid, Bool.false_eq_true, false_and, iff_false]
        omega

theorem destroyMessages_eq {ps : List Ptr} (hne : none ∉ ps) (msgs : Heap SignedMessage) :
    destroyMessages ps msgs = releaseAll ps msgs := by
  induction ps generalizing msgs with
  | nil => rfl
  | cons p ps ih =>
    have hp : p ≠ none := fun heq => hne (heq ▸ List.mem_cons_self)
    rw [releaseAll_cons, release, if_neg hp]
    change (destroySignedMessage msgs p).bind (destroyMessages ps) = _
    rw [destroySignedMessage]
    apply congrArg
    funext msgs'
    exact ih (fun hmem => hne (List.mem_cons_of_mem p hmem)) msgs'

theorem destroyMessages_append_singleton (ps : List Ptr) (p : Ptr) (msgs : Heap SignedMessage) :
    destroyMessages (ps ++ [p]) msgs =
      (destroyMessages ps msgs).bind fun msgs => destroySignedMessage msgs p := by
  simp [destroyMessages, List.foldlM_append]

theorem destroyMessages_grown {msgs msgs' : Heap SignedMessage} {ps qs : List Ptr}
    (g : Grown msgs msgs' ps) (hperm : qs.Perm ps) :
    ∃ msgs'', destroyMessages qs msgs' = some msgs'' ∧ ∀ p, msgs''.read p = msgs.read p := by
  rw [destroyMessages_eq]
  · exact g.releaseAll hperm
  · intro hmem
    obtain ⟨t, -, ht⟩ := g.mem_iff.mp (hperm.mem_iff.mp hmem)
    cases ht

end Messages

section Teardown
variable {mem mem₁ : Mem} {lps lA : List Ptr}

theorem destroyLayers_singleton (lp : Ptr) (mem : Mem) :
    destroyLayers [lp] mem = destoroyALayer lp mem := by
  simp [destroyLayers]

/-- Destroying the layers, whatever the messages were overwritten with. -/
theorem destroyLayers_restores (howned : Owned mem mem₁ lps) (hperm : lA.Perm lps)
    (msgs : Heap SignedMessage) :
    ∃ mem₂, destroyLayers lA { mem₁ with msgs := msgs } = some mem₂ ∧ mem₂.msgs = msgs ∧
      (∀ p, mem₂.nodes.read p = mem.nodes.read p) ∧
      ∀ p, mem₂.layers.read p = mem.layers.read p := by
  have howned' : Owned { mem with msgs := msgs } { mem₁ with msgs := msgs } lps :=
    ⟨rfl, howned.layers, howned.nodes, howned.stored⟩
  exact howned'.destroy hperm

end Teardown

section Proofs
variable (H : GenericHash) (src : MessageSource) (signOpen : SignOpen) (uk : UserKeys) (mem : Mem)

/-- Message `i` of the tree of a proof test; `wrong_message` was drawn before all of them. -/
def treeMsg (i : ℕ) : SignedMessage := lsGetASignedMsg src uk (mem.msgs.cells.length + (i + 1))

/-- The tree of a proof test before its messages are verified. -/
structure Standing (E : ℕ) (mem₁ : Mem) (wrongMessage : Ptr) (msgArr lA : List Ptr)
    (lP : List LayerHp) : Prop where
  filled : Filled src uk (2 ^ E + 1) mem.msgs mem₁.msgs (wrongMessage :: msgArr)
  built : Built H mem₁ E lA lP (ptrAt msgArr) (treeMsg src uk mem) 0

variable {H src uk mem} {E : ℕ} {wreck : Ptr → List LayerHp → Mem → Option Mem} {expected : ℤ}

/-- Whatever `wreck` writes over the messages, the test gives back all memory and compares
twice the number of the first changed pair. -/
theorem proofTest_spec (hE : 2 ≤ E) {msg' : ℕ → SignedMessage}
    (hwreck : ∀ {mem₁ wrongMessage msgArr lA lP}, Standing H src uk mem E mem₁ wrongMessage msgArr
      lA lP → ∃ msgs, wreck wrongMessage lP mem₁ = some { mem₁ with msgs := msgs } ∧
        Grown mem.msgs msgs (wrongMessage :: msgArr) ∧
        ∀ i < 2 ^ E, msgs.read (ptrAt msgArr i) = some (msg' i)) :
    ∃ mem', ∃ c : ℕ, proofTest H src signOpen uk E wreck expected mem =
        some (if (c : ℤ) ≠ expected then 1 else 0, mem') ∧ Restored mem mem' ∧
      FirstChange (fun p => pairHash H msg' p ≠ pairHash H (treeMsg src uk mem) p) E c := by
  have hshift : (1 <<< E : ℕ) = 2 ^ E := by rw [Nat.shiftLeft_eq, one_mul]
  obtain ⟨msgArr, total, msgs₁, hfill, hfilled, -⟩ :=
    @fillMessages_spec src signOpen uk (2 ^ E)
      (mem.msgs.alloc (lsGetASignedMsg src uk mem.msgs.cells.length)).2
  have hall := hfilled.cons
  obtain ⟨lA, lP, mem₁, lps, hbuild, hbuilt, howned, hperm⟩ :=
    @buildLayers_owns H { mem with msgs := msgs₁ } E msgArr (treeMsg src uk mem) (by omega)
      hfilled.length (fun i hi => hall.read (i + 1) (by omega))
  have hmsgs : mem₁.msgs = msgs₁ := howned.msgs
  have hstanding : Standing H src uk mem E mem₁
      (mem.msgs.alloc (lsGetASignedMsg src uk mem.msgs.cells.length)).1 msgArr lA lP :=
    ⟨hmsgs ▸ hall, hbuilt⟩
  obtain ⟨msgs₂, hwrecked, hgrown, hread⟩ := hwreck hstanding
  obtain ⟨c, hverify, hfirst⟩ := verifyMessages_of_built H hE (Built.withMsgs H hbuilt msgs₂) hread
  obtain ⟨mem₂, hdestroy, hmsgs₂, hnodes, hlayers⟩ := destroyLayers_restores howned hperm msgs₂
  obtain ⟨msgs₃, hfree, hrestored⟩ :=
    destroyMessages_grown hgrown (List.perm_append_singleton (mem.msgs.alloc _).1 msgArr)
  rw [destroyMessages_append_singleton, ← hmsgs₂, Option.bind_eq_some_iff] at hfree
  obtain ⟨msgs', hfree, hwrong⟩ := hfree
  refine ⟨{ mem₂ with msgs := msgs₃ }, c, ?_, ⟨hrestored, hnodes, hlayers⟩, hfirst⟩
  simp only [proofTest, hshift, Option.bind_eq_bind]
  rw [hfill, Option.bind_some]
  simp only
  rw [hbuild, Option.bind_some]
  simp only
  rw [hwrecked, Option.bind_some, hverify, Option.bind_some, hdestroy, Option.bind_some, hfree,
    Option.bind_some]
  rw [hwrong, Option.bind_some]

/-- Nothing is written over the messages of the positive test: it passes whatever was drawn. -/
theorem testMekrleProofRIGHT_passes (H : GenericHash) (src : MessageSource) (signOpen : SignOpen)
    (uk : UserKeys) (mem : Mem) : ∃ mem',
      testMekrleProofRIGHT H src signOpen uk mem = some (0, mem') ∧ Restored mem mem' := by
  obtain ⟨mem', c, hrun, hrestored, hfirst⟩ := @proofTest_spec H src signOpen uk mem 9
    (fun _ _ mem => some mem) (1 <<< 9) (by norm_num) (treeMsg src uk mem) (by
      intro mem₁ wrongMessage msgArr lA lP hs
      exact ⟨mem₁.msgs, rfl, hs.filled.grown, fun i hi => hs.filled.read (i + 1) (by omega)⟩)
  have hc : c = 2 ^ 9 := by
    rcases hfirst with ⟨hc, -⟩ | ⟨p, -, -, hchanged, -⟩
    · exact hc
    · exact absurd rfl hchanged
  refine ⟨mem', ?_, hrestored⟩
  rw [testMekrleProofRIGHT, hrun, hc, if_neg (by decide)]

theorem bytes_copyOver {wrong m : SignedMessage} (hlen : m.length = wrong.length)
    (hfull : m.message.length = wrong.length) :
    (m.overwrite (copyOver wrong)).bytes = wrong.bytes := by
  have hle := wrong.length_le
  apply List.ext_getElem?
  intro i
  rw [SignedMessage.bytes, SignedMessage.bytes, List.getElem?_take, List.getElem?_take]
  change (if i < m.length then (m.message.mapIdx (copyOver wrong))[i]? else none) = _
  rw [hlen]
  by_cases hi : i < wrong.length
  · rw [if_pos hi, if_pos hi, List.getElem?_mapIdx, List.getElem?_eq_getElem (by omega),
      List.getElem?_eq_getElem (by omega)]
    simp [copyOver, hi, List.getD_eq_getElem?_getD,
      List.getElem?_eq_getElem (by omega : i < wrong.message.length)]
  · rw [if_neg hi, if_neg hi]

/-- The bytes of `wrong_message` get to the first message of the node and nowhere else. -/
theorem wreckMessage_spec (hE : 1 ≤ E) {mem₁ : Mem} {wrongMessage : Ptr} {msgArr lA : List Ptr}
    {lP : List LayerHp} {node : ℕ} (hnode : node < 2 ^ (E - 1))
    (hs : Standing H src uk mem E mem₁ wrongMessage msgArr lA lP) :
    ∃ msgs, wreckMessage E node wrongMessage lP mem₁ = some { mem₁ with msgs := msgs } ∧
      Grown mem.msgs msgs (wrongMessage :: msgArr) ∧
      ∀ i < 2 ^ E, msgs.read (ptrAt msgArr i) = some (tampered (treeMsg src uk mem) (2 * node)
        (copyOver (lsGetASignedMsg src uk mem.msgs.cells.length)) i) := by
  have hp : 2 ^ E = 2 * 2 ^ (E - 1) := by rw [← pow_succ', Nat.sub_add_cancel hE]
  have hptr : ∀ i < 2 ^ E, ptrAt msgArr i = some (mem.msgs.cells.length + (i + 1)) := fun i hi =>
    hs.filled.ptr (by omega : i + 1 < 2 ^ E + 1)
  have hread : ∀ i < 2 ^ E, mem₁.msgs.read (some (mem.msgs.cells.length + (i + 1))) =
      some (treeMsg src uk mem i) := fun i hi => by
    rw [← hptr i hi]
    exact hs.filled.read (i + 1) (by omega)
  obtain ⟨lp, l, -, -, hP, hhold, -⟩ := hs.built.layer (E - 1) (Nat.zero_le _) (by omega)
  have hpoint : mem₁.nodes.read (nodePtr lP (E - 1) node) =
      some (baseNode H (ptrAt msgArr) (treeMsg src uk mem) node) := by
    rw [nodePtr, layerPtrs_eq hP, hhold.node node hnode, treeNode, if_pos (by omega)]
  have hwrong : mem₁.msgs.read wrongMessage =
      some (lsGetASignedMsg src uk mem.msgs.cells.length) := hs.filled.read 0 (by omega)
  refine ⟨(tamper mem₁ (mem.msgs.cells.length + (2 * node + 1)) (copyOver
    (lsGetASignedMsg src uk mem.msgs.cells.length))).msgs, ?_, ?_, ?_⟩
  · simp only [wreckMessage, hpoint, hwrong, baseNode, Option.bind_eq_bind, Option.bind_some]
    rw [hptr (2 * node) (by omega), hread (2 * node) (by omega), Option.bind_some,
      if_neg (by simp [treeMsg, lsGetASignedMsg, MessageSource.signAMessage]), Option.map_some]
    rfl
  · exact hs.filled.grown.modify (hs.filled.grown.mem_iff.mpr
      ⟨2 * node + 1, by rw [hs.filled.length]; omega, rfl⟩) _
  · intro i hi
    rw [hptr i hi]
    by_cases him : i = 2 * node
    · subst him
      rw [read_tamper_self, hread _ hi, tampered, Function.update_self]
      rfl
    · rw [read_tamper_of_ne _ (by omega), hread i hi, tampered, Function.update_of_ne him]

/-- The negative test passes exactly if the swapped message changes the hash of its pair. -/
theorem testMekrleProofWRONG_passes_iff (H : GenericHash) (src : MessageSource)
    (signOpen : SignOpen) (uk : UserKeys) (mem : Mem) : ∃ r mem',
      testMekrleProofWRONG H src signOpen uk mem = some (r, mem') ∧ Restored mem mem' ∧
      (r = 0 ↔ merge2hashses H (calcHash H (lsGetASignedMsg src uk mem.msgs.cells.length))
          (calcHash H (treeMsg src uk mem 251)) ≠
        merge2hashses H (calcHash H (treeMsg src uk mem 250))
          (calcHash H (treeMsg src uk mem 251))) := by
  have hnode : 125 < 2 ^ (14 - 1) := by norm_num
  obtain ⟨mem', c, hrun, hrestored, hfirst⟩ := @proofTest_spec H src signOpen uk mem 14
    (wreckMessage 14 125) (125 * 2) (by norm_num) _ (wreckMessage_spec (by norm_num) hnode)
  have hother : ∀ p, p ≠ 125 → pairHash H (tampered (treeMsg src uk mem) (2 * 125) (copyOver
      (lsGetASignedMsg src uk mem.msgs.cells.length))) p = pairHash H (treeMsg src uk mem) p :=
    fun p hp => pairHash_tampered_of_ne H _ hp _
  have hpair : pairHash H (tampered (treeMsg src uk mem) (2 * 125) (copyOver
      (lsGetASignedMsg src uk mem.msgs.cells.length))) 125 =
      merge2hashses H (calcHash H (lsGetASignedMsg src uk mem.msgs.cells.length))
        (calcHash H (treeMsg src uk mem 251)) := by
    rw [pairHash, tampered, Function.update_self, Function.update_of_ne (by norm_num), calcHash,
      bytes_copyOver (by simp [treeMsg])
        (by simp [treeMsg, lsGetASignedMsg, MessageSource.signAMessage])]
    rfl
  refine ⟨_, mem', hrun, hrestored, ?_⟩
  rw [← hpair]
  change _ ↔ _ ≠ pairHash H (treeMsg src uk mem) 125
  rcases hfirst with ⟨rfl, hnone⟩ | ⟨p, hp, rfl, hchanged, -⟩
  · rw [if_pos (by norm_num)]
    exact iff_of_false (by norm_num) (hnone 125 hnode)
  · have hp : p = 125 := by
      by_contra hne
      exact hchanged (hother p hne)
    subst hp
    rw [if_neg (by norm_num)]
    exact iff_of_true rfl hchanged

/-- `create_test_messages` makes a tree of any height at least 1 and cleans it up. -/
theorem createTestMessages_restores (H : GenericHash) (src : MessageSource) (signOpen : SignOpen)
    (uk : UserKeys) (e : ℕ) (mem : Mem) : ∃ mem',
      createTestMessages H src signOpen uk (e + 1) mem = some (0, mem') ∧ Restored mem mem' := by
  have hshift : (1 <<< (e + 1) : ℕ) = 2 ^ (e + 1) := by rw [Nat.shiftLeft_eq, one_mul]
  obtain ⟨msgArr, total, msgs₁, hfill, hfilled, -⟩ :=
    @fillMessages_spec src signOpen uk (2 ^ (e + 1)) mem.msgs
  obtain ⟨lA, lP, mem₁, lps, hbuild, -, howned, hperm⟩ :=
    @buildLayers_owns H { mem with msgs := msgs₁ } (e + 1) msgArr _ (by omega) hfilled.length
      hfilled.read
  obtain ⟨mem₂, hdestroy, hmsgs, hnodes, hlayers⟩ := howned.destroy hperm
  obtain ⟨msgs₂, hfree, hrestored⟩ := destroyMessages_grown hfilled.grown (.refl msgArr)
  refine ⟨{ mem₂ with msgs := msgs₂ }, ?_, hrestored, hnodes, hlayers⟩
  simp only [createTestMessages, Nat.succ_ne_zero, if_false, hshift, Option.bind_eq_bind]
  rw [hfill, Option.bind_some]
  simp only
  rw [hbuild, Option.bind_some]
  simp only
  rw [hdestroy, Option.bind_some, hmsgs, hfree, Option.bind_some]

/-- The test of the base layer passes exactly if every message validates. -/
theorem testProcessMessagesL1V2_passes_iff (H : GenericHash) (src : MessageSource)
    (signOpen : SignOpen) (uk : UserKeys) (mem : Mem) : ∃ r mem',
      testProcessMessagesL1V2 H src signOpen uk mem = some (r, mem') ∧ Restored mem mem' ∧
      (r = 0 ↔ ∀ i < 32, Validates src signOpen uk (mem.msgs.cells.length + i)) := by
  have hshift : (1 <<< 5 : ℕ) = 32 := rfl
  obtain ⟨msgArr, total, msgs₁, hfill, hfilled, -, htotal⟩ :=
    @fillMessages_spec src signOpen uk 32 mem.msgs
  obtain ⟨lp, l, mem₁, hbase, -⟩ := @processSMessagesV2_spec H 16 msgArr
    { mem with msgs := msgs₁ } _ hfilled.length.ge hfilled.read
  obtain ⟨mem₂, hdestroy, hmsgs, hnodes, hlayers⟩ :=
    (processSMessagesV2_owned H hbase).destroy (.refl [lp])
  obtain ⟨msgs₂, hfree, hrestored⟩ := destroyMessages_grown hfilled.grown (.refl msgArr)
  refine ⟨if total = 32 then 0 else 1, { mem₂ with msgs := msgs₂ }, ?_,
    ⟨hrestored, hnodes, hlayers⟩, ?_⟩
  · simp only [testProcessMessagesL1V2, hshift, Option.bind_eq_bind]
    rw [hfill, Option.bind_some]
    simp only
    rw [hbase, Option.bind_some]
    simp only
    rw [← destroyLayers_singleton, hdestroy, Option.bind_some, hmsgs, hfree, Option.bind_some]
  · rw [← htotal]
    simp

/-- The test of the messages alone passes exactly if every message validates. -/
theorem testMessageCreationAndValidation_passes_iff (src : MessageSource) (signOpen : SignOpen)
    (uk : UserKeys) (mem : Mem) : ∃ r mem',
      testMessageCreationAndValidation src signOpen uk mem = some (r, mem') ∧
      Restored mem mem' ∧
      (r = 0 ↔ ∀ i < 512, Validates src signOpen uk (mem.msgs.cells.length + i)) := by
  obtain ⟨msgArr, total, msgs₁, hfill, hfilled, -, htotal⟩ :=
    @fillMessages_spec src signOpen uk 512 mem.msgs
  obtain ⟨msgs₂, hfree, hrestored⟩ := destroyMessages_grown hfilled.grown (.refl msgArr)
  refine ⟨if total = 512 then 0 else 1, { mem with msgs := msgs₂ }, ?_,
    ⟨hrestored, fun _ => rfl, fun _ => rfl⟩, ?_⟩
  · simp only [testMessageCreationAndValidation, Option.bind_eq_bind]
    rw [hfill, Option.bind_some]
    simp only
    rw [hfree, Option.bind_some]
  · rw [← htotal]
    simp

end Proofs
end CBlockchain.MerkleTests
