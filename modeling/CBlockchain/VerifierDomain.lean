import CBlockchain.MerkleVerdict

/-! The indices of `merkle_verify_message` against the tree of `calc_merkle_tree`:
which layers and nodes it addresses and which union arms it reads, at every height
the builder accepts. -/
namespace CBlockchain.VerifierDomain
open Hashing Layering MerkleTree CalcMerkleTree MerkleProcess MerkleVerdict

/-- A tree of `E` layers has a node `j` in layer `k`. -/
def HasNode (E : ℕ) (k : ℤ) (j : ℕ) : Prop := 0 ≤ k ∧ k ≤ (E : ℤ) - 1 ∧ j < 2 ^ k.toNat

/-- The event stays within the tree: messages hang below its last layer only, child
nodes below all others. -/
def InDomain (E : ℕ) : VerifyEvent → Prop
  | .node k j => HasNode E k j
  | .messageArm k j => HasNode E k j ∧ k = (E : ℤ) - 1
  | .hpointArm k j => HasNode E k j ∧ k < (E : ℤ) - 1
  | .memcmp _ => True

section Runs
variable (H : GenericHash) (mem : Mem) (layers : List LayerHp) {E : ℕ}

theorem hasNode_natCast {l j : ℕ} (hl : l < E) (hj : j < 2 ^ l) : HasNode E l j := by
  refine ⟨by omega, by omega, ?_⟩
  rwa [Int.toNat_natCast]

theorem readNode_inDomain {k : ℤ} {j : ℕ} (h : HasNode E k j) :
    (readNode mem layers k j).Always (InDomain E) :=
  Traced.always_emit h (Traced.always_lift _)

theorem readMessages_inDomain {k : ℤ} {j : ℕ} (h : HasNode E k j) (hk : k = (E : ℤ) - 1)
    (n : HashPoint) : (readMessages k j n).Always (InDomain E) := by
  apply Traced.always_emit
  · exact ⟨h, hk⟩
  · intro e he
    split at he <;> cases he

theorem readHpoints_inDomain {k : ℤ} {j : ℕ} (h : HasNode E k j) (hk : k < (E : ℤ) - 1)
    (n : HashPoint) : (readHpoints k j n).Always (InDomain E) := by
  apply Traced.always_emit
  · exact ⟨h, hk⟩
  · intro e he
    split at he <;> cases he

theorem memcmpHash_inDomain (a b : Digest) : (memcmpHash a b).Always (InDomain E) :=
  Traced.always_emit trivial (Traced.always_pure _)

/-- A node's neighbour differs from it in the last bit, so it lies in the same layer. -/
theorem neighborNumber_lt {i req : ℕ} (hreq : req < 2 ^ (i + 1)) :
    (if req % 2 = 1 then req - 1 else req + 1) < 2 ^ (i + 1) := by
  have hpow : 2 ^ (i + 1) = 2 * 2 ^ i := pow_succ' 2 i
  split <;> omega

theorem verifyLoop_root_inDomain {req : ℕ} (hE : 1 < E) (hreq : req < 2) (sret : ℤ) :
    (verifyLoop H mem layers 1 req sret).Always (InDomain E) := by
  have hroot := hasNode_natCast (by omega : 0 < E) (by norm_num : 0 < 2 ^ 0)
  have htop := hasNode_natCast (by omega : 0 < E) (shift_lt (k := 0) hreq)
  have hread := readNode_inDomain mem layers hroot
  have harm := readHpoints_inDomain hroot (by push_cast; omega)
  unfold verifyLoop
  apply Traced.always_ite
  · intro _
    apply Traced.always_bind hread
    intro r1 _
    apply Traced.always_bind (harm r1)
    rintro ⟨hpoint1, hpoint2⟩ _
    apply Traced.always_lift_bind
    intro n1 _
    apply Traced.always_bind hread
    intro r2 _
    apply Traced.always_bind (harm r2)
    rintro ⟨hpoint1, hpoint2⟩ _
    apply Traced.always_lift_bind
    intro n2 _
    apply Traced.always_bind (readNode_inDomain mem layers htop)
    intro top _
    apply Traced.always_bind (memcmpHash_inDomain _ _)
    intro rez _
    apply Traced.always_ite <;> exact fun _ => Traced.always_pure _
  · exact fun h => absurd rfl h

/-- A middle turn, given the turns above it. -/
theorem verifyLoop_middle_inDomain {i req : ℕ} (hi : i + 1 < E) (hreq : req < 2 ^ (i + 2))
    (hup : ∀ sret, (verifyLoop H mem layers (i + 1) (req >>> 1) sret).Always (InDomain E))
    (sret : ℤ) : (verifyLoop H mem layers (i + 2) req sret).Always (InDomain E) := by
  have hx : req >>> 1 < 2 ^ (i + 1) := shift_lt hreq
  have hread := readNode_inDomain mem layers (hasNode_natCast hi hx)
  have hnext := readNode_inDomain mem layers (hasNode_natCast hi (neighborNumber_lt hx))
  have hparent : HasNode E ((i + 1 : ℕ) - 1) ((req >>> 1) >>> 1) := by
    rw [Nat.cast_succ, add_sub_cancel_right]
    exact hasNode_natCast (by omega) (shift_lt hx)
  have hcompare : ∀ shash : Digest, (do
      let up ← readNode mem layers ((i + 1 : ℕ) - 1) ((req >>> 1) >>> 1)
      let rez ← memcmpHash shash up.hash
      if rez ≠ 0 then pure (LoopExit.returned 1)
      else verifyLoop H mem layers (i + 1) (req >>> 1) (sret + rez)).Always (InDomain E) := by
    intro shash
    apply Traced.always_bind (readNode_inDomain mem layers hparent)
    intro up _
    apply Traced.always_bind (memcmpHash_inDomain _ _)
    intro rez _
    apply Traced.always_ite
    · exact fun _ => Traced.always_pure _
    · exact fun _ => hup _
  unfold verifyLoop
  apply Traced.always_ite
  · exact fun h => absurd h (Nat.succ_ne_zero i)
  · intro _
    apply Traced.always_ite
    · intro _
      apply Traced.always_bind hnext
      intro a _
      apply Traced.always_bind hread
      exact fun b _ => hcompare _
    · intro _
      apply Traced.always_bind hread
      intro a _
      apply Traced.always_bind hnext
      exact fun b _ => hcompare _

/-- The loop is entered at layer `i - 1` with a node number of the layer below it. -/
theorem verifyLoop_inDomain {i req : ℕ} (hi : i < E) (hreq : req < 2 ^ i) (sret : ℤ) :
    (verifyLoop H mem layers i req sret).Always (InDomain E) := by
  induction i generalizing req sret with
  | zero => exact Traced.always_pure _
  | succ i ih =>
    cases i with
    | zero => exact verifyLoop_root_inDomain H mem layers hi hreq sret
    | succ i =>
      apply verifyLoop_middle_inDomain H mem layers (by omega) hreq
      exact fun sret => ih (by omega) (shift_lt hreq) sret

/-- From two layers on every index of a run lies in the tree, whatever the memory holds. -/
theorem merkleVerifyMessage_inDomain {i : ℕ} (hE : 2 ≤ E) (hi : i < 2 ^ E) :
    (merkleVerifyMessage H mem layers E i).Always (InDomain E) := by
  obtain ⟨e, rfl⟩ : ∃ e, E = e + 2 := ⟨E - 2, by omega⟩
  have hx : i >>> 1 < 2 ^ (e + 1) := shift_lt hi
  have hc1 : ((e + 2 : ℕ) : ℤ) - 1 = (e + 1 : ℕ) := by push_cast; ring
  have hc2 : ((e + 2 : ℕ) : ℤ) - 2 = (e : ℕ) := by push_cast; ring
  have hbase := hasNode_natCast (by omega : e + 1 < e + 2) hx
  have hparent := hasNode_natCast (by omega : e < e + 2) (shift_lt hx)
  have hread := readNode_inDomain mem layers hbase
  have harm := readMessages_inDomain hbase hc1.symm
  unfold merkleVerifyMessage
  rw [hc1, hc2]
  apply Traced.always_bind hread
  intro b1 _
  apply Traced.always_bind (harm b1)
  rintro ⟨smsgP1, smsgP2⟩ _
  apply Traced.always_lift_bind
  intro m1 _
  apply Traced.always_bind hread
  intro b2 _
  apply Traced.always_bind (harm b2)
  rintro ⟨smsgP1, smsgP2⟩ _
  apply Traced.always_lift_bind
  intro m2 _
  apply Traced.always_bind (readNode_inDomain mem layers hparent)
  intro parent _
  apply Traced.always_bind (readHpoints_inDomain hparent (by push_cast; omega) parent)
  rintro ⟨hpoint1, hpoint2⟩ _
  apply Traced.always_lift_bind
  intro child _
  apply Traced.always_bind (memcmpHash_inDomain _ _)
  intro retGrLev _
  apply Traced.always_ite
  · exact fun _ => Traced.always_pure _
  · intro _
    apply Traced.always_bind (verifyLoop_inDomain H mem layers (by omega) hx 0)
    intro exit _
    cases exit <;> exact Traced.always_pure _

/-- With one layer the parent of the base node is looked up in front of the array. -/
theorem merkleVerifyMessage_one_layer {msg : ℕ → SignedMessage} {i : ℕ}
    (hs : MerkleShape mem 1 layers msg) (hi : i < 2 ^ 1) :
    .node (-1) 0 ∈ (merkleVerifyMessage H mem layers 1 i).trace := by
  have hx : i >>> 1 = 0 := by simpa using shift_lt hi
  obtain ⟨hash, p₁, h₁, p₂, h₂, hbase, hm₁, hm₂⟩ := hs.base 0 (by norm_num)
  have hb := hs.readNode_eq (k := 0) (by omega) (by norm_num) hbase
  simp only [Nat.cast_zero] at hb
  have hbefore : readNode mem layers (-1) 0 = ⟨[.node (-1) 0], none⟩ := rfl
  simp [merkleVerifyMessage, hx, hb, readMessages, hbefore, Traced.ok, hm₁, hm₂]

/-- The verifier keeps to the domain of the builder exactly from two layers on. -/
theorem merkleVerifyMessage_inDomain_iff (E msgPointer i : ℕ) (mem : Mem)
    (msg : ℕ → SignedMessage) (hE : 1 ≤ E) (hi : i < 2 ^ E)
    (hm : MessagesAt mem E msgPointer msg) :
    ∃ cont mem', calcMerkleTree H E msgPointer mem = some (cont, mem') ∧
      ((∀ e ∈ (merkleVerifyMessage H mem' cont.mainLayerPointer E i).trace, InDomain E e) ↔
        2 ≤ E) := by
  obtain ⟨cont, mem', hrun, hext, hb, harr⟩ := calcMerkleTree_built H hE hm
  refine ⟨cont, mem', hrun, ?_, fun h2 => merkleVerifyMessage_inDomain H mem' _ h2 hi⟩
  intro hall
  by_contra hlt
  obtain rfl : E = 1 := by omega
  have hs := shape_of_built H hE hb ((hm.extends hext).read_ptrAt harr)
  have hnode : HasNode 1 (-1) 0 := hall _ (merkleVerifyMessage_one_layer H mem' _ hs hi)
  exact absurd hnode.1 (by norm_num)

end Runs

theorem merkleVerifyMessage_inDomain_at_three :
    ∃ cont mem', calcMerkleTree orHash 3 0
        (.ofMessages ((List.range (2 ^ 3)).map fun i => byteMessage (UInt8.ofNat i))) =
          some (cont, mem') ∧
      ∀ e ∈ (merkleVerifyMessage orHash mem' cont.mainLayerPointer 3 5).trace, InDomain 3 e := by
  obtain ⟨cont, mem', hrun, hiff⟩ := merkleVerifyMessage_inDomain_iff orHash 3 0 5 _
    (fun i => byteMessage (UInt8.ofNat i)) (by norm_num) (by norm_num) (messagesAt_ofMessages 3 _)
  exact ⟨cont, mem', hrun, hiff.mpr (by norm_num)⟩

/-- Two messages, the smallest tree the builder accepts. -/
theorem merkleVerifyMessage_leaves_smallest_tree :
    ∃ cont mem', calcMerkleTree orHash 1 0
        (.ofMessages ((List.range (2 ^ 1)).map fun i => byteMessage (UInt8.ofNat i))) =
          some (cont, mem') ∧
      VerifyEvent.node (-1) 0 ∈ (merkleVerifyMessage orHash mem' cont.mainLayerPointer 1 0).trace ∧
      ¬ InDomain 1 (.node (-1) 0) := by
  have hm := messagesAt_ofMessages 1 fun i => byteMessage (UInt8.ofNat i)
  obtain ⟨cont, mem', hrun, hext, hb, harr⟩ := calcMerkleTree_built orHash le_rfl hm
  have hs := shape_of_built orHash le_rfl hb ((hm.extends hext).read_ptrAt harr)
  refine ⟨cont, mem', hrun, merkleVerifyMessage_one_layer orHash mem' _ hs (by norm_num), ?_⟩
  intro h
  exact absurd h.1 (by norm_num)

end CBlockchain.VerifierDomain
