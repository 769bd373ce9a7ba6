import CBlockchain.MerkleTeardown
import CBlockchain.ReceiveLoop
import CBlockchain.Tampering

/-! The loop that verifies all messages of a tree, in the client after a block and in the
tests of the repository. It adds up verdicts until one is 0. A pair is accepted or rejected
at both of its positions, so the sum is twice the number of the first pair that has
changed since the tree was built. -/
namespace CBlockchain.VerifyMessages
open CalcMerkleTree DataHandlers Hashing Heap Layering MerkleProcess MerkleTeardown MerkleTree
open MerkleVerdict Tampering

section Code
variable (H : GenericHash) (mem : Mem) (layers : List LayerHp) (exponent : ℕ)

/-- `remaining` messages from message `i` on. -/
def verifyMessages : ℕ → ℕ → ℤ → Option ℤ
  | 0, _, verResult => some verResult
  | remaining + 1, i, verResult => do
    let rez ← (merkleVerifyMessage H mem layers exponent i).result
    if rez = 0 then some verResult else verifyMessages remaining (i + 1) (verResult + rez)

/-- The client's loop is the one for 512 messages. -/
theorem verifyAll_eq (n : ℕ) : ∀ (i : ℕ) (verResult : ℤ),
    ReceiveLoop.verifyAll H mem layers n i verResult =
      verifyMessages H mem layers 9 n i verResult := by
  induction n with
  | zero => exact fun _ _ => rfl
  | succ n ih =>
    intro i verResult
    simp only [ReceiveLoop.verifyAll, verifyMessages, ih]

end Code

section Counting
variable {H : GenericHash} {mem : Mem} {layers : List LayerHp} {E : ℕ}

/-- Where every verdict is 1 or 0, the loop adds the number of messages up to the first that
is not accepted. -/
theorem verifyMessages_count (accepted : ℕ → Prop) [DecidablePred accepted] (n : ℕ) :
    ∀ (i : ℕ) (verResult : ℤ), (∀ j < n, (merkleVerifyMessage H mem layers E (i + j)).result =
        some (if accepted (i + j) then 1 else 0)) →
      ∃ c ≤ n, verifyMessages H mem layers E n i verResult = some (verResult + c) ∧
        (∀ j < c, accepted (i + j)) ∧ (c = n ∨ ¬ accepted (i + c)) := by
  induction n with
  | zero =>
    intro i verResult _
    exact ⟨0, le_rfl, by simp [verifyMessages], fun j hj => absurd hj (Nat.not_lt_zero j), Or.inl rfl⟩
  | succ n ih =>
    intro i verResult hv
    have hfirst := hv 0 (Nat.succ_pos n)
    rw [Nat.add_zero] at hfirst
    by_cases hi : accepted i
    · obtain ⟨c, hc, hrun, hall, hend⟩ := ih (i + 1) (verResult + 1) (by
        intro j hj
        rw [show i + 1 + j = i + (j + 1) by omega]
        exact hv (j + 1) (by omega))
      refine ⟨c + 1, by omega, ?_, ?_, ?_⟩
      · rw [verifyMessages, hfirst, if_pos hi]
        simp only [Option.bind_eq_bind, Option.bind_some, one_ne_zero, if_false, hrun]
        push_cast
        rw [add_assoc, add_comm (1 : ℤ)]
      · intro j hj
        rcases j with _ | j
        · exact hi
        · rw [show i + (j + 1) = i + 1 + j by omega]
          exact hall j (by omega)
      · rw [show i + (c + 1) = i + 1 + c by omega]
        exact hend.imp (congrArg Nat.succ) id
    · refine ⟨0, Nat.zero_le _, ?_, fun j hj => absurd hj (Nat.not_lt_zero j), Or.inr hi⟩
      rw [verifyMessages, hfirst, if_neg hi]
      simp

end Counting

/-- The first pair that has changed, or none: `c` is twice its number, or the number of
messages. -/
def FirstChange (changed : ℕ → Prop) (E c : ℕ) : Prop :=
  (c = 2 ^ E ∧ ∀ p < 2 ^ (E - 1), ¬ changed p) ∨
    ∃ p < 2 ^ (E - 1), c = 2 * p ∧ changed p ∧ ∀ q < p, ¬ changed q

theorem firstChange_of_count {changed : ℕ → Prop} {E c : ℕ} (hE : 1 ≤ E) (hc : c ≤ 2 ^ E)
    (hall : ∀ j < c, ¬ changed (j >>> 1)) (hend : c = 2 ^ E ∨ changed (c >>> 1)) :
    FirstChange changed E c := by
  have hs : 2 ^ E = 2 * 2 ^ (E - 1) := by rw [← pow_succ', Nat.sub_add_cancel hE]
  have hhalf : ∀ j, j >>> 1 = j / 2 := fun j => by rw [Nat.shiftRight_eq_div_pow, pow_one]
  by_cases hfull : c = 2 ^ E
  · refine Or.inl ⟨hfull, fun p hp => ?_⟩
    have h := hall (2 * p) (by omega)
    rwa [hhalf, Nat.mul_div_cancel_left p (by norm_num)] at h
  · have hchanged := hend.resolve_left hfull
    have heven : c = 2 * (c >>> 1) := by
      rw [hhalf]
      by_contra hodd
      have h := hall (c - 1) (by omega)
      rw [hhalf, show (c - 1) / 2 = c / 2 by omega, ← hhalf] at h
      exact h hchanged
    refine Or.inr ⟨c >>> 1, by omega, heven, hchanged, fun q hq => ?_⟩
    have h := hall (2 * q) (by omega)
    rwa [hhalf, Nat.mul_div_cancel_left q (by norm_num)] at h

section Trees
variable (H : GenericHash)

/-- The stored layers do not depend on the message bytes. -/
theorem Built.withMsgs {mem : Mem} {E : ℕ} {lA : List Ptr} {lP : List LayerHp} {mp : ℕ → Ptr}
    {msg : ℕ → SignedMessage} (hb : Built H mem E lA lP mp msg 0) (msgs : Heap SignedMessage) :
    Built H { mem with msgs := msgs } E lA lP mp msg 0 where
  length_ptrs := hb.length_ptrs
  length_copies := hb.length_copies
  layer := by
    intro k hk hkE
    obtain ⟨lp, l, hA, hread, hP, hhold, hlevel⟩ := hb.layer k hk hkE
    exact ⟨lp, l, hA, hread, hP, ⟨hhold.size, hhold.length, hhold.node⟩, hlevel⟩
  hashed_msg := hb.hashed_msg
  hashed_pair := hb.hashed_pair

theorem verifyMessages_of_built {mem : Mem} {E : ℕ} {lA : List Ptr} {lP : List LayerHp}
    {mp : ℕ → Ptr} {msg msg' : ℕ → SignedMessage} (hE : 2 ≤ E)
    (hb : Built H mem E lA lP mp msg 0)
    (hm : ∀ i < 2 ^ E, mem.msgs.read (mp i) = some (msg' i)) :
    ∃ c : ℕ, verifyMessages H mem lP E (2 ^ E) 0 0 = some (c : ℤ) ∧
      FirstChange (fun p => pairHash H msg' p ≠ pairHash H msg p) E c := by
  obtain ⟨c, hc, hrun, hall, hend⟩ := verifyMessages_count
    (fun i => pairHash H msg' (i >>> 1) = pairHash H msg (i >>> 1)) (2 ^ E) 0 0
    (fun j hj => by rw [Nat.zero_add]; exact verdict_of_built H hE hb hm hj)
  simp only [zero_add] at hrun hall hend
  refine ⟨c, hrun, firstChange_of_count (by omega) hc ?_ hend⟩
  intro j hj
  exact not_not.mpr (hall j hj)

/-- The client's loop over the messages of its tree accepts them all. -/
theorem verifyAll_of_built {mem : Mem} {lA : List Ptr} {lP : List LayerHp} {mp : ℕ → Ptr}
    {msg : ℕ → SignedMessage} (hb : Built H mem 9 lA lP mp msg 0)
    (hm : ∀ i < 2 ^ 9, mem.msgs.read (mp i) = some (msg i)) :
    ReceiveLoop.verifyAll H mem lP 512 0 0 = some 512 := by
  obtain ⟨c, hcount, hfirst⟩ := verifyMessages_of_built H (by norm_num) hb hm
  rcases hfirst with ⟨hfull, -⟩ | ⟨p, -, -, hchanged, -⟩
  · rw [verifyAll_eq, show 512 = 2 ^ 9 by norm_num, hcount, hfull]
    norm_num
  · exact absurd rfl hchanged

/-- However the messages behind a tree are overwritten after it was built, verifying them
all gives twice the number of the first pair whose merged hash has changed, and the number
of messages if there is none. -/
theorem verifyMessages_finds_first_change (E msgPointer : ℕ) (mem : Mem)
    (msg msg' : ℕ → SignedMessage) (msgs : Heap SignedMessage) (hE : 2 ≤ E)
    (hm : MessagesAt mem E msgPointer msg)
    (hm' : ∀ i < 2 ^ E, msgs.read (some (msgPointer + i)) = some (msg' i)) :
    ∃ cont mem', ∃ c : ℕ, calcMerkleTree H E msgPointer mem = some (cont, mem') ∧
      verifyMessages H { mem' with msgs := msgs } cont.mainLayerPointer E (2 ^ E) 0 0 =
        some (c : ℤ) ∧
      FirstChange (fun p => pairHash H msg' p ≠ pairHash H msg p) E c := by
  obtain ⟨cont, mem', hrun, -, hb, harr⟩ := calcMerkleTree_built H (by omega) hm
  have hm'' : MessagesAt { mem' with msgs := msgs } E msgPointer msg' := hm'
  obtain ⟨c, hverify, hfirst⟩ := verifyMessages_of_built H hE (Built.withMsgs H hb msgs)
    (hm''.read_ptrAt harr)
  exact ⟨cont, mem', c, hrun, hverify, hfirst⟩

/-- Eight messages of one zero byte, the sixth replaced by a one: the loop stops at 4. -/
theorem verifyMessages_finds_first_change_at_five :
    ∃ cont mem', calcMerkleTree orHash 3 0
        (.ofMessages ((List.range (2 ^ 3)).map fun _ => byteMessage 0)) = some (cont, mem') ∧
      verifyMessages orHash { mem' with msgs :=
          ⟨((List.range (2 ^ 3)).map fun i => byteMessage (if i = 5 then 1 else 0)).map some⟩ }
        cont.mainLayerPointer 3 (2 ^ 3) 0 0 = some 4 := by
  obtain ⟨cont, mem', c, hrun, hverify, hfirst⟩ := verifyMessages_finds_first_change orHash 3 0 _
    (fun _ => byteMessage 0) (fun i => byteMessage (if i = 5 then 1 else 0)) _ (by norm_num)
    (messagesAt_ofMessages 3 _) (messagesAt_ofMessages 3 _)
  have hchanged : ∀ p < 4, pairHash orHash (fun i => byteMessage (if i = 5 then 1 else 0)) p ≠
      pairHash orHash (fun _ => byteMessage 0) p ↔ p = 2 := by decide
  have hc : c = 4 := by
    rcases hfirst with ⟨-, hnone⟩ | ⟨p, hp, rfl, hpair, -⟩
    · exact absurd ((hchanged 2 (by norm_num)).mpr rfl) (hnone 2 (by norm_num))
    · rw [(hchanged p hp).mp hpair]
  exact ⟨cont, mem', hrun, by rw [hc] at hverify; exact hverify⟩

end Trees
end CBlockchain.VerifyMessages
