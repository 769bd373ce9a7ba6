import CBlockchain.TransferProgress

/-! Agreement on the contents of a block, by the protocol. Whatever the order of events, a
client that has stored all its messages holds the slots of the server's buffer, so all such
clients hold the same list, and the two `calc_merkle_tree`s give the same root. -/
namespace CBlockchain.Transfer
open CalcMerkleTree ConnectionHandlers DataHandlers Hashing PerfectTree ReceiveLoop Serdes

/-- The array holds slots 0 to 511 of the buffer in order: bytes, lengths and keys. -/
structure HoldsBlock (cbuf : CircBuf) (msgArr : List SignedMessage) : Prop where
  length : msgArr.length = 512
  slots : ∀ i < 512, ∃ slot m, msgArr[i]? = some slot ∧ slotMsg cbuf i = some m ∧
    SameContent slot m

theorem Taken.holdsBlock {cbuf : CircBuf} {cl : Client} (h : Taken cbuf 512 cl) :
    HoldsBlock cbuf cl.msgArr := ⟨h.length, h.held⟩

/-- What a client has stored is what the server holds, also on an abandoned connection. -/
theorem FdOk.taken {codec : Codec} {cbuf : CircBuf} {fd : Fd} {fin other : Prop} {b : ℕ}
    {ops : List Op} {link : Link} (h : FdOk codec cbuf fd fin other b ops (some link)) :
    Taken cbuf link.client.stored link.client := by
  cases h with
  | abandoned _ late => exact late.taken
  | exchange _ joint =>
    cases joint with
    | toClient _ _ _ _ part => exact part.taken.self
    | atClient _ _ _ _ part => exact part.taken.self
    | toServer _ _ reply => exact reply.taken
    | atServer _ _ _ reply => exact reply.taken
    | finished _ complete => exact complete.taken.self

namespace HoldsBlock
variable {cbuf : CircBuf} {arr arr' : List SignedMessage}

theorem exists_messages (h : HoldsBlock cbuf arr) : ∃ slot m : ℕ → SignedMessage,
    arr = (List.range 512).map slot ∧ (∀ i < 512, slotMsg cbuf i = some (m i)) ∧
    ∀ i < 512, SameContent (slot i) (m i) := by
  have : Nonempty SignedMessage := ⟨emptySlot⟩
  choose! slot m hslot hm hsame using h.slots
  refine ⟨slot, m, ?_, hm, hsame⟩
  refine List.ext_getElem? fun i => ?_
  by_cases hi : i < 512
  · rw [hslot i hi, List.getElem?_map, List.getElem?_range hi, Option.map_some]
  · rw [List.getElem?_eq_none (by rw [h.length]; omega), List.getElem?_eq_none (by simpa using hi)]

theorem same (h : HoldsBlock cbuf arr) (h' : HoldsBlock cbuf arr') :
    List.Forall₂ SameContent arr arr' := by
  obtain ⟨slot, m, harr, hm, hsame⟩ := h.exists_messages
  obtain ⟨slot', m', harr', hm', hsame'⟩ := h'.exists_messages
  rw [harr, harr', List.forall₂_map_left_iff, List.forall₂_map_right_iff, List.forall₂_same]
  intro i hi
  have hi := List.mem_range.mp hi
  have heq : m i = m' i := Option.some.inj ((hm i hi).symm.trans (hm' i hi))
  obtain ⟨hbytes, hlength, hkey⟩ := hsame i hi
  obtain ⟨hbytes', hlength', hkey'⟩ := hsame' i hi
  exact ⟨by rw [hbytes, heq, hbytes'], by rw [hlength, heq, hlength'], by rw [hkey, heq, hkey']⟩

/-- The client's tree over the array and the server's tree over the buffer have one root. -/
theorem roots (H : GenericHash) (h : HoldsBlock cbuf arr) {msg : ℕ → SignedMessage}
    (hmsg : ∀ i < 512, slotMsg cbuf i = some (msg i)) :
    ∃ cont mem, CalcMerkleTree.calcMerkleTree H 9 0 (.ofMessages arr) = some (cont, mem) ∧
      storedHash mem cont.mainLayerPointer 0 0 =
        some (root (calcHash H) (merge2hashses H) 9 msg) := by
  obtain ⟨slot, m, harr, hm, hsame⟩ := h.exists_messages
  obtain ⟨cont, mem, hrun, -, hbuilt, -⟩ := calcMerkleTree_built H (E := 9) (by norm_num)
    (messagesAt_ofMessages 9 slot)
  refine ⟨cont, mem, by rw [harr]; exact hrun, ?_⟩
  rw [storedHash_of_built H hbuilt (by norm_num) (by norm_num), MerkleTree.referenceHash_zero,
    Option.some.injEq]
  apply root_congr _ _ _
  intro i hi
  have hi : i < 512 := by simpa using hi
  have heq : m i = msg i := Option.some.inj ((hm i hi).symm.trans (hmsg i hi))
  rw [calcHash, calcHash, (hsame i hi).bytes, heq]

end HoldsBlock

/-- In every reachable state: a client that has stored 512 messages holds the server's
slots, all such clients hold the same list, and the root of the client's tree is that of
the server's tree, now and whenever the server printed one. -/
theorem reaches_agreement {pf : Platform} {net : Net} (h : Reaches pf net) :
    (∀ fd link, net.links fd = some link → link.client.stored = 512 →
      HoldsBlock net.server.cbuf link.client.msgArr) ∧
    (∀ fd₁ fd₂ link₁ link₂, net.links fd₁ = some link₁ → net.links fd₂ = some link₂ →
      link₁.client.stored = 512 → link₂.client.stored = 512 →
      List.Forall₂ SameContent link₁.client.msgArr link₂.client.msgArr) ∧
    ∀ fd link, net.links fd = some link → link.client.stored = 512 → ∃ cont mem hash,
      CalcMerkleTree.calcMerkleTree pf.H 9 0 (.ofMessages link.client.msgArr) = some (cont, mem) ∧
      storedHash mem cont.mainLayerPointer 0 0 = some hash ∧
      ConnectionHandlers.calcMerkleTree pf.H net.server.cbuf.buffer net.server.cbuf.msgs =
        some hash ∧
      ∀ e ∈ net.roots, e.2 = hash := by
  have hs := reaches_sound h
  have hholds : ∀ fd link, net.links fd = some link → link.client.stored = 512 →
      HoldsBlock net.server.cbuf link.client.msgArr := by
    intro fd link on hstored
    have hok := hs.fd fd
    rw [Net.Ok, on] at hok
    have htaken := hok.taken
    rw [hstored] at htaken
    exact htaken.holdsBlock
  refine ⟨hholds, fun fd₁ fd₂ link₁ link₂ on₁ on₂ h₁ h₂ =>
    (hholds fd₁ link₁ on₁ h₁).same (hholds fd₂ link₂ on₂ h₂), fun fd link on hstored => ?_⟩
  have hblock := hholds fd link on hstored
  obtain ⟨-, msg, -, hmsg, -⟩ := hblock.exists_messages
  obtain ⟨cont, mem, hrun, hroot⟩ := hblock.roots pf.H hmsg
  refine ⟨cont, mem, _, hrun, hroot, calcMerkleTree_eq pf.H hmsg, fun e he => ?_⟩
  obtain ⟨msg', hmsg', hprinted⟩ := hs.roots e he
  rw [hprinted]
  apply root_congr _ _ _
  intro i hi
  have hi : i < 512 := by simpa using hi
  rw [Option.some.inj ((hmsg i hi).symm.trans (hmsg' i hi))]

end CBlockchain.Transfer
