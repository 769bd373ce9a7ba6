import CBlockchain.Delivery
import CBlockchain.RingRuns

/-! What arrives over the ring, in a run whose finishes are all harmless: the messages of the
source in their order, one root, and blocks that commit to it. -/
namespace CBlockchain.Transfer
open BlockProcess CalcMerkleTree ConnectionHandlers DataHandlers EventLoop Layering
open MessageService ReceiveLoop Serdes SignedBlocks VerifyMessages
variable {pf : Platform} {net ideal : Net} {fd : Fd} {link : Link}

theorem connectedClient_holdsFirst (src : MessageSource) :
    HoldsFirst src connectedClient.stored connectedClient.msgArr :=
  fun _ hj => absurd hj (Nat.not_lt_zero _)

theorem RingReaches.filled_block (h : RingReaches pf HarmlessFinish net)
    (on : net.links fd = some link) (filled : link.client.phase = .filled) :
    link.client.stored = 512 ∧ link.client.verResult = 512 ∧
      ∃ block, link.client.block = some block ∧ ChecksAgainst pf.H (blockRoot pf) block := by
  obtain ⟨ideal, hreach, hm⟩ := h.exists_ideal
  rcases hm.client_cases on with hfirst | ⟨il, hil, hcl⟩
  · rw [hfirst] at filled
    cases filled
  · rw [← hcl] at filled ⊢
    exact Transfer.filled_block hreach hil filled

/-- In every interleaving: what a client has stored are the first messages of the source, in
order; every root the server prints is that of the first 512; and a client whose block is
made has a block that commits to this root, with a verification result of 512. -/
theorem transfer_delivers_source (h : RingReaches pf HarmlessFinish net) :
    (∀ fd link, net.links fd = some link →
      HoldsFirst pf.src link.client.stored link.client.msgArr) ∧
    (∀ e ∈ net.roots, e.2 = blockRoot pf) ∧
    ∀ fd link, net.links fd = some link → link.client.phase = .filled →
      link.client.stored = 512 ∧ link.client.verResult = 512 ∧
      ∃ block, link.client.block = some block ∧ ChecksAgainst pf.H (blockRoot pf) block := by
  obtain ⟨ideal, hreach, hm⟩ := h.exists_ideal
  refine ⟨fun fd link on => ?_, hm.roots ▸ reaches_roots hreach, fun fd link on => h.filled_block on⟩
  rcases hm.client_cases on with hfirst | ⟨il, hil, hcl⟩
  · rw [hfirst]
    exact connectedClient_holdsFirst pf.src
  · rw [← hcl]
    exact reaches_holdsFirst hreach hil

/-- In every interleaving each message a client has stored is valid under its own key,
though neither side checks a signature; so is every message of a tree it has built. -/
theorem transfer_delivers_signed {signOpen : SignOpen} (h : RingReaches pf HarmlessFinish net)
    (opens : OpensSource signOpen pf.src) :
    ∀ fd link, net.links fd = some link →
      (∀ j < link.client.stored, validateAMessage signOpen (slotAt link.client.msgArr j)
        (slotAt link.client.msgArr j).publicKey = some 1) ∧
      (link.client.phase = .filled → ∃ cont mem, link.client.tree = some (cont, mem) ∧
        TreeSigned signOpen cont mem) := by
  intro fd link on
  obtain ⟨ideal, hreach, hm⟩ := h.exists_ideal
  rcases hm.client_cases on with hfirst | ⟨il, hil, hcl⟩
  · rw [hfirst]
    refine ⟨fun _ hj => absurd hj (Nat.not_lt_zero _), fun filled => ?_⟩
    cases filled
  · rw [← hcl]
    exact reaches_signed hreach opens fd il hil

section Demonstration

/-- The seed behind `signerKey`. -/
def signerSeed : Vector UInt8 32 := #v[76, 205, 8, 155, 40, 255, 150, 218, 157, 182, 195, 70, 236,
  17, 78, 15, 91, 138, 49, 159, 53, 171, 166, 36, 218, 140, 246, 237, 79, 184, 166, 251]

/-- The signature of a hundred times the byte 114. -/
def textSignature : Vector UInt8 64 := #v[95, 100, 87, 208, 72, 18, 219, 52, 251, 186, 3, 244, 59,
  179, 143, 76, 181, 156, 78, 93, 237, 191, 104, 35, 247, 143, 197, 190, 209, 217, 50, 116, 34, 54,
  226, 137, 59, 189, 63, 83, 165, 81, 219, 155, 177, 131, 160, 219, 134, 60, 210, 171, 33, 146, 215,
  217, 78, 136, 244, 80, 170, 190, 165, 2]

def signingPlatform : Platform where
  H := lastByteHash
  codec := wireCodec
  src := ⟨fun _ => ⟨signerSeed ++ signerKey, signerKey⟩, fun _ => Vector.replicate 100 114,
    fun _ _ => textSignature⟩

def opensText : SignOpen := fun signed pk =>
  signed = textSignature.toList ++ List.replicate 100 114 ∧ pk = signerKey

theorem opensText_signingPlatform : OpensSource opensText signingPlatform.src := by
  intro n
  simp [opensText, signingPlatform]

theorem exists_filled {stamp : Stamp} (hfit : FitsBuffers pf.codec stamp) (sign : fd.msb = false)
    {input : ClientLoop.TurnInput} (solves : SolvesInTime pf.H input) :
    ∃ net link, RingReaches pf HarmlessFinish net ∧ net.links fd = some link ∧
      link.client.phase = .filled := by
  obtain ⟨start, net, link, hstart, hrun, on, hstored, -⟩ := exists_ring_served hfit sign
  have hring : RingReaches pf HarmlessFinish net := ⟨start, hstart, hrun⟩
  obtain ⟨ideal, hreach, hm⟩ := hring.exists_ideal
  rcases hm.client_cases on with hfirst | ⟨il, hil, hcl⟩
  · rw [hfirst] at hstored
    cases hstored
  · have hphase := (reaches_prepared hreach fd il hil).all.mpr (by rw [hcl, hstored])
    have hok := (reaches_sound hreach).fd fd
    rw [Net.Ok, hil] at hok
    have hlen := hok.taken.length
    rw [hcl] at hphase hlen
    cases hp : link.client.phase with
    | receiving => exact absurd hp hphase
    | filled => exact ⟨net, link, hring, on, hp⟩
    | assembling =>
      obtain ⟨cl', block, hdone, -⟩ := assembleBlock_returns hlen solves
      have hwork : RingWork pf fd net _ := .assemble input.machine input.fuel on hp hdone
      exact ⟨_, _, ⟨start, hstart, hrun.tail ⟨.inr ⟨fd, hwork⟩, harmlessFinish_of_quiet rfl⟩⟩,
        Function.update_self _ _ _, (assembleBlock_spec hdone).1⟩

theorem signingPlatform_filled : ∃ net link, RingReaches signingPlatform HarmlessFinish net ∧
    net.links 5 = some link ∧ link.client.phase = .filled := by
  have hfit : FitsBuffers signingPlatform.codec ServerClosing.zeroStamp :=
    wireCodec_fits (Nat.zero_le _)
  exact exists_filled hfit (by decide) (signedTurn_solves 0)

end Demonstration

theorem transfer_delivers_source_to_one : ∃ net link block, RingReaches signingPlatform HarmlessFinish net ∧
    net.links 5 = some link ∧ HoldsFirst signingPlatform.src 512 link.client.msgArr ∧
    link.client.block = some block ∧
    ChecksAgainst signingPlatform.H (blockRoot signingPlatform) block := by
  obtain ⟨net, link, hreach, on, filled⟩ := signingPlatform_filled
  obtain ⟨hholds, -, hblocks⟩ := transfer_delivers_source hreach
  obtain ⟨hstored, -, block, hblock, hcheck⟩ := hblocks 5 link on filled
  exact ⟨net, link, block, hreach, on, hstored ▸ hholds 5 link on, hblock, hcheck⟩

theorem transfer_delivers_signed_to_one : ∃ net link cont mem, RingReaches signingPlatform HarmlessFinish net ∧
    net.links 5 = some link ∧ link.client.tree = some (cont, mem) ∧
    TreeSigned opensText cont mem := by
  obtain ⟨net, link, hreach, on, filled⟩ := signingPlatform_filled
  have hsigned := transfer_delivers_signed hreach opensText_signingPlatform 5 link on
  obtain ⟨cont, mem, htree, htreeSigned⟩ := hsigned.2 filled
  exact ⟨net, link, cont, mem, hreach, on, htree, htreeSigned⟩

end CBlockchain.Transfer
