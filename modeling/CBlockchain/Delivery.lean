import CBlockchain.Agreement
import CBlockchain.MessageService
import CBlockchain.SignedBlocks
import CBlockchain.TransferBound
import CBlockchain.VerifyMessages

/-! What arrives, by the protocol. In every interleaving the server stays a representation of
the message service, so a client holds the first messages of the source in their order, and its
block commits to the first 512 of them: the same for every client and every run. -/
namespace CBlockchain.Transfer
open BlockProcess CalcMerkleTree ConnectionHandlers DataHandlers EventLoop Layering Automaton
open MessageService ReceiveLoop Serdes SignedBlocks VerifyMessages
variable {pf : Platform} {net net' : Net}

theorem perform_links_client (effects : List Effect) : ∀ (net : Net) (fd : Fd) (link : Link),
    (effects.foldl perform net).links fd = some link →
      ∃ old, net.links fd = some old ∧ old.client = link.client := by
  induction effects with
  | nil => exact fun _ _ link h => ⟨link, h, rfl⟩
  | cons e effects ih =>
    intro net fd link h
    rw [List.foldl_cons] at h
    obtain ⟨mid, hmid, hclient⟩ := ih _ fd link h
    have hon : ∀ (fd' : Fd) (f : Link → Link), (∀ l, (f l).client = l.client) →
        (net.onLink fd' f).links fd = some mid → ∃ old, net.links fd = some old ∧
          old.client = mid.client := by
      intro fd' f hf hl
      simp only [Net.onLink] at hl
      by_cases hfd : fd = fd'
      · subst hfd
        rw [Function.update_self, Option.map_eq_some_iff] at hl
        obtain ⟨old, hold, rfl⟩ := hl
        exact ⟨old, hold, (hf old).symm⟩
      · rw [Function.update_of_ne hfd] at hl
        exact ⟨mid, hl, rfl⟩
    have hpush : ∀ (frame : List UInt8) (l : Link), (l.push frame).client = l.client := by
      intro frame l
      rw [Link.push]
      split <;> rfl
    have hold : ∃ old, net.links fd = some old ∧ old.client = mid.client := by
      cases e with
      | submit sqe =>
        cases sqe with
        | send fd' data d => exact hon fd' _ (hpush data) hmid
        | _ => exact ⟨mid, hmid, rfl⟩
      | shutdownClose fd' => exact hon fd' Link.shut (fun _ => rfl) hmid
      | _ => exact ⟨mid, hmid, rfl⟩
    obtain ⟨old, hold, hsame⟩ := hold
    exact ⟨old, hold, hsame.trans hclient⟩

section Source

def Represented (pf : Platform) (net : Net) : Prop := ∃ v, Represents pf.src net.server v

theorem turn_represents {stamp : Stamp} {cqe : Cqe} {s server : Server} {effects : List Effect}
    (h : ∃ v, Represents pf.src s v) (turn : eventLoopStep pf stamp cqe s = some (server, effects)) :
    ∃ v, Represents pf.src server v := by
  obtain ⟨v, hv⟩ := h
  have hagree := eventLoopStep_agrees hv stamp cqe
  rw [turn] at hagree
  obtain ⟨v', -, hv'⟩ := hagree.exists_right
  exact ⟨v', hv'⟩

theorem step_represented (h : Represented pf net) (hstep : Step pf net net') :
    Represented pf net' := by
  cases hstep with
  | accepted stamp outstanding sign unused turn =>
    rw [Represented, perform_server]
    exact turn_represents h turn
  | refused stamp outstanding sign turn =>
    rw [Represented, perform_server]
    exact turn_represents h turn
  | handle stamp waiting turn =>
    rw [Represented, perform_server]
    exact turn_represents h turn
  | _ => exact h

theorem reaches_represented (h : Reaches pf net) : Represented pf net := by
  obtain ⟨start, hstart, hrun⟩ := h
  induction hrun with
  | refl =>
    obtain ⟨s, hs, hrep⟩ := start_represents pf
    rw [initial, hs, Option.bind_eq_bind, Option.bind_some, Option.some.injEq] at hstart
    rw [Represented, ← hstart]
    exact ⟨opened, hrep⟩
  | tail _ hstep ih => exact step_represented ih hstep

/-- A slot of the server's buffer that holds a message holds the one of its number. -/
theorem Represented.slotMsg_eq (h : Represented pf net) {j : ℕ} {m : SignedMessage}
    (hm : slotMsg net.server.cbuf j = some m) : m = pf.src.lsGetASignedMsg j := by
  obtain ⟨v, hv⟩ := h
  have hj := hv.ready.slotMsg_lt hm
  rw [hv.filled] at hj
  rw [hv.slotMsg hj, Option.some.injEq] at hm
  exact hm.symm

/-- The first `k` places of the array hold the first `k` messages of the source. -/
def HoldsFirst (src : MessageSource) (k : ℕ) (arr : List SignedMessage) : Prop :=
  ∀ j < k, ∃ slot, arr[j]? = some slot ∧ SameContent slot (src.lsGetASignedMsg j)

theorem reaches_holdsFirst (h : Reaches pf net) {fd : Fd} {link : Link}
    (on : net.links fd = some link) :
    HoldsFirst pf.src link.client.stored link.client.msgArr := by
  have hok := (reaches_sound h).fd fd
  rw [Net.Ok, on] at hok
  intro j hj
  obtain ⟨slot, m, hslot, hm, hsame⟩ := hok.taken.held j hj
  rw [(reaches_represented h).slotMsg_eq hm] at hsame
  exact ⟨slot, hslot, hsame⟩

theorem reaches_roots (h : Reaches pf net) : ∀ e ∈ net.roots, e.2 = blockRoot pf := by
  intro e he
  obtain ⟨msg, hmsg, hroot⟩ := (reaches_sound h).roots e he
  rw [hroot]
  apply PerfectTree.root_congr _ _ _
  intro i hi
  rw [(reaches_represented h).slotMsg_eq (hmsg i (by simpa using hi))]

end Source

section Blocks

/-- A client past its last message has stored all, and its block was made from them. -/
structure Prepared (H : GenericHash) (cl : Client) : Prop where
  all : cl.phase ≠ .receiving ↔ cl.stored = 512
  built : cl.phase = .filled → ∃ m fuel cl₀, assembleBlock H m fuel cl₀ = some cl

theorem Prepared.of_receiving {H : GenericHash} {cl : Client} (h : cl.phase = .receiving)
    (hlt : cl.stored < 512) : Prepared H cl where
  all := ⟨fun hne => absurd h hne, fun hall => absurd hall hlt.ne⟩
  built := fun hf => by simp [h] at hf

theorem Partway.stored_lt {cbuf : CircBuf} {k : ℕ} {cl : Client} (h : Partway cbuf k cl) :
    cl.stored < 512 := h.taken.stored.trans_lt h.lt

def AllPrepared (pf : Platform) (net : Net) : Prop :=
  ∀ fd link, net.links fd = some link → Prepared pf.H link.client

theorem AllPrepared.perform (h : AllPrepared pf net) (effects : List Effect) :
    AllPrepared pf (effects.foldl perform net) := by
  intro fd link on
  obtain ⟨old, hold, hclient⟩ := perform_links_client effects net fd link on
  rw [← hclient]
  exact h fd old hold

theorem AllPrepared.update (h : AllPrepared pf net) {fd : Fd} (link : Link)
    (hl : Prepared pf.H link.client) {net' : Net}
    (hlinks : net'.links = Function.update net.links fd (some link)) : AllPrepared pf net' := by
  intro fd' link' on
  rw [hlinks] at on
  by_cases hfd : fd' = fd
  · subst hfd
    rw [Function.update_self, Option.some.injEq] at on
    rw [← on]
    exact hl
  · rw [Function.update_of_ne hfd] at on
    exact h fd' link' on

theorem Completes.client {l l' : Option Link} {sqe : Sqe} {cqe : Cqe} (h : Completes l sqe cqe l')
    {link' : Link} (on : l' = some link') : ∃ link, l = some link ∧ link.client = link'.client := by
  cases h with
  | sent => exact ⟨_, rfl, congrArg _ (Option.some.inj on)⟩
  | received => exact ⟨_, rfl, by rw [← Option.some.inj on]⟩
  | _ => exact ⟨link', on, rfl⟩

/-- A turn of a client leaves it receiving, or past its last message. -/
theorem answer_prepared (hs : Sound pf net) {fd : Fd} {link : Link} {cl : Client}
    {sent : List (Target × List UInt8)} {stamp : Stamp} (on : net.links fd = some link)
    (isOpen : link.isOpen = true) (phase : link.client.phase = .receiving)
    (turn : clientTurn pf.codec stamp link.client = some (cl, sent)) : Prepared pf.H cl := by
  have hok := hs.fd fd
  rw [Net.Ok, on] at hok
  generalize net.server.befferSendedN fd = b at hok
  cases hok with
  | abandoned sign late => simp [late.closed] at isOpen
  | exchange sign joint =>
    cases joint with
    | toClient _ _ _ idle => simp [idle.no_turn] at turn
    | toServer _ _ reply => simp [reply.no_turn phase] at turn
    | atServer _ _ _ reply => simp [reply.no_turn phase] at turn
    | finished _ complete => exact absurd phase complete.phase
    | @atClient k f _ waits question unread part out back =>
      cases question with
      | ask =>
        obtain ⟨cl', hturn, hwait, -, hstored, -⟩ :=
          clientTurn_ask unread stamp (readOnlyStatusResponse_send _ _ (by simp [Status.Named]))
        rw [hturn, Option.some.injEq, Prod.mk.injEq] at turn
        rw [← turn.1]
        exact .of_receiving hwait.phase (hstored ▸ part.stored_lt)
      | @message _ m slot =>
        have hm := hs.ready.length_le slot
        by_cases hlast : k = 511
        · obtain ⟨cl', slot', hturn, hphase, -, hstored, -⟩ :=
            clientTurn_last unread stamp rfl hm (part.count.trans hlast) part.taken.length
              part.taken.room
          rw [hturn, Option.some.injEq, Prod.mk.injEq] at turn
          rw [← turn.1]
          have hall : cl'.stored = 512 := by rw [hstored, part.taken.stored, hlast]
          exact ⟨iff_of_true (by simp [hphase]) hall, fun hf => by simp [hphase] at hf⟩
        · have hlt := part.lt
          have hk := part.taken.stored
          obtain ⟨cl', slot', hturn, hwait, -, hstored, -⟩ :=
            clientTurn_message unread stamp rfl hm (by rw [part.count]; omega) part.taken.length
              part.taken.room
          rw [hturn, Option.some.injEq, Prod.mk.injEq] at turn
          rw [← turn.1]
          exact .of_receiving hwait.phase (by omega)

theorem step_prepared (hs : Sound pf net) (h : AllPrepared pf net) (hstep : Step pf net net') :
    AllPrepared pf net' := by
  cases hstep with
  | accepted stamp outstanding sign unused turn =>
    apply AllPrepared.perform
    exact h.update ⟨true, [], [], connectedClient⟩ (.of_receiving rfl (Nat.succ_pos 511)) rfl
  | refused stamp outstanding sign turn =>
    apply AllPrepared.perform
    exact h
  | handle stamp waiting turn =>
    apply AllPrepared.perform
    exact h
  | @post fd l₁ l₂ sqe cqe l outstanding completes =>
    intro fd' link' on
    by_cases hfd : fd' = fd
    · subst hfd
      have hl : l = some link' := by simpa using on
      obtain ⟨link, hlink, hclient⟩ := completes.client hl
      rw [← hclient]
      exact h _ link hlink
    · exact h fd' link' (by simpa [Function.update_of_ne hfd] using on)
  | @deliver fd link fs rest on isOpen next hne fits waits =>
    have hp : Prepared pf.H (receive fs.flatten link.client) := 
      ⟨(h _ _ on).all, fun hf => by cases waits.phase.symm.trans hf⟩
    exact h.update { link with toClient := rest, client := receive fs.flatten link.client } hp rfl
  | clientTurn stamp on isOpen phase turn =>
    exact h.update _ (answer_prepared hs on isOpen phase turn) rfl
  | assemble m fuel on phase done =>
    obtain ⟨hfilled, -, hstored, -⟩ := assembleBlock_spec done
    have hall := (h _ _ on).all.mp (by rw [phase]; decide)
    exact h.update _ ⟨iff_of_true (by rw [hfilled]; decide) (hstored.trans hall),
      fun _ => ⟨m, fuel, _, done⟩⟩ rfl

theorem reaches_prepared (h : Reaches pf net) : AllPrepared pf net := by
  obtain ⟨start, hstart, hrun⟩ := h
  induction hrun with
  | refl =>
    obtain ⟨cbuf, hinit, -⟩ := initial_spec pf
    rw [hinit, Option.some.injEq] at hstart
    intro fd link on
    rw [← hstart] at on
    cases on
  | tail hrun hstep ih =>
    exact step_prepared (steps_sound (initial_sound hstart) hrun) ih hstep

theorem slotAt_holdsFirst {src : MessageSource} {arr : List SignedMessage} {k : ℕ}
    (h : HoldsFirst src k arr) {i : ℕ} (hi : i < k) :
    SameContent (slotAt arr i) (src.lsGetASignedMsg i) := by
  obtain ⟨slot, hslot, hsame⟩ := h i hi
  rw [slotAt, List.getD, hslot]
  exact hsame

/-- The messages a client holds give the root that the server prints. -/
theorem root_of_holdsFirst {arr : List SignedMessage} (h : HoldsFirst pf.src 512 arr) :
    PerfectTree.root (Hashing.calcHash pf.H) (Hashing.merge2hashses pf.H) 9 (slotAt arr) =
      blockRoot pf := by
  apply PerfectTree.root_congr _ _ _
  intro i hi
  rw [Hashing.calcHash, Hashing.calcHash, (slotAt_holdsFirst h (by simpa using hi)).bytes]

/-- What an assembled client has: the tree of its messages, a block that commits to their
root, and every message verified. -/
theorem assembleBlock_contents {H : GenericHash} {m : Machine} {fuel : ℕ} {cl cl' : Client}
    (hlen : cl.msgArr.length = 512) (h : assembleBlock H m fuel cl = some cl') :
    ∃ cont mem block, cl'.tree = some (cont, mem) ∧ cl'.block = some block ∧
      calcMerkleTree H 9 0 (.ofMessages cl'.msgArr) = some (cont, mem) ∧
      ChecksAgainst H (PerfectTree.root (Hashing.calcHash H) (Hashing.merge2hashses H) 9
        (slotAt cl'.msgArr)) block ∧ cl'.verResult = 512 := by
  simp only [assembleBlock, Option.bind_eq_bind, Option.bind_eq_some_iff, Option.some.injEq,
    Prod.exists] at h
  obtain ⟨cont, mem, hcalc, block, hblock, verResult, hverify, rfl⟩ := h
  refine ⟨cont, mem, block, rfl, rfl, hcalc, ?_, ?_⟩
  · obtain ⟨cont', mem', hrun, -, hb, -⟩ := tree_of_slots H hlen
    obtain ⟨rfl, rfl⟩ : cont' = cont ∧ mem' = mem := by simpa using hrun.symm.trans hcalc
    obtain ⟨top, htop, hq, hroot⟩ := processingBlock_sound H hblock
    rw [storedHash_of_built H hb (by norm_num) (by norm_num), MerkleTree.referenceHash_zero,
      Option.some.injEq] at htop
    rw [htop]
    exact ⟨hroot, hq⟩
  · obtain ⟨cont', mem', hrun, hread, hb, -⟩ := tree_of_slots H hlen
    obtain ⟨rfl, rfl⟩ : cont' = cont ∧ mem' = mem := by simpa using hrun.symm.trans hcalc
    rw [verifyAll_of_built H hb hread] at hverify
    exact (Option.some.inj hverify).symm

theorem filled_block (h : Reaches pf net) {fd : Fd} {link : Link} (on : net.links fd = some link)
    (filled : link.client.phase = .filled) :
    link.client.stored = 512 ∧ link.client.verResult = 512 ∧
      ∃ block, link.client.block = some block ∧ ChecksAgainst pf.H (blockRoot pf) block := by
  have hprep := reaches_prepared h fd link on
  have hstored := hprep.all.mp (by rw [filled]; decide)
  have hholds := reaches_holdsFirst h on
  have hok := (reaches_sound h).fd fd
  rw [Net.Ok, on] at hok
  rw [hstored] at hholds
  obtain ⟨m, fuel, cl₀, hassemble⟩ := hprep.built filled
  have harr := (assembleBlock_spec hassemble).2.2.2
  obtain ⟨cont, mem, block, -, hblock, -, hcheck, hver⟩ :=
    assembleBlock_contents (harr ▸ hok.taken.length) hassemble
  rw [root_of_holdsFirst hholds] at hcheck
  exact ⟨hstored, hver, block, hblock, hcheck⟩

end Blocks

section Signatures
variable {signOpen : SignOpen}

/-- What `crypto_sign` makes of the texts of the source, `crypto_sign_open` opens under the
keys of their pairs. -/
def OpensSource (signOpen : SignOpen) (src : MessageSource) : Prop :=
  ∀ n, signOpen ((src.signature (src.keys n).sk (src.text n).toList).toList ++ (src.text n).toList)
    (src.keys n).pk

theorem OpensSource.validates {src : MessageSource} (h : OpensSource signOpen src) (n : ℕ) :
    validateAMessage signOpen (src.lsGetASignedMsg n) (src.lsGetASignedMsg n).publicKey =
      some 1 := by
  have hlong : ¬ (src.lsGetASignedMsg n).length < 64 := by simp
  have hbytes : (src.lsGetASignedMsg n).bytes =
      (src.signature (src.keys n).sk (src.text n).toList).toList ++ (src.text n).toList := by
    rw [SignedMessage.bytes, List.take_of_length_le]
    · rfl
    · simp [MessageSource.lsGetASignedMsg, MessageSource.signAMessage]
  rw [validateAMessage, if_neg hlong, hbytes]
  exact congrArg some (if_pos (h n))

theorem SameContent.validate {m m' : SignedMessage} (h : SameContent m m') :
    validateAMessage signOpen m m.publicKey = validateAMessage signOpen m' m'.publicKey := by
  rw [validateAMessage, validateAMessage, h.bytes, h.length, h.publicKey]

/-- Each message a client has stored is valid under its own key, and so is every message of a
tree it has built. -/
theorem reaches_signed (h : Reaches pf net) (opens : OpensSource signOpen pf.src) :
    ∀ fd link, net.links fd = some link →
      (∀ j < link.client.stored, validateAMessage signOpen (slotAt link.client.msgArr j)
        (slotAt link.client.msgArr j).publicKey = some 1) ∧
      (link.client.phase = .filled → ∃ cont mem, link.client.tree = some (cont, mem) ∧
        TreeSigned signOpen cont mem) := by
  intro fd link on
  have hholds := reaches_holdsFirst h on
  have hvalid : ∀ j < link.client.stored, validateAMessage signOpen
      (slotAt link.client.msgArr j) (slotAt link.client.msgArr j).publicKey = some 1 := by
    intro j hj
    rw [SameContent.validate (slotAt_holdsFirst hholds hj)]
    exact opens.validates j
  refine ⟨hvalid, fun filled => ?_⟩
  have hprep := reaches_prepared h fd link on
  have hstored := hprep.all.mp (by rw [filled]; decide)
  obtain ⟨m, fuel, cl₀, hassemble⟩ := hprep.built filled
  have hok := (reaches_sound h).fd fd
  rw [Net.Ok, on] at hok
  obtain ⟨cont, mem, -, htree, -, hcalc, -⟩ := assembleBlock_contents
    ((assembleBlock_spec hassemble).2.2.2 ▸ hok.taken.length) hassemble
  refine ⟨cont, mem, htree, (treeSigned_iff_slots hok.taken.length hcalc).mpr ?_⟩
  rw [hstored] at hvalid
  exact hvalid

end Signatures

end CBlockchain.Transfer
