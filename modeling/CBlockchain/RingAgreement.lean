import CBlockchain.Delivery
import CBlockchain.RingRuns

/-! Agreement on the contents of a block over the ring. It holds in every run whose finishes
are all harmless. Where the leftover entry of a finish is a send to a client that is still
served, this client receives one message twice and stores it in two slots. -/
namespace CBlockchain.Transfer
open CalcMerkleTree ConnectionHandlers DataHandlers EventLoop ReceiveLoop RequestData Serdes
variable {pf : Platform} {net net' : Net} {fd : Fd} {stamp : Stamp}

/-- In every state reached by a run whose finishes are harmless: a client that has stored 512
messages holds the server's slots, all such clients hold the same list, and the root of the
client's tree is that of the server's tree, now and whenever the server printed one. -/
theorem transfer_agreement {pf : Platform} {net : Net} (h : RingReaches pf HarmlessFinish net) :
    (∀ fd link, net.links fd = some link → link.client.stored = 512 →
      HoldsBlock net.server.cbuf link.client.msgArr) ∧
    (∀ fd₁ fd₂ link₁ link₂, net.links fd₁ = some link₁ → net.links fd₂ = some link₂ →
      link₁.client.stored = 512 → link₂.client.stored = 512 →
      List.Forall₂ SameContent link₁.client.msgArr link₂.client.msgArr) ∧
    ∀ fd link, net.links fd = some link → link.client.stored = 512 → ∃ cont mem hash,
      CalcMerkleTree.calcMerkleTree pf.H 9 0 (.ofMessages link.client.msgArr) = some (cont, mem) ∧
      storedHash mem cont.mainLayerPointer 0 0 = some hash ∧
      ConnectionHandlers.calcMerkleTree pf.H net.server.cbuf.buffer net.server.cbuf.msgs =
        some hash ∧
      ∀ e ∈ net.roots, e.2 = hash := by
  obtain ⟨ideal, hreach, hm⟩ := h.exists_ideal
  have hclient : ∀ fd link, net.links fd = some link → link.client.stored = 512 →
      ∃ il, ideal.links fd = some il ∧ il.client = link.client := by
    intro fd link on hstored
    rcases hm.client_cases on with hfirst | hideal
    · rw [hfirst] at hstored
      cases hstored
    · exact hideal
  obtain ⟨hholds, hsame, hroots⟩ := reaches_agreement hreach
  rw [hm.server, hm.roots]
  refine ⟨fun fd link on hstored => ?_, fun fd₁ fd₂ link₁ link₂ on₁ on₂ h₁ h₂ => ?_,
    fun fd link on hstored => ?_⟩
  · obtain ⟨il, hil, hcl⟩ := hclient fd link on hstored
    rw [← hcl] at hstored ⊢
    exact hholds fd il hil hstored
  · obtain ⟨il₁, hil₁, hcl₁⟩ := hclient fd₁ link₁ on₁ h₁
    obtain ⟨il₂, hil₂, hcl₂⟩ := hclient fd₂ link₂ on₂ h₂
    rw [← hcl₁] at h₁ ⊢
    rw [← hcl₂] at h₂ ⊢
    exact hsame fd₁ fd₂ il₁ il₂ hil₁ hil₂ h₁ h₂
  · obtain ⟨il, hil, hcl⟩ := hclient fd link on hstored
    rw [← hcl] at hstored ⊢
    exact hroots fd il hil hstored

theorem transfer_agreement_one_client :
    ∃ net link cont mem hash, RingReaches ServerClosing.plainPlatform HarmlessFinish net ∧
      net.links 5 = some link ∧ link.client.stored = 512 ∧
      HoldsBlock net.server.cbuf link.client.msgArr ∧
      CalcMerkleTree.calcMerkleTree ServerClosing.plainPlatform.H 9 0
        (.ofMessages link.client.msgArr) = some (cont, mem) ∧
      storedHash mem cont.mainLayerPointer 0 0 = some hash ∧ (5, hash) ∈ net.roots := by
  have hfit : FitsBuffers ServerClosing.plainPlatform.codec ServerClosing.zeroStamp :=
    wireCodec_fits (Nat.zero_le _)
  obtain ⟨start, net, link, hstart, hrun, on, hstored, printed, hmem⟩ :=
    exists_ring_served hfit (by decide : (5 : Fd).msb = false)
  have hreach : RingReaches ServerClosing.plainPlatform HarmlessFinish net := ⟨start, hstart, hrun⟩
  obtain ⟨hholds, -, hroots⟩ := transfer_agreement hreach
  obtain ⟨cont, mem, hash, hcalc, hroot, -, hall⟩ := hroots 5 link on hstored
  refine ⟨net, link, cont, mem, hash, hreach, on, hstored, hholds 5 link on hstored, hcalc, hroot, ?_⟩
  rw [← hall _ hmem]
  exact hmem

section SentAgain

/-- No connection carries more than one frame in a direction, so each receive returns one. -/
def Net.SingleFrames (net : Net) : Prop :=
  ∀ fd link, net.links fd = some link → link.isOpen = true →
    link.toClient.length ≤ 1 ∧ link.toServer.length ≤ 1

theorem Sound.singleFrames (hs : Sound pf net) : net.SingleFrames := by
  intro fd link on isOpen
  have hok := hs.fd fd
  rw [Net.Ok, on] at hok
  cases hok with
  | abandoned _ late => simp [late.closed] at isOpen
  | exchange _ joint =>
    cases joint with
    | toClient _ _ _ _ _ out back => simp [out, back]
    | atClient _ _ _ _ _ out back => simp [out, back]
    | toServer _ _ _ out back => simp [out, back]
    | atServer _ _ _ _ out back => simp [out, back]
    | finished _ _ _ out back => simp [out, back]

theorem Net.SingleFrames.update (h : net.SingleFrames) {link : Link}
    (hl : link.toClient.length ≤ 1 ∧ link.toServer.length ≤ 1)
    (hlinks : net'.links = Function.update net.links fd (some link)) : net'.SingleFrames := by
  intro fd' link' on isOpen
  rw [hlinks] at on
  by_cases hfd : fd' = fd
  · subst hfd
    rw [Function.update_self, Option.some.injEq] at on
    rwa [← on]
  · rw [Function.update_of_ne hfd] at on
    exact h fd' link' on isOpen

theorem lastUse_eq {es es' : List Sqe} {sqe : Sqe} (h : net.entries = es ++ sqe :: es')
    (hlen : es'.length = 1023) : net.lastUse = some sqe := by
  have hlength : net.entries.length = es.length + ringEntries := by
    rw [h, List.length_append, List.length_cons, hlen, ringEntries]
  rw [Net.lastUse, if_pos (by omega), hlength, Nat.add_sub_cancel, h, List.getElem?_append_right le_rfl,
    Nat.sub_self]
  rfl

/-- A leftover send puts the bytes that stand in the buffer on its connection once more. -/
theorem submitLeftover_send {fd' : Fd} {f : List UInt8} {d d' : BitVec 64}
    (last : net.lastUse = some (.send fd' f d')) (front : (net.buffers fd').take f.length = f) :
    net.submitLeftover d =
      (net.addOp (requestDataClientFd d) (.send fd' f d)).onLink fd' (Link.push f) := by
  have hleft : net.leftover d = .send fd' f d := by
    rw [Net.leftover, last]
    exact congrArg (Sqe.send fd' · d) front
  rw [Net.submitLeftover, hleft]

/-- A question that has been sent to one client stays while another one is served. -/
theorem Posed.beside {net' : Net} {f : List UInt8} {k : ℕ} {cl : Client} (h : Posed pf net fd f k cl)
    (hs' : Sound pf net') (ops : net'.ops fd = net.ops fd) (links : net'.links fd = net.links fd) :
    Posed pf net' fd f k cl := by
  refine ⟨hs', h.sign, ops.trans h.ops, links.trans h.link, h.waits, ?_⟩
  have hok := hs'.fd fd
  rw [Net.Ok, links.trans h.link] at hok
  cases hok with
  | abandoned _ late => cases late.closed
  | exchange _ joint =>
    cases joint with
    | toClient _ _ _ _ part =>
      rw [← h.part.count, part.count]
      exact part
    | atClient _ _ _ _ _ out => cases out
    | toServer _ _ _ out => cases out
    | atServer _ _ _ _ out => cases out
    | finished _ _ _ out => cases out

/-- The client has stored message 510, and its acknowledgement is under way. -/
structure Ahead (net : Net) (fd : Fd) (cl : Client) : Prop where
  link : ∃ g, net.links fd = some ⟨true, [], [g], cl⟩
  waits : Waiting cl
  part : Partway net.server.cbuf 511 cl

theorem Posed.ahead {cl : Client} {m : SignedMessage} (hfit : FitsBuffers pf.codec stamp)
    (h : Posed pf net fd (serializeDataV2 pf.codec stamp m) 510 cl)
    (hslot : slotMsg net.server.cbuf 510 = some m) :
    ∃ net' cl', Relation.ReflTransGen (Step pf) net net' ∧ Sound pf net' ∧
      Ahead net' fd cl' ∧ net'.server = net.server ∧
      net'.buffers = net.buffers ∧ net'.entries = net.entries ∧ Beside fd 0 net net' := by
  have hm := h.sound.ready.length_le hslot
  have hfm := hfit.message m hm
  obtain ⟨cl', slot, hturn, hwait, hcount, hstored, harr, hsame, hroom⟩ :=
    clientTurn_message (h.waits.receive hfm) stamp rfl hm (h.part.count.trans_lt (by norm_num))
      h.part.taken.length h.part.taken.room
  have htaken := h.part.taken.store hstored (harr.trans (by rw [← h.part.count]; rfl)) h.part.lt hslot
    hsame hroom
  set f := serializeDataV2 pf.codec stamp m
  have hdeliver : Step pf (net.setFd fd (net.ops fd) ⟨true, [f], [], cl⟩)
      (net.setFd fd (net.ops fd) ⟨true, [], [], receive f cl⟩) := step_deliver rfl rfl hfm h.waits
  have hanswer : Step pf (net.setFd fd (net.ops fd) ⟨true, [], [], receive f cl⟩)
      (net.setFd fd (net.ops fd) ⟨true, [], [sendOnlyStatusCode pf.codec stamp .acknOk], cl'⟩) :=
    step_answer rfl h.waits.phase hturn
  rw [Net.setFd_self rfl h.link] at hdeliver
  have hs' := step_sound (step_sound h.sound hdeliver) hanswer
  refine ⟨_, cl', .head hdeliver (.single hanswer), hs', ⟨⟨_, Function.update_self _ _ _⟩, hwait, ?_⟩, rfl, rfl,
    rfl, ⟨fun fd' hne => Function.update_of_ne hne _ _, fun fd' hne => Function.update_of_ne hne _ _,
      fun _ _ => rfl, fun _ _ => rfl, rfl, rfl, [], (List.append_nil _).symm, rfl⟩⟩
  exact ⟨by norm_num, hcount.trans (congrArg (· + 1) h.part.count), htaken⟩

theorem Ahead.beside {net' : Net} {cl : Client} (h : Ahead net fd cl) (hs' : Sound pf net')
    (links : net'.links fd = net.links fd) : Ahead net' fd cl := by
  obtain ⟨g, hg⟩ := h.link
  refine ⟨⟨g, links.trans hg⟩, h.waits, ?_⟩
  have hok := hs'.fd fd
  rw [Net.Ok, links.trans hg] at hok
  have hpart : ∀ {k : ℕ}, Partway net'.server.cbuf k cl → Partway net'.server.cbuf 511 cl := by
    intro k part
    rw [← h.part.count, part.count]
    exact part
  generalize net'.server.befferSendedN fd = b at hok
  cases hok with
  | abandoned _ late => cases late.closed
  | exchange _ joint =>
    cases joint with
    | toClient _ _ _ _ _ _ back => cases back
    | atClient _ _ _ _ _ _ back => cases back
    | toServer _ _ reply =>
      cases reply with
      | needMore _ _ part => exact hpart part
      | acknOk _ _ part => exact hpart part
      | enough _ complete => exact absurd h.waits.phase complete.phase
    | atServer _ _ _ _ _ back => cases back
    | finished _ _ _ _ back => cases back

/-- The finish of one client sends a message to another one that is waiting for its last: this
one stores it in its last slot. -/
theorem finish_repeats {fd' : Fd} {cl cl' : Client} {m : SignedMessage} {d : BitVec 64}
    (hfit : FitsBuffers pf.codec stamp) (hne : fd' ≠ fd) (hs : Sound pf net)
    (arrived : Arrived net fd (sendOnlyStatusCode pf.codec stamp .enough) cl) (sign : fd.msb = false)
    (taken : Taken net.server.cbuf 512 cl) (ahead : Ahead net fd' cl') (hm : m.length ≤ 512)
    (last : net.lastUse = some (.send fd' (serializeDataV2 pf.codec stamp m) d))
    (front : (net.buffers fd').take (serializeDataV2 pf.codec stamp m).length =
      serializeDataV2 pf.codec stamp m) :
    ∃ net' link link' slot, Relation.ReflTransGen
        (fun net net' => RingStep pf net net' ∧ net.SingleFrames) net net' ∧
      Grows net.server.cbuf net'.server.cbuf ∧ net'.links fd = some link ∧ link.client = cl ∧
      net'.links fd' = some link' ∧ link'.client.stored = 512 ∧
      link'.client.msgArr[511]? = some slot ∧ SameContent slot m := by
  set f := serializeDataV2 pf.codec stamp m
  obtain ⟨-, server, hash, hgrow, hfinish⟩ := arrived.ring_finish hfit hs sign taken
  set net₁ : Net := { net with
    server := server
    ops := Function.update net.ops fd []
    roots := net.roots ++ [(fd, hash)] }
  have hlast : net₁.lastUse = some (.send fd' f d) := last
  rw [submitLeftover_send hlast front] at hfinish
  set net₂ := (net₁.addOp (requestDataClientFd (makeRequestData fd .flagCloseConnection))
    (.send fd' f (makeRequestData fd .flagCloseConnection))).onLink fd' (Link.push f)
  obtain ⟨g, hg⟩ := ahead.link
  have hlinks₂ : net₂.links = Function.update net.links fd' (some ⟨true, [f], [g], cl'⟩) := by
    simp [net₂, net₁, Net.onLink, Net.addOp, hg, Link.push]
  have on₂ : net₂.links fd' = some ⟨true, [f], [g], cl'⟩ := by rw [hlinks₂, Function.update_self]
  have hfm := hfit.message m hm
  have hdeliver : RingWork pf fd' net₂ _ := .deliver on₂ rfl (List.append_nil [f]).symm
    (List.cons_ne_nil f []) (by rwa [List.flatten_singleton]) ahead.waits
  rw [List.flatten_singleton] at hdeliver
  set net₃ : Net := { net₂ with
    links := Function.update net₂.links fd' (some ⟨true, [], [g], receive f cl'⟩) }
  obtain ⟨cl'', slot, hturn, -, -, hstored, harr, hsame, -⟩ :=
    clientTurn_last (ahead.waits.receive hfm) stamp rfl hm ahead.part.count ahead.part.taken.length
      ahead.part.taken.room
  have on₃ : net₃.links fd' = some ⟨true, [], [g], receive f cl'⟩ := Function.update_self _ _ _
  have hanswer : RingWork pf fd' net₃ _ := .clientTurn stamp on₃ rfl ahead.waits.phase hturn
  have hframes₂ : net₂.SingleFrames := hs.singleFrames.update (by simp) hlinks₂
  have hframes₃ : net₃.SingleFrames := hframes₂.update (by simp) rfl
  refine ⟨_, ⟨true, [], [], cl⟩, _, slot, .head ⟨.inr ⟨fd, hfinish⟩, hs.singleFrames⟩
    (.head ⟨.inr ⟨fd', hdeliver⟩, hframes₂⟩ (.single ⟨.inr ⟨fd', hanswer⟩, hframes₃⟩)), hgrow, ?_, rfl,
    Function.update_self _ _ _, ?_, ?_, hsame⟩
  · simp [net₃, hlinks₂, Function.update_of_ne hne.symm, arrived.link]
  · rw [hstored]
    exact congrArg (· + 1) ahead.part.taken.stored
  · have hlen := ahead.part.taken.length
    have hcount : (receive f cl').count = 511 := ahead.part.count
    rw [harr, hcount]
    exact List.getElem?_set_self (by rw [show (receive f cl').msgArr = cl'.msgArr from rfl, hlen]; norm_num)

/-- Client 6 holds 510 messages when client 5 connects and takes 256. Client 6 is then sent its
next message, 1024 submissions before the finish of client 5. It stores this message and waits
for the one after it, while client 5 takes the rest and reports `ENOUGH`. -/
theorem exists_disagreement (hfit : FitsBuffers pf.codec stamp)
    (hdiff : (pf.src.lsGetASignedMsg 510).bytes ≠ (pf.src.lsGetASignedMsg 511).bytes) :
    ∃ net link link', RingReaches pf (fun net _ => net.SingleFrames) net ∧
      net.links 5 = some link ∧ net.links 6 = some link' ∧ link.client.stored = 512 ∧
      link'.client.stored = 512 ∧ HoldsBlock net.server.cbuf link.client.msgArr ∧
      ¬ HoldsBlock net.server.cbuf link'.client.msgArr ∧
      ¬ List.Forall₂ SameContent link.client.msgArr link'.client.msgArr := by
  have hne : (6 : Fd) ≠ 5 := by decide
  obtain ⟨start, net₁, clB, hstart, run₁, hB₁, hbB₁, bes₁⟩ :=
    exists_asked hfit (by decide : (6 : Fd).msb = false) (by norm_num : 510 < 512)
  have hone : start.accepts = 0 + 1 := by
    obtain ⟨cbuf, hinit, -⟩ := initial_spec pf
    rw [hinit, Option.some.injEq] at hstart
    rw [← hstart]
    rfl
  obtain ⟨net₂, step₂, hA₂, hbA₂, bes₂⟩ := connect hB₁.sound stamp (bes₁.accepts.trans hone)
    (by decide : (5 : Fd).msb = false) ((bes₁.links 5 hne.symm).trans (initial_links hstart 5))
  obtain ⟨net₃, clA, run₃, hA₃, hbA₃, bes₃⟩ := Posed.rounds hfit 256 hA₂ hbA₂ (by norm_num)
  have besA := bes₂.trans bes₃
  have hB₃ := hB₁.beside hA₃.sound (besA.ops 6 hne) (besA.links 6 hne)
  obtain ⟨net₄, m, clB₄, run₄, hB₄, hlast, hslot, hbB₄, bes₄⟩ :=
    hB₃.offer hfit ((besA.counters 6 hne).trans hbB₁)
  obtain ⟨net₅, clB₅, run₅, hs₅, hahead, hserver₅, hbuffers₅, hentries₅, bes₅⟩ := hB₄.ahead hfit hslot
  have besB := bes₄.trans bes₅
  have hA₅ := hA₃.beside hs₅ (besB.ops 5 hne.symm) (besB.links 5 hne.symm)
  obtain ⟨net₆, clA₆, run₆, hA₆, hbA₆, bes₆⟩ := Posed.rounds hfit 255 hA₅
    ((besB.counters 5 hne.symm).trans hbA₃) (by norm_num)
  obtain ⟨net₇, m', clA₇, run₇, hA₇, -, hslot₇, -, bes₇⟩ := hA₆.offer hfit hbA₆
  obtain ⟨net₈, clA₈, run₈, hs₈, harrived, htaken, bes₈⟩ := hA₇.enough hfit hslot₇
  have bes := (bes₆.trans bes₇).trans bes₈
  have hrun₄ : Relation.ReflTransGen (Step pf) start net₄ := (run₁.tail step₂).trans (run₃.trans run₄)
  have hrun₈ := hrun₄.trans (run₅.trans (run₆.trans (run₇.trans run₈)))
  have hroots : net₈.roots = start.roots :=
    bes.roots.trans (besB.roots.trans (besA.roots.trans bes₁.roots))
  have hquiet := steps_ring (fun _ _ hs _ => hs.singleFrames) (initial_sound hstart) hrun₈ hroots
  obtain ⟨es, hes⟩ := hlast.entry
  obtain ⟨es', hes', hlen⟩ := bes.entries
  rw [hentries₅, hes, List.append_assoc, List.singleton_append] at hes'
  have hfront := hlast.front
  rw [← hbuffers₅, ← bes.buffers 6 hne] at hfront
  obtain ⟨net, link, link', slot, hfinish, hgrow, on, hcl, on', hstored', hslot', hsame⟩ :=
    finish_repeats hfit hne hs₈ harrived (by decide) htaken (hahead.beside hs₈ (bes.links 6 hne))
      (hB₄.sound.ready.length_le hslot) (lastUse_eq hes' hlen) hfront
  have hholds : HoldsBlock net.server.cbuf link.client.msgArr := hcl ▸ (htaken.grow hgrow).holdsBlock
  obtain ⟨slotA, mA, hslotA, hmA, hsameA⟩ := hholds.slots 511 (by norm_num)
  -- the two messages are those of the source with the numbers 510 and 511
  have hm : m = pf.src.lsGetASignedMsg 510 :=
    (reaches_represented ⟨start, hstart, hrun₄⟩).slotMsg_eq hslot
  have hm' : mA = pf.src.lsGetASignedMsg 511 := by
    obtain ⟨m'', hm''⟩ := htaken.slots 511 (by norm_num)
    rw [hgrow 511 m'' hm'', Option.some.injEq] at hmA
    rw [← hmA]
    exact (reaches_represented ⟨start, hstart, hrun₈⟩).slotMsg_eq hm''
  have hbytes : slot.bytes ≠ mA.bytes := by
    rw [hsame.bytes, hm, hm']
    exact hdiff
  refine ⟨net, link, link', ⟨start, hstart, hquiet.trans hfinish⟩, on, on', ?_, hstored', hholds,
    fun hB => ?_, fun hall => ?_⟩
  · rw [hcl]
    exact htaken.stored
  · obtain ⟨slotB, mB, hslotB, hmB, hsameB⟩ := hB.slots 511 (by norm_num)
    rw [hslot', Option.some.injEq] at hslotB
    rw [hmA, Option.some.injEq] at hmB
    rw [hslotB, hmB] at hbytes
    exact hbytes hsameB.bytes
  · obtain ⟨hlt, hget⟩ := List.getElem?_eq_some_iff.mp hslotA
    obtain ⟨hlt', hget'⟩ := List.getElem?_eq_some_iff.mp hslot'
    have hpair : SameContent link.client.msgArr[511] link'.client.msgArr[511] := hall.get hlt hlt'
    rw [hget, hget'] at hpair
    exact hbytes (hpair.bytes.symm.trans hsameA.bytes)

/-- Texts that differ from one message to the next. -/
def letterPlatform : Platform where
  H := ServerClosing.plainPlatform.H
  codec := wireCodec
  src := ⟨fun _ => ⟨Vector.replicate 64 0, Vector.replicate 32 0⟩,
    fun n => Vector.replicate 100 (UInt8.ofNat (65 + n % 26)), fun _ _ => Vector.replicate 64 0⟩

/-- Two clients that have stored 512 messages hold different lists. -/
theorem transfer_disagrees : ∃ net link link',
    RingReaches letterPlatform (fun net _ => net.SingleFrames) net ∧
      net.links 5 = some link ∧ net.links 6 = some link' ∧ link.client.stored = 512 ∧
      link'.client.stored = 512 ∧ HoldsBlock net.server.cbuf link.client.msgArr ∧
      ¬ HoldsBlock net.server.cbuf link'.client.msgArr ∧
      ¬ List.Forall₂ SameContent link.client.msgArr link'.client.msgArr := by
  have hfit : FitsBuffers letterPlatform.codec ServerClosing.zeroStamp := wireCodec_fits (Nat.zero_le _)
  exact exists_disagreement hfit (by decide)

end SentAgain

end CBlockchain.Transfer
