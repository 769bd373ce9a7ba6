import CBlockchain.BlockReady

/-! What peers are offered over the life of a client. The shared block is written once, under
the mutex, and never again; a peer that asks finds either nothing written yet, and is sent an
empty frame, or the one block of this client. -/
namespace CBlockchain.BlockOffers
open BlockReady ClientLoop P2pEventLoop P2pRuns P2pSerdes ReceiveLoop
variable {pf : ClientPlatform} {th th' : Threads} {cqe : Cqe} {effects : List P2pEffect}
  {p2p : P2pSystem} {fd : Fd} {frame : List UInt8}

/-- A turn that goes through `P2Pser_send_block` and submits `frame` for the peer on `fd`. -/
structure Offers (effects : List P2pEffect) (fd : Fd) (frame : List UInt8) : Prop where
  entered : .sendBlock fd ∈ effects
  sent : ∃ d, .submit (.send fd frame d) ∈ effects

section Turns
variable {date : CString} {sh : Shared}

theorem handleStatus_of_sendBlock {codec : P2pCodec} {ready : Bool} {fd' : Fd} {status : P2pStatus}
    (h : .sendBlock fd ∈ handleStatus codec date sh ready fd' status) :
    handleStatus codec date sh ready fd' status = p2pserSendBlock sh fd ∧ ready = true := by
  cases status with
  | askIfBlockReady =>
    cases ready with
    | true =>
      simp only [handleStatus, if_true, p2pserSendBlock, List.mem_cons, P2pEffect.sendBlock.injEq,
        reduceCtorEq, List.not_mem_nil, or_false] at h
      rw [h]
      exact ⟨rfl, rfl⟩
    | false => exact absurd h (by simp [handleStatus, p2pserSendStatus])
  | pong => exact absurd h (by simp [handleStatus, p2pserSendStatus])
  | _ => exact absurd h (by simp [handleStatus])

theorem effects_of_sendBlock {codec : P2pCodec}
    (step : eventLoopP2pStep codec date sh cqe = some effects) (h : .sendBlock fd ∈ effects) :
    effects = p2pserSendBlock sh fd ∧ sh.mtxHeld = false := by
  unfold eventLoopP2pStep at step
  simp only at step
  split at step
  · rw [← Option.some.inj step] at h
    exact absurd h (by simp [addAcceptRequest, p2pSendPing, p2pserSendStatus])
  · rw [← Option.some.inj step] at h
    exact absurd h (by simp [p2pReadStatusResponse])
  · split at step
    · obtain ⟨status, -, rfl⟩ := Option.map_eq_some_iff.mp step
      obtain ⟨heq, hready⟩ := handleStatus_of_sendBlock h
      exact ⟨heq, by simpa using hready⟩
    · rw [← Option.some.inj step] at h
      exact absurd h List.not_mem_nil
  · rw [← Option.some.inj step] at h
    exact absurd h (by simp [p2pReadStatusResponse])
  · rw [← Option.some.inj step] at h
    exact absurd h (by simp [p2pserSendStatus])
  · rw [← Option.some.inj step] at h
    exact absurd h List.not_mem_nil

/-- What is offered stands in the buffer at that moment, and the mutex is free. -/
theorem Offers.of_turn (h : Offers effects fd frame) (turn : LoopTurn pf th cqe effects p2p) :
    frame = th.shared.blockData.take th.shared.blockWrittenSize ∧ th.shared.mtxHeld = false := by
  have hstep : effects = p2pserSendBlock th.shared fd ∧ th.shared.mtxHeld = false := by
    cases turn with
    | accepted date pending accept sign unused step => exact effects_of_sendBlock step h.entered
    | completed date pending accept step => exact effects_of_sendBlock step h.entered
  obtain ⟨heq, hfree⟩ := hstep
  obtain ⟨d, hsent⟩ := h.sent
  rw [heq] at hsent
  simp only [p2pserSendBlock, List.mem_cons, reduceCtorEq, P2pEffect.submit.injEq, Sqe.send.injEq,
    List.not_mem_nil, or_false, false_or, true_and] at hsent
  exact ⟨hsent.1, hfree⟩

end Turns

section Publication

/-- The block is published: the loop of the client thread is past it. -/
structure Published (pf : ClientPlatform) (th : Threads) (loop : Client) : Prop where
  client : th.client = .running loop
  phase : loop.phase = .filled
  completed : Completed pf ⟨loop, th.shared⟩

/-- What the client thread has left when the mutex is free: the block, or nothing yet. -/
theorem published_of_free (h : SharedBy pf th) (taken : MutexTaken th.client)
    (free : th.shared.mtxHeld = false) : ∃ loop, Published pf th loop := by
  cases h with
  | early client shared => exact absurd taken client
  | @running loop ts client run =>
    cases runTurns_atHead run with
    | collecting hc => exact absurd (hc.held.symm.trans free) (by simp)
    | completed phase hdone count => exact ⟨loop, client, phase, hdone⟩
    | ended phase stored hend held => exact absurd (held.symm.trans free) (by simp)
  | returned client held => simp [held] at free

/-- A published block stays what it is. -/
theorem Published.step {loop : Client} (hs : Sound pf th) (h : Published pf th loop)
    (hstep : Step pf th th') : Published pf th' loop ∧ th'.shared = th.shared := by
  obtain ⟨client, phase, completed⟩ := h
  cases hstep with
  | createLoop main => exact ⟨⟨client, phase, completed⟩, rfl⟩
  | loop hturn => exact ⟨⟨client, phase, completed⟩, rfl⟩
  | @turn loop' st t hclient ht =>
    obtain rfl := ClientThread.running.inj (client.symm.trans hclient)
    rw [frameTurn_filled phase t, Option.some.injEq] at ht
    subst ht
    exact ⟨⟨rfl, phase, completed⟩, rfl⟩
  | createClient main =>
    have habsent := hs.started main
    rw [client] at habsent
    cases habsent
  | noSocket hclient => simp [client] at hclient
  | connect hclient ret => simp [client] at hclient
  | lock hclient free => simp [client] at hclient

theorem Published.run {loop : Client} (hreach : Reaches pf th) (h : Published pf th loop)
    (hrun : Relation.ReflTransGen (Step pf) th th') :
    Published pf th' loop ∧ th'.shared = th.shared := by
  induction hrun with
  | refl => exact ⟨h, rfl⟩
  | tail hrun hstep ih =>
    obtain ⟨hmid, hshared⟩ := ih
    obtain ⟨hlast, hsame⟩ := hmid.step (reaches_sound (hreach.trans hrun)) hstep
    exact ⟨hlast, hsame.trans hshared⟩

/-- The frame a peer is offered before the client thread has the mutex. -/
theorem Offers.empty_or_published (hs : SharedBy pf th) (h : Offers effects fd frame)
    (turn : LoopTurn pf th cqe effects p2p) : frame = [] ∨ ∃ loop, Published pf th loop := by
  obtain ⟨heq, hfree⟩ := h.of_turn turn
  by_cases taken : MutexTaken th.client
  · exact .inr (published_of_free hs taken hfree)
  · rw [hs.initial taken] at heq
    exact .inl heq

end Publication

/-- In every run of the threads and for every two offers of it, the later one possibly to
another peer: the earlier frame is empty, or it is the packed block that the client thread
has made by then, and the later frame is the same. -/
theorem offered_blocks_agree (pf : ClientPlatform) (th th' : Threads) (h : Reaches pf th)
    (hrun : Relation.ReflTransGen (Step pf) th th') (cqe cqe' : Cqe)
    (effects effects' : List P2pEffect) (p2p p2p' : P2pSystem)
    (hturn : LoopTurn pf th cqe effects p2p) (hturn' : LoopTurn pf th' cqe' effects' p2p')
    (fd fd' : Fd) (frame frame' : List UInt8) (hoffer : Offers effects fd frame)
    (hoffer' : Offers effects' fd' frame') :
    frame = [] ∨ frame' = frame ∧ ∃ loop block, th.client = .running loop ∧
      loop.block = some block ∧ frame = p2pSerializeBlockToSock pf.p2p block := by
  rcases hoffer.empty_or_published (reaches_sound h).sharedBy hturn with hempty | ⟨loop, hpub⟩
  · exact .inl hempty
  right
  have hframe := (hoffer.of_turn hturn).1
  have hframe' := (hoffer'.of_turn hturn').1
  rw [(hpub.run h hrun).2, ← hframe] at hframe'
  obtain ⟨-, -, block, -, -, -, -, -, hblock, -, hpacked⟩ := hpub.completed.made
  exact ⟨hframe', loop, block, hpub.client, hblock, hframe.trans hpacked⟩

section Demonstration
open SignedBlocks

theorem offers_sendBlock (sh : Shared) (fd : Fd) :
    Offers (p2pserSendBlock sh fd) fd (sh.blockData.take sh.blockWrittenSize) :=
  ⟨List.mem_cons_self, _, by simp [p2pserSendBlock]; rfl⟩

/-- After the peer on 5 has been answered, one on 6 connects and asks. -/
theorem asks_next {client : ClientThread} {sh : Shared} (hp : pf.p2p = p2pWireCodec)
    (hfree : sh.mtxHeld = false) : ∃ rest,
    Relation.ReflTransGen (Step pf) (asking client sh 5 {acceptSqe} [])
      (asking client sh 6 rest [5]) := by
  have hturn := @answered_turn pf client sh [] {acceptSqe} 5 hp rfl hfree
  rw [Multiset.cons_add] at hturn
  exact ⟨_, .head (.loop hturn) (conversation newYearDate rfl (by decide) (@askCqe_positive 6))⟩

/-- The client has collected its 512 messages. Two peers, one after the other, are sent the same
block. -/
theorem offered_blocks_agree_completed : ∃ th th' effects effects' p2p p2p' frame frame',
    Reaches solvingPlatform th ∧ Relation.ReflTransGen (Step solvingPlatform) th th' ∧
    LoopTurn solvingPlatform th (askCqe 5) effects p2p ∧
    LoopTurn solvingPlatform th' (askCqe 6) effects' p2p' ∧
    Offers effects 5 frame ∧ Offers effects' 6 frame' ∧ frame' = frame ∧
    ∃ loop block, th.client = .running loop ∧ loop.block = some block ∧
      frame = p2pSerializeBlockToSock solvingPlatform.p2p block := by
  obtain ⟨st, -, -, hrun, -, hcompleted, -⟩ := run_signedTurn 114
  obtain ⟨-, -, block, -, -, -, -, -, hblock, hsize, hdata⟩ := hcompleted.made
  have hfree := hcompleted.released
  have hreach := reaches_asking hrun (by decide : (5 : Fd).msb = false)
  obtain ⟨rest, hnext⟩ := @asks_next solvingPlatform (.running st.loop) st.shared rfl hfree
  have hturn := @answered_turn solvingPlatform (.running st.loop) st.shared [] {acceptSqe} 5 rfl
    rfl hfree
  have hturn' := @answered_turn solvingPlatform (.running st.loop) st.shared [5] rest 6 rfl rfl
    hfree
  have hoffer := offers_sendBlock st.shared 5
  have hoffer' := offers_sendBlock st.shared 6
  rcases offered_blocks_agree solvingPlatform _ _ hreach hnext _ _ _ _ _ _ hturn hturn' 5 6 _ _
    hoffer hoffer' with hempty | hagree
  · rw [hdata] at hempty
    exact absurd hempty (p2pWireCodec.pack_ne_nil _)
  · exact ⟨_, _, _, _, _, _, _, _, hreach, hnext, hturn, hturn', hoffer, hoffer', hagree⟩

end Demonstration
end CBlockchain.BlockOffers
