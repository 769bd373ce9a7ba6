import CBlockchain.P2pRuns
import CBlockchain.SignedBlocks

/-! The threads of a client: `main` starts the others, `setup_client_iouring` connects to the
message server, takes `block_created_mtx` and collects the block, and `event_loop_p2p` asks
the mutex at every completion whether the block is there. The mutex is created free and
taken only when the connection stands. -/
namespace CBlockchain.BlockReady
open ClientLoop P2pEventLoop P2pRuns P2pSerdes ReceiveLoop SignedBlocks
variable (pf : ClientPlatform)

/-- Where `main` is. -/
inductive MainThread where
  | starting | clientCreated | loopCreated
  deriving DecidableEq

/-- Where `setup_client_iouring` is. `locking` holds the result of the connect; the thread
returns without the mutex if it gets no socket, and with it if the connect has failed. -/
inductive ClientThread where
  | absent | connecting | noSocket
  | locking (ret : BitVec 32)
  | running (loop : Client)
  | returned

/-- The threads and what they share. -/
structure Threads where
  main : MainThread
  client : ClientThread
  shared : Shared
  p2p : P2pSystem

/-- The buffer is zeroed, the size zero and the mutex free. -/
def initialShared : Shared := ⟨List.replicate 4096 0, 0, false⟩

def initialThreads : Threads := ⟨.starting, .absent, initialShared, ⟨0, []⟩⟩

/-- `mtx_lock` once it returns. -/
def mtxLock (sh : Shared) : Shared := { sh with mtxHeld := true }

/-- One iteration of `event_loop_p2p` on completion `cqe`. -/
inductive LoopTurn (th : Threads) : Cqe → List P2pEffect → P2pSystem → Prop
  | accepted {r : Sqe} {rest : Multiset Sqe} {effects : List P2pEffect} (date : CString)
      {res : BitVec 32} {data : List UInt8} (pending : th.p2p.requests = r ::ₘ rest)
      (accept : isAccept r = true) (sign : res.msb = false) (unused : res ∉ th.p2p.accepted)
      (step : eventLoopP2pStep pf.p2p date th.shared ⟨r.userData, res, data⟩ = some effects) :
      LoopTurn th ⟨r.userData, res, data⟩ effects
        ⟨rest + submitted effects, res :: th.p2p.accepted⟩
  | completed {r : Sqe} {rest : Multiset Sqe} {effects : List P2pEffect} (date : CString)
      {res : BitVec 32} {data : List UInt8} (pending : th.p2p.requests = r ::ₘ rest)
      (accept : isAccept r = false)
      (step : eventLoopP2pStep pf.p2p date th.shared ⟨r.userData, res, data⟩ = some effects) :
      LoopTurn th ⟨r.userData, res, data⟩ effects ⟨rest + submitted effects, th.p2p.accepted⟩

/-- What one thread does next. -/
inductive Step (th : Threads) : Threads → Prop
  | createClient (main : th.main = .starting) :
      Step th { th with main := .clientCreated, client := .connecting }
  | createLoop (main : th.main = .clientCreated) :
      Step th { th with main := .loopCreated, p2p := P2pRuns.initial }
  | noSocket (client : th.client = .connecting) : Step th { th with client := .noSocket }
  | connect (client : th.client = .connecting) (ret : BitVec 32) :
      Step th { th with client := .locking ret }
  | lock {ret : BitVec 32} (client : th.client = .locking ret) (free : th.shared.mtxHeld = false) :
      Step th { th with
        client := if ret = 0 then .running connectedClient else .returned
        shared := mtxLock th.shared }
  | turn {loop : Client} {st : ClientState} (t : Turn) (client : th.client = .running loop)
      (h : frameTurn pf t ⟨loop, th.shared⟩ = some st) :
      Step th { th with client := .running st.loop, shared := st.shared }
  | loop {cqe : Cqe} {effects : List P2pEffect} {p2p : P2pSystem}
      (h : LoopTurn pf th cqe effects p2p) : Step th { th with p2p := p2p }

def Reaches (th : Threads) : Prop := Relation.ReflTransGen (Step pf) initialThreads th

/-- `P2P_serialize_block_to_sock` has written the block and its size is set. -/
def BlockWritten (th : Threads) : Prop :=
  ∃ loop, th.client = .running loop ∧ Completed pf ⟨loop, th.shared⟩

/-- The client thread has been through `mtx_lock`. -/
def MutexTaken : ClientThread → Prop
  | .running _ => True
  | .returned => True
  | _ => False

/-- A peer asks for the block. -/
structure Asks (cqe : Cqe) : Prop where
  tag : P2pEventLoop.requestDataEventType cqe.userData = some .flagTestResponse
  positive : 0 < cqe.res.toInt
  status : p2pDeserializeStatus pf.p2p cqe.data = some .askIfBlockReady

section Turns
variable {pf} {date : CString} {sh : Shared} {cqe : Cqe} {effects : List P2pEffect}

theorem sendBlock_notMem_sendStatus {codec : P2pCodec} {fd fd' : Fd} {status : P2pStatus}
    {state : StateP2p} :
    P2pEffect.sendBlock fd ∉ p2pserSendStatus codec date fd' status state := by
  simp [p2pserSendStatus]

theorem sendBlock_mem_handleStatus {codec : P2pCodec} {ready : Bool} {fd : Fd}
    {status : P2pStatus} :
    (∃ fd', .sendBlock fd' ∈ handleStatus codec date sh ready fd status) ↔
      status = .askIfBlockReady ∧ ready = true := by
  cases status with
  | pong => simp [handleStatus, sendBlock_notMem_sendStatus]
  | askIfBlockReady =>
    cases ready with
    | true => simp [handleStatus, p2pserSendBlock]
    | false => simp [handleStatus, sendBlock_notMem_sendStatus]
  | _ => simp [handleStatus]

/-- A turn enters `P2Pser_send_block` exactly if a peer asks and the mutex is free. -/
theorem sendBlock_iff (h : eventLoopP2pStep pf.p2p date sh cqe = some effects) :
    (∃ fd, .sendBlock fd ∈ effects) ↔ Asks pf cqe ∧ sh.mtxHeld = false := by
  have hother : P2pEventLoop.requestDataEventType cqe.userData ≠ some .flagTestResponse →
      (∀ fd, .sendBlock fd ∉ effects) →
      ((∃ fd, .sendBlock fd ∈ effects) ↔ Asks pf cqe ∧ sh.mtxHeld = false) := by
    intro htag hno
    exact iff_of_false (fun ⟨fd, hfd⟩ => hno fd hfd) fun hasks => htag hasks.1.tag
  unfold eventLoopP2pStep at h
  cases hev : P2pEventLoop.requestDataEventType cqe.userData with
  | none =>
    rw [hev] at h
    apply hother (by simp [hev])
    simp [← Option.some.inj h]
  | some flag =>
    rw [hev] at h
    cases flag with
    | flagTestResponse =>
      simp only at h
      split at h
      · rename_i hpos
        obtain ⟨status, hstatus, rfl⟩ := Option.map_eq_some_iff.mp h
        rw [sendBlock_mem_handleStatus, Bool.not_eq_true']
        constructor
        · rintro ⟨rfl, hfree⟩
          exact ⟨⟨hev, hpos, hstatus⟩, hfree⟩
        · rintro ⟨hasks, hfree⟩
          rw [hasks.status, Option.some.injEq] at hstatus
          exact ⟨hstatus.symm, hfree⟩
      · rename_i hneg
        rw [← Option.some.inj h]
        exact iff_of_false (by simp) fun hasks => hneg hasks.1.positive
    | flagAccept =>
      apply hother (by simp [hev])
      simp [← Option.some.inj h, addAcceptRequest, p2pSendPing, sendBlock_notMem_sendStatus]
    | flagBlockSended =>
      apply hother (by simp [hev])
      simp [← Option.some.inj h, sendBlock_notMem_sendStatus]
    | flagWaitPong =>
      apply hother (by simp [hev])
      simp [← Option.some.inj h, p2pReadStatusResponse]
    | flagReadResponse =>
      apply hother (by simp [hev])
      simp [← Option.some.inj h, p2pReadStatusResponse]
    | flagBlockNotReady =>
      apply hother (by simp [hev])
      simp [← Option.some.inj h]

end Turns

/-- Before the client thread has the mutex nothing has been written; afterwards the shared
variables are those its loop has left. -/
inductive SharedBy (th : Threads) : Prop
  | early (client : ¬ MutexTaken th.client) (shared : th.shared = initialShared)
  | running {loop : Client} (ts : List Turn) (client : th.client = .running loop)
      (run : runTurns pf ts = some ⟨loop, th.shared⟩)
  | returned (client : th.client = .returned) (held : th.shared.mtxHeld = true)

structure Sound (th : Threads) : Prop where
  started : th.main = .starting → th.client = .absent
  sharedBy : SharedBy pf th

section Runs
variable {pf} {th th' : Threads} {cqe : Cqe} {effects : List P2pEffect} {p2p : P2pSystem}

/-- The turns of the loop beside other threads are turns of the loop alone. -/
theorem LoopTurn.turn (h : LoopTurn pf th cqe effects p2p) :
    ∃ r rest, P2pRuns.Turn pf.p2p th.p2p r rest effects p2p := by
  cases h with
  | @accepted r rest _ date res data pending accept sign unused step =>
    exact ⟨r, rest, .accepted ⟨date, th.shared, res, data⟩ pending accept sign unused step⟩
  | @completed r rest _ date res data pending accept step =>
    exact ⟨r, rest, .completed ⟨date, th.shared, res, data⟩ pending accept step⟩

theorem LoopTurn.sendBlock_iff (h : LoopTurn pf th cqe effects p2p) :
    (∃ fd, .sendBlock fd ∈ effects) ↔ Asks pf cqe ∧ th.shared.mtxHeld = false := by
  cases h with
  | accepted date pending accept sign unused step => exact BlockReady.sendBlock_iff step
  | completed date pending accept step => exact BlockReady.sendBlock_iff step

/-- A thread that has not reached `mtx_lock` has written nothing. -/
theorem SharedBy.initial (h : SharedBy pf th) (hclient : ¬ MutexTaken th.client) :
    th.shared = initialShared := by
  cases h with
  | early client shared => exact shared
  | running ts client run =>
    rw [client] at hclient
    exact absurd trivial hclient
  | returned client held =>
    rw [client] at hclient
    exact absurd trivial hclient

theorem step_sharedBy (h : Sound pf th) (hstep : Step pf th th') : SharedBy pf th' := by
  cases hstep with
  | createClient main =>
    have hshared := h.sharedBy.initial (by rw [h.started main]; exact id)
    exact .early id hshared
  | createLoop main =>
    cases h.sharedBy with
    | early client shared => exact .early client shared
    | running ts client run => exact .running ts client run
    | returned client held => exact .returned client held
  | noSocket client =>
    have hshared := h.sharedBy.initial (by rw [client]; exact id)
    exact .early id hshared
  | connect client ret =>
    have hshared := h.sharedBy.initial (by rw [client]; exact id)
    exact .early id hshared
  | @lock ret client free =>
    have hshared := h.sharedBy.initial (by rw [client]; exact id)
    by_cases hret : ret = 0
    · simp only [if_pos hret, hshared]
      exact .running [] rfl rfl
    · simp only [if_neg hret]
      exact .returned rfl rfl
  | turn t hclient ht =>
    cases h.sharedBy with
    | early client shared =>
      rw [hclient] at client
      exact absurd trivial client
    | running ts client run =>
      obtain rfl := ClientThread.running.inj (client.symm.trans hclient)
      apply SharedBy.running (ts ++ [t]) rfl
      rw [runTurns_append, run, Option.bind_some, ht]
    | returned client held => simp [hclient] at client
  | loop hturn =>
    cases h.sharedBy with
    | early client shared => exact .early client shared
    | running ts client run => exact .running ts client run
    | returned client held => exact .returned client held

theorem step_sound (h : Sound pf th) (hstep : Step pf th th') : Sound pf th' := by
  refine ⟨?_, step_sharedBy h hstep⟩
  have hclient : th.client ≠ .absent → th.main ≠ .starting := fun hne main => hne (h.started main)
  cases hstep with
  | createClient main => simp
  | createLoop main => simp
  | noSocket client => exact fun main => absurd main (hclient (by simp [client]))
  | connect client ret => exact fun main => absurd main (hclient (by simp [client]))
  | lock client free => exact fun main => absurd main (hclient (by simp [client]))
  | turn t client ht => exact fun main => absurd main (hclient (by simp [client]))
  | loop hturn => exact h.started

theorem reaches_sound (h : Reaches pf th) : Sound pf th := by
  induction h with
  | refl => exact ⟨fun _ => rfl, .early id rfl⟩
  | tail _ hstep ih => exact step_sound ih hstep

/-- Once the client thread has been through `mtx_lock`, a free mutex means the block. -/
theorem written_of_free (h : SharedBy pf th) (taken : MutexTaken th.client)
    (free : th.shared.mtxHeld = false) : BlockWritten pf th := by
  cases h with
  | early client shared => exact absurd taken client
  | @running loop ts client run =>
    cases runTurns_atHead run with
    | collecting hc => exact absurd (hc.held.symm.trans free) (by simp)
    | completed phase hdone count => exact ⟨loop, client, hdone⟩
    | ended phase stored hend held => exact absurd (held.symm.trans free) (by simp)
  | returned client held => simp [held] at free

theorem BlockWritten.taken (h : BlockWritten pf th) : MutexTaken th.client := by
  obtain ⟨loop, client, -⟩ := h
  rw [client]
  trivial

/-- The event loop's requests are those of a run of the loop alone, from its start on. -/
theorem reaches_p2p (h : Reaches pf th) :
    th.main ≠ .loopCreated ∧ th.p2p = ⟨0, []⟩ ∨ P2pRuns.Reaches pf.p2p th.p2p := by
  induction h with
  | refl => exact .inl ⟨by decide, rfl⟩
  | @tail th th' _ hstep ih =>
    cases hstep with
    | createClient main =>
      rcases ih with ⟨-, hp2p⟩ | hreach
      · exact .inl ⟨by simp, hp2p⟩
      · exact .inr hreach
    | createLoop main => exact .inr .refl
    | noSocket client => exact ih
    | connect client ret => exact ih
    | lock client free => exact ih
    | turn t client ht => exact ih
    | loop hturn =>
      obtain ⟨r, rest, hturn⟩ := hturn.turn
      rcases ih with ⟨-, hp2p⟩ | hreach
      · have hpending : th.p2p.requests = r ::ₘ rest := by
          cases hturn with
          | accepted o pending => exact pending
          | completed o pending => exact pending
        rw [hp2p] at hpending
        exact absurd hpending.symm Multiset.cons_ne_zero
      · exact .inr (hreach.tail ⟨r, rest, _, hturn⟩)

end Runs

section Conversation
variable {pf} {date : CString} {main : MainThread} {client : ClientThread} {sh : Shared}
  {acc : List Fd} {r r' : Sqe} {rest : Multiset Sqe} {res : BitVec 32} {data : List UInt8}
  {effects : List P2pEffect} {fd : Fd} {p2p : P2pSystem}

def acceptSqe : Sqe := .accept (makeRequestData 0 .flagAccept)

/-- A request completes and its turn submits the next one. -/
theorem step_next (haccept : isAccept r = false) (hnext : submitted effects = [r'])
    (h : eventLoopP2pStep pf.p2p date sh ⟨r.userData, res, data⟩ = some effects) :
    Step pf ⟨main, client, sh, ⟨r ::ₘ rest, acc⟩⟩ ⟨main, client, sh, ⟨r' ::ₘ rest, acc⟩⟩ := by
  have hturn := @LoopTurn.completed pf ⟨main, client, sh, ⟨r ::ₘ rest, acc⟩⟩ r rest effects
    date res data rfl haccept h
  have hsum : rest + (submitted effects : Multiset Sqe) = r' ::ₘ rest := by
    rw [hnext, add_comm]
    rfl
  rw [hsum] at hturn
  exact .loop hturn

theorem step_connection (date : CString) (sign : fd.msb = false) (unused : fd ∉ acc) :
    Step pf ⟨main, client, sh, ⟨acceptSqe ::ₘ rest, acc⟩⟩ ⟨main, client, sh,
      ⟨.send fd (p2pSendStatus pf.p2p date .ping) (makeRequestData fd .flagWaitPong) ::ₘ
        acceptSqe ::ₘ rest, fd :: acc⟩⟩ := by
  have hturn := @LoopTurn.accepted pf ⟨main, client, sh, ⟨acceptSqe ::ₘ rest, acc⟩⟩ acceptSqe rest
    _ date fd [] rfl rfl sign unused step_accepted
  have hsum : rest + (submitted (addAcceptRequest :: p2pSendPing pf.p2p date fd) : Multiset Sqe) =
      .send fd (p2pSendStatus pf.p2p date .ping) (makeRequestData fd .flagWaitPong) ::ₘ
        acceptSqe ::ₘ rest := by
    have hsubmitted : (submitted (addAcceptRequest :: p2pSendPing pf.p2p date fd) :
        Multiset Sqe) = acceptSqe ::ₘ {.send fd (p2pSendStatus pf.p2p date .ping)
          (makeRequestData fd .flagWaitPong)} := rfl
    rw [hsubmitted, Multiset.add_cons, add_comm, Multiset.singleton_add, Multiset.cons_swap]
  rw [hsum] at hturn
  exact .loop hturn

/-- A peer connects, answers the ping and is told that the server is there; the server now
waits for its next frame. -/
theorem conversation (date : CString) (sign : fd.msb = false) (unused : fd ∉ acc)
    (hres : 0 < res.toInt) :
    Relation.ReflTransGen (Step pf) ⟨main, client, sh, ⟨acceptSqe ::ₘ rest, acc⟩⟩ ⟨main, client, sh,
      ⟨.recv fd (makeRequestData fd .flagTestResponse) ::ₘ acceptSqe ::ₘ rest, fd :: acc⟩⟩ := by
  have hpong : eventLoopP2pStep pf.p2p date sh ⟨makeRequestData fd .flagTestResponse, res,
      p2pSendStatus pf.p2p date .pong⟩ =
      some (p2pserSendStatus pf.p2p date fd .ok .flagReadResponse) := by
    rw [step_testResponse sign, if_pos hres, deserializeStatus_sendStatus (by intro n; simp)]
    rfl
  refine .head (step_connection date sign unused) ?_
  refine .head (step_next rfl rfl (@step_waitPong _ date _ res [] _ sign)) ?_
  refine .head (step_next rfl rfl hpong) ?_
  exact .single (step_next rfl rfl (@step_readResponse _ date _ res [] _ sign))

/-- The frame in which the peer on `fd` asks for the block. -/
def askCqe (fd : Fd) : Cqe :=
  ⟨makeRequestData fd .flagTestResponse, 27,
    p2pSendStatus p2pWireCodec newYearDate .askIfBlockReady⟩

theorem askCqe_positive : 0 < (askCqe fd).res.toInt := by
  change 0 < (27 : BitVec 32).toInt
  decide

theorem askCqe_length : ((askCqe fd).data.length : ℤ) = (askCqe fd).res.toInt := by
  rw [askCqe, length_newYearStatus (by intro n; simp)]
  change (27 : ℤ) = (27 : BitVec 32).toInt
  decide

/-- The threads when the question of the peer on `fd` is the next completion. -/
def asking (client : ClientThread) (sh : Shared) (fd : Fd) (rest : Multiset Sqe)
    (acc : List Fd) : Threads :=
  ⟨.loopCreated, client, sh,
    ⟨.recv fd (makeRequestData fd .flagTestResponse) ::ₘ acceptSqe ::ₘ rest, fd :: acc⟩⟩

theorem asked_turn (hp : pf.p2p = p2pWireCodec) (sign : fd.msb = false) :
    LoopTurn pf (asking client sh fd rest acc) (askCqe fd)
      (handleStatus p2pWireCodec newYearDate sh (!sh.mtxHeld) fd .askIfBlockReady)
      ⟨acceptSqe ::ₘ rest + (submitted
        (handleStatus p2pWireCodec newYearDate sh (!sh.mtxHeld) fd .askIfBlockReady) :
          Multiset Sqe), fd :: acc⟩ := by
  have hstep : eventLoopP2pStep pf.p2p newYearDate sh (askCqe fd) =
      some (handleStatus p2pWireCodec newYearDate sh (!sh.mtxHeld) fd .askIfBlockReady) := by
    rw [hp, askCqe, step_testResponse sign, if_pos (by decide), deserializeStatus_sendStatus
      (by intro n; simp)]
    rfl
  exact @LoopTurn.completed pf (asking client sh fd rest acc)
    (.recv fd (makeRequestData fd .flagTestResponse)) (acceptSqe ::ₘ rest) _ newYearDate _ _ rfl rfl
    hstep

/-- The question finds the mutex free. -/
theorem answered_turn (hp : pf.p2p = p2pWireCodec) (sign : fd.msb = false)
    (hfree : sh.mtxHeld = false) :
    LoopTurn pf (asking client sh fd rest acc) (askCqe fd) (p2pserSendBlock sh fd)
      ⟨acceptSqe ::ₘ rest + (submitted (p2pserSendBlock sh fd) : Multiset Sqe), fd :: acc⟩ := by
  have hturn := @asked_turn pf client sh acc rest fd hp sign
  rw [hfree] at hturn
  exact hturn

/-- The turns of the client loop, beside threads that wait. -/
theorem steps_of_turns {ts : List Turn} {st : ClientState} (h : runTurns pf ts = some st) :
    Relation.ReflTransGen (Step pf) ⟨main, .running connectedClient, mtxLock initialShared, p2p⟩
      ⟨main, .running st.loop, st.shared, p2p⟩ := by
  apply runTurns_invariant (P := fun _ st => Relation.ReflTransGen (Step pf)
    ⟨main, .running connectedClient, mtxLock initialShared, p2p⟩
    ⟨main, .running st.loop, st.shared, p2p⟩) .refl _ h
  intro ts t st st' _ hsteps ht
  exact hsteps.tail (.turn t rfl ht)

/-- The loop is created while the client is still connecting. -/
theorem reaches_created : Reaches pf
    ⟨.loopCreated, .connecting, initialShared, ⟨acceptSqe ::ₘ {acceptSqe}, []⟩⟩ :=
  .tail (.single (.createClient rfl)) (.createLoop rfl)

theorem reaches_connected : Reaches pf ⟨.loopCreated, .running connectedClient,
    mtxLock initialShared, ⟨acceptSqe ::ₘ {acceptSqe}, []⟩⟩ := by
  have hlock := @Step.lock pf ⟨.loopCreated, .locking 0, initialShared,
    ⟨acceptSqe ::ₘ {acceptSqe}, []⟩⟩ 0 rfl rfl
  exact .tail (.tail reaches_created (.connect rfl 0)) hlock

/-- A peer asks after the client loop has taken these turns. -/
theorem reaches_asking {ts : List Turn} {st : ClientState} (h : runTurns pf ts = some st)
    (sign : fd.msb = false) :
    Reaches pf (asking (.running st.loop) st.shared fd {acceptSqe} []) := by
  have hturns := @steps_of_turns pf .loopCreated ⟨acceptSqe ::ₘ {acceptSqe}, []⟩ ts st h
  have htalk := @conversation pf .loopCreated (.running st.loop) st.shared [] {acceptSqe} _ fd
    newYearDate sign List.not_mem_nil (@askCqe_positive fd)
  exact (reaches_connected.trans hturns).trans htalk

end Conversation

/-- In every state the threads reach and every turn of `event_loop_p2p` there: the turn
enters `P2Pser_send_block` only with the block written, exactly if the client thread has
been through `mtx_lock` whenever the turn is a peer's question for the block. -/
theorem offered_written_iff (pf : ClientPlatform) (th : Threads) (h : Reaches pf th) (cqe : Cqe)
    (effects : List P2pEffect) (p2p : P2pSystem) (hturn : LoopTurn pf th cqe effects p2p) :
    ((∃ fd, .sendBlock fd ∈ effects) → BlockWritten pf th) ↔
      (Asks pf cqe → MutexTaken th.client) := by
  have hshared := (reaches_sound h).sharedBy
  rw [hturn.sendBlock_iff]
  constructor
  · intro hwritten hasks
    by_contra hearly
    have hfree : th.shared.mtxHeld = false := by
      rw [hshared.initial hearly]
      rfl
    exact hearly (hwritten ⟨hasks, hfree⟩).taken
  · rintro htaken ⟨hasks, hfree⟩
    exact written_of_free hshared (htaken hasks) hfree

/-- The client has collected its 512 messages when the peer asks: it is sent the block. -/
theorem offered_written_when_filled : ∃ th effects p2p, Reaches solvingPlatform th ∧
    LoopTurn solvingPlatform th (askCqe 5) effects p2p ∧ .sendBlock 5 ∈ effects ∧
    BlockWritten solvingPlatform th := by
  obtain ⟨st, -, -, hrun, -, hcompleted, -⟩ := run_signedTurn 114
  have hreach := reaches_asking hrun (by decide : (5 : Fd).msb = false)
  have hturn := @answered_turn solvingPlatform (.running st.loop) st.shared [] {acceptSqe} 5 rfl
    rfl hcompleted.released
  have hoffer : P2pEffect.sendBlock 5 ∈ p2pserSendBlock st.shared 5 := List.mem_cons_self
  have hwritten := (offered_written_iff _ _ hreach _ _ _ hturn).mpr (fun _ => trivial) ⟨5, hoffer⟩
  exact ⟨_, _, _, hreach, hturn, hoffer, hwritten⟩

/-- A peer that asks while the client is still connecting finds the mutex free: it is sent
a block of size zero. -/
theorem offered_before_written : ∃ th effects p2p, Reaches wirePlatform th ∧
    ((askCqe 5).data.length : ℤ) = (askCqe 5).res.toInt ∧
    LoopTurn wirePlatform th (askCqe 5) effects p2p ∧ .sendBlock 5 ∈ effects ∧
    th.client = .connecting ∧ th.shared.blockWrittenSize = 0 ∧ ¬ BlockWritten wirePlatform th := by
  have htalk := @conversation wirePlatform .loopCreated .connecting initialShared [] {acceptSqe} _ 5
    newYearDate rfl List.not_mem_nil (@askCqe_positive 5)
  have hreach : Reaches wirePlatform (asking .connecting initialShared 5 {acceptSqe} []) :=
    reaches_created.trans htalk
  have hturn := @answered_turn wirePlatform .connecting initialShared [] {acceptSqe} 5 rfl rfl rfl
  refine ⟨_, _, _, hreach, askCqe_length, hturn, List.mem_cons_self, rfl, rfl, ?_⟩
  exact fun hwritten => hwritten.taken

end CBlockchain.BlockReady
