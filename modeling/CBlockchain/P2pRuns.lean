import CBlockchain.P2pEventLoop

/-! The peer-to-peer server over whole runs, with any number of peers. Any outstanding
request may complete next, with any result, any received bytes and any state of the block;
accepts succeed and give numbers that are not in use. The requests of a peer form a chain:
each is submitted when the one before it has completed. -/
namespace CBlockchain.P2pRuns
open ClientLoop P2pEventLoop P2pSerdes
variable (codec : P2pCodec)

/-- The outstanding requests and the sockets accepted so far. -/
structure P2pSystem where
  requests : Multiset Sqe
  accepted : List Fd

/-- What the machine and the other threads supply to one turn. -/
structure P2pOutcome where
  date : CString
  shared : Shared
  res : BitVec 32
  data : List UInt8

def submitted (effects : List P2pEffect) : List Sqe :=
  effects.filterMap fun e =>
    match e with
    | .submit sqe => some sqe
    | _ => none

/-- The socket of a send or a receive. -/
def socketOf : Sqe → Option Fd
  | .send fd _ _ => some fd
  | .recv fd _ => some fd
  | _ => none

def isAccept : Sqe → Bool
  | .accept _ => true
  | _ => false

/-- A send from the buffer of `fd`. -/
def IsSendOn (fd : Fd) (sqe : Sqe) : Prop := ∃ data d, sqe = .send fd data d

/-- The loop takes the completion of request `r` while those in `rest` are outstanding. -/
inductive Turn (sys : P2pSystem) : Sqe → Multiset Sqe → List P2pEffect → P2pSystem → Prop
  | accepted {r : Sqe} {rest : Multiset Sqe} {effects : List P2pEffect} (o : P2pOutcome)
      (pending : sys.requests = r ::ₘ rest) (accept : isAccept r = true)
      (sign : o.res.msb = false) (unused : o.res ∉ sys.accepted)
      (step : eventLoopP2pStep codec o.date o.shared ⟨r.userData, o.res, o.data⟩ = some effects) :
      Turn sys r rest effects ⟨rest + submitted effects, o.res :: sys.accepted⟩
  | completed {r : Sqe} {rest : Multiset Sqe} {effects : List P2pEffect} (o : P2pOutcome)
      (pending : sys.requests = r ::ₘ rest) (accept : isAccept r = false)
      (step : eventLoopP2pStep codec o.date o.shared ⟨r.userData, o.res, o.data⟩ = some effects) :
      Turn sys r rest effects ⟨rest + submitted effects, sys.accepted⟩

def initial : P2pSystem := ⟨submitted eventLoopP2pStart, []⟩

def Reaches (sys : P2pSystem) : Prop :=
  Relation.ReflTransGen (fun a b => ∃ r rest effects, Turn codec a r rest effects b) initial sys

/-- The requests that occur. -/
inductive RequestOk (accepted : List Fd) : Sqe → Prop
  | accept : RequestOk accepted (.accept (makeRequestData 0 .flagAccept))
  | send {fd : Fd} {data : List UInt8} (flag : StateP2p) (mem : fd ∈ accepted)
      (sign : fd.msb = false)
      (hflag : flag = .flagWaitPong ∨ flag = .flagReadResponse ∨ flag = .flagBlockSended) :
      RequestOk accepted (.send fd data (makeRequestData fd flag))
  | recv {fd : Fd} (mem : fd ∈ accepted) (sign : fd.msb = false) :
      RequestOk accepted (.recv fd (makeRequestData fd .flagTestResponse))

/-- Every request is one that occurs, and no socket has two. -/
structure Chained (sys : P2pSystem) : Prop where
  requests : ∀ r ∈ sys.requests, RequestOk sys.accepted r
  single : (sys.requests.filterMap socketOf).Nodup

/-- What a turn on a request of socket `fd` does: nothing, one send, or one receive, each
on the same socket. -/
inductive NextOn (fd : Fd) : List P2pEffect → Prop
  | none : NextOn fd []
  | send {data : List UInt8} {effects : List P2pEffect} (flag : StateP2p)
      (hflag : flag = .flagWaitPong ∨ flag = .flagReadResponse ∨ flag = .flagBlockSended)
      (hsub : submitted effects = [.send fd data (makeRequestData fd flag)])
      (hwrite : ∀ fd', .write fd' ∈ effects → fd' = fd) : NextOn fd effects
  | recv : NextOn fd [.submit (.recv fd (makeRequestData fd .flagTestResponse))]

section Turns
variable {codec} {sys sys' : P2pSystem} {r : Sqe} {rest : Multiset Sqe} {effects : List P2pEffect}
  {fd : Fd}

theorem sendStatus_nextOn (date : CString) (fd : Fd) (status : P2pStatus) {flag : StateP2p}
    (hflag : flag = .flagWaitPong ∨ flag = .flagReadResponse ∨ flag = .flagBlockSended) :
    NextOn fd (p2pserSendStatus codec date fd status flag) :=
  .send flag hflag rfl (by simp [p2pserSendStatus])

theorem handleStatus_nextOn (date : CString) (sh : Shared) (ready : Bool) (fd : Fd)
    (status : P2pStatus) : NextOn fd (handleStatus codec date sh ready fd status) := by
  cases status with
  | pong => exact sendStatus_nextOn date fd .ok (by simp)
  | askIfBlockReady =>
    cases ready with
    | true => exact .send .flagBlockSended (by simp) rfl (by simp [handleStatus, p2pserSendBlock])
    | false => exact sendStatus_nextOn date fd .blockNotReady (by simp)
  | _ => exact .none

/-- What the completion of an accepted peer's request leads to. -/
theorem step_nextOn {accepted : List Fd} (hok : RequestOk accepted r) (haccept : isAccept r = false)
    {o : P2pOutcome}
    (h : eventLoopP2pStep codec o.date o.shared ⟨r.userData, o.res, o.data⟩ = some effects) :
    ∃ fd ∈ accepted, fd.msb = false ∧ socketOf r = some fd ∧ NextOn fd effects := by
  cases hok with
  | accept => cases haccept
  | @send fd data flag mem sign hflag =>
    refine ⟨fd, mem, sign, rfl, ?_⟩
    simp only [Sqe.userData] at h
    rcases hflag with rfl | rfl | rfl
    · rw [step_waitPong sign, Option.some.injEq] at h
      rw [← h]
      exact .recv
    · rw [step_readResponse sign, Option.some.injEq] at h
      rw [← h]
      exact .recv
    · rw [step_blockSended sign, Option.some.injEq] at h
      rw [← h]
      exact sendStatus_nextOn _ _ _ (by simp)
  | @recv fd mem sign =>
    refine ⟨fd, mem, sign, rfl, ?_⟩
    simp only [Sqe.userData, step_testResponse sign] at h
    split at h
    · rw [Option.map_eq_some_iff] at h
      obtain ⟨status, -, rfl⟩ := h
      exact handleStatus_nextOn _ _ _ _ _
    · rw [← Option.some.inj h]
      exact .none

theorem RequestOk.mono {accepted accepted' : List Fd} (h : RequestOk accepted r)
    (hsub : accepted ⊆ accepted') : RequestOk accepted' r := by
  cases h with
  | accept => exact .accept
  | send flag mem sign hflag => exact .send flag (hsub mem) sign hflag
  | recv mem sign => exact .recv (hsub mem) sign

/-- A request is on a socket that has been accepted. -/
theorem RequestOk.socket_mem {accepted : List Fd} (h : RequestOk accepted r)
    (hr : socketOf r = some fd) : fd ∈ accepted := by
  cases h with
  | accept => cases hr
  | send flag mem => exact Option.some.inj hr ▸ mem
  | recv mem => exact Option.some.inj hr ▸ mem

theorem Chained.drop (h : Chained sys) (hp : sys.requests = r ::ₘ rest) :
    Chained ⟨rest, sys.accepted⟩ := by
  refine ⟨fun x hx => h.requests x (hp ▸ Multiset.mem_cons_of_mem hx), ?_⟩
  have hnd := h.single
  rw [hp] at hnd
  exact Multiset.nodup_of_le (Multiset.filterMap_le_filterMap _ (Multiset.le_cons_self _ _)) hnd

/-- No other request is on the socket of the request that completes. -/
theorem Chained.alone (h : Chained sys) (hp : sys.requests = r ::ₘ rest)
    (hr : socketOf r = some fd) : ∀ x ∈ rest, socketOf x ≠ some fd := by
  have hnd := h.single
  rw [hp, Multiset.filterMap_cons_some _ _ _ hr, Multiset.nodup_cons] at hnd
  exact fun x hx hxfd => hnd.1 ((Multiset.mem_filterMap _ _).mpr ⟨x, hx, hxfd⟩)

theorem Chained.add (h : Chained sys) (hok : RequestOk sys.accepted r)
    (hno : ∀ fd, socketOf r = some fd → ∀ x ∈ sys.requests, socketOf x ≠ some fd) :
    Chained ⟨sys.requests + {r}, sys.accepted⟩ := by
  rw [add_comm, Multiset.singleton_add]
  refine ⟨fun x hx => ?_, ?_⟩
  · rcases Multiset.mem_cons.mp hx with rfl | hx
    · exact hok
    · exact h.requests x hx
  · cases hs : socketOf r with
    | none =>
      rw [Multiset.filterMap_cons_none _ _ hs]
      exact h.single
    | some fd =>
      rw [Multiset.filterMap_cons_some _ _ _ hs, Multiset.nodup_cons]
      refine ⟨fun hmem => ?_, h.single⟩
      obtain ⟨x, hx, hxfd⟩ := (Multiset.mem_filterMap _ _).mp hmem
      exact hno fd hs x hx hxfd

theorem turn_chained (h : Chained sys) (ht : Turn codec sys r rest effects sys') :
    Chained sys' := by
  cases ht with
  | accepted o hp haccept sign unused step =>
    have hrest := h.drop hp
    cases h.requests r (hp ▸ Multiset.mem_cons_self r rest) with
    | accept =>
      rw [Sqe.userData, step_accepted, Option.some.injEq] at step
      subst step
      have hgrow : sys.accepted ⊆ o.res :: sys.accepted := fun x hx => List.mem_cons_of_mem _ hx
      have hopen : Chained ⟨rest, o.res :: sys.accepted⟩ :=
        ⟨fun x hx => (hrest.requests x hx).mono hgrow, hrest.single⟩
      have hacc := hopen.add (r := .accept (makeRequestData 0 .flagAccept)) .accept
        (by simp [socketOf])
      have hsend := hacc.add
        (r := .send o.res (p2pSendStatus codec o.date .ping) (makeRequestData o.res .flagWaitPong))
        (.send .flagWaitPong List.mem_cons_self sign (by simp)) ?_
      · have hsum : rest + {.accept (makeRequestData 0 .flagAccept)} +
            {.send o.res (p2pSendStatus codec o.date .ping) (makeRequestData o.res .flagWaitPong)} =
            rest +
              (submitted (addAcceptRequest :: p2pSendPing codec o.date o.res) : Multiset Sqe) := by
          rw [add_assoc]
          rfl
        rw [hsum] at hsend
        exact hsend
      · intro fd hfd x hx hxfd
        obtain rfl : o.res = fd := Option.some.inj hfd
        rcases Multiset.mem_add.mp hx with hx | hx
        · exact unused ((hrest.requests x hx).socket_mem hxfd)
        · rw [Multiset.mem_singleton] at hx
          subst hx
          cases hxfd
    | send => cases haccept
    | recv => cases haccept
  | completed o hp haccept step =>
    have hrest := h.drop hp
    have hok := h.requests r (hp ▸ Multiset.mem_cons_self r rest)
    obtain ⟨fd, mem, sign, hr, hnext⟩ := step_nextOn hok haccept step
    have halone := h.alone hp hr
    cases hnext with
    | none =>
      simpa [submitted] using hrest
    | @send data _ flag hflag hsub _ =>
      rw [hsub]
      exact hrest.add (.send flag mem sign hflag) fun fd' hfd' => Option.some.inj hfd' ▸ halone
    | recv => exact hrest.add (.recv mem sign) fun fd' hfd' => Option.some.inj hfd' ▸ halone

theorem initial_chained : Chained initial := by
  refine ⟨fun r hr => ?_, ?_⟩
  · rw [initial, Multiset.mem_coe] at hr
    simp only [submitted, eventLoopP2pStart, addAcceptRequest, List.filterMap_cons,
      List.filterMap_nil, List.mem_cons, List.not_mem_nil, or_false, or_self] at hr
    subst hr
    exact .accept
  · simp [initial, submitted, eventLoopP2pStart, addAcceptRequest, List.filterMap_cons, socketOf]

theorem reaches_chained (h : Reaches codec sys) : Chained sys := by
  induction h with
  | refl => exact initial_chained
  | tail _ hstep ih =>
    obtain ⟨r, rest, effects, ht⟩ := hstep
    exact turn_chained ih ht

theorem countP_socketOf (rs : Multiset Sqe) (fd : Fd) :
    rs.countP (fun r => socketOf r = some fd) = (rs.filterMap socketOf).count fd := by
  induction rs using Multiset.induction with
  | empty => rfl
  | cons r rs ih =>
    cases hs : socketOf r with
    | none => simp [Multiset.filterMap_cons_none _ _ hs, hs, ih]
    | some fd' =>
      rw [Multiset.filterMap_cons_some _ _ _ hs, Multiset.countP_cons, Multiset.count_cons, ih, hs]
      by_cases hfd : fd' = fd
      · simp [hfd]
      · have hne : fd ≠ fd' := Ne.symm hfd
        simp [hfd, hne]

/-- The socket whose buffer a turn writes or receives into has no other request. -/
theorem turn_alone (h : Chained sys) (ht : Turn codec sys r rest effects sys')
    (hfd : .write fd ∈ effects ∨ ∃ d, .submit (.recv fd d) ∈ effects) :
    ∀ x ∈ rest, socketOf x ≠ some fd := by
  cases ht with
  | accepted o hp haccept sign unused step =>
    have hrest := h.drop hp
    cases h.requests r (hp ▸ Multiset.mem_cons_self r rest) with
    | accept =>
      rw [Sqe.userData, step_accepted, Option.some.injEq] at step
      subst step
      simp only [addAcceptRequest, p2pSendPing, p2pserSendStatus, List.mem_cons, reduceCtorEq,
        P2pEffect.write.injEq, P2pEffect.submit.injEq, List.not_mem_nil, or_false, false_or,
        exists_false] at hfd
      subst hfd
      intro x hx hxfd
      exact unused ((hrest.requests x hx).socket_mem hxfd)
    | send => cases haccept
    | recv => cases haccept
  | completed o hp haccept step =>
    have hok := h.requests r (hp ▸ Multiset.mem_cons_self r rest)
    obtain ⟨fd', mem, sign, hr, hnext⟩ := step_nextOn hok haccept step
    have halone := h.alone hp hr
    suffices hsame : fd = fd' from hsame ▸ halone
    cases hnext with
    | none => simp at hfd
    | @send data _ flag hflag hsub hwrite =>
      rcases hfd with hfd | ⟨d, hd⟩
      · exact hwrite fd hfd
      · have hmem : Sqe.recv fd d ∈ submitted effects := List.mem_filterMap.mpr ⟨_, hd, rfl⟩
        rw [hsub, List.mem_singleton] at hmem
        cases hmem
    | recv => simpa using hfd

end Turns

/-- In every state the loop reaches, each socket has at most one send or receive
outstanding; and no turn writes the buffer of a peer, or has it received into, while a
send from it is outstanding. -/
theorem one_operation_per_peer (codec : P2pCodec) (sys : P2pSystem) (h : Reaches codec sys) :
    (∀ fd, sys.requests.countP (fun r => socketOf r = some fd) ≤ 1) ∧
    ∀ r rest effects sys', Turn codec sys r rest effects sys' → ∀ fd,
      (.write fd ∈ effects ∨ ∃ d, .submit (.recv fd d) ∈ effects) → ∀ x ∈ rest, ¬ IsSendOn fd x := by
  have hch := reaches_chained h
  refine ⟨fun fd => ?_, ?_⟩
  · rw [countP_socketOf]
    exact Multiset.nodup_iff_count_le_one.mp hch.single fd
  · rintro r rest effects sys' ht fd hfd x hx ⟨data, d, rfl⟩
    exact turn_alone hch ht hfd _ hx rfl

/-- A peer has connected on socket 5, and the ping to it is on its way. -/
theorem one_operation_per_peer_first_ping : ∃ sys, Reaches p2pWireCodec sys ∧ sys.accepted = [5] ∧
    sys.requests.countP (fun r => socketOf r = some 5) ≤ 1 := by
  let o : P2pOutcome := ⟨⟨[], CString.nil_noNul⟩, connected.shared, 5, []⟩
  have ht : Turn p2pWireCodec initial (.accept (makeRequestData 0 .flagAccept))
      {.accept (makeRequestData 0 .flagAccept)} _ _ :=
    .accepted o rfl rfl (by decide) (by simp [initial]) step_accepted
  have hreach := Relation.ReflTransGen.single
    (r := fun a b => ∃ r rest effects, Turn p2pWireCodec a r rest effects b) ⟨_, _, _, ht⟩
  exact ⟨_, hreach, rfl, (one_operation_per_peer p2pWireCodec _ hreach).1 5⟩

end CBlockchain.P2pRuns
