import CBlockchain.BufferRuns

/-! The memory of `setup_buffers` and what the handlers touch of it for one client. Every
array is indexed by the socket number as it comes from `accept`. The index into
`buffer_transactions` is scaled by the element size before the array scales it again, so
only the first eleven socket numbers have a place in it. -/
namespace CBlockchain.ClientRegions
open ConnectionHandlers EventLoop RequestData Serdes ServerClosing ServerRuns

/-- The arrays with a place for every client. -/
inductive ClientArray where
  | buffers | bufferLengths | befferSendedN | bufferTransactions
  deriving DecidableEq

/-- `sizeof(IpcMessage)` with pointers and `size_t` of eight bytes: base, flag, data, flag,
data, string, number, status, each padded to eight. -/
def sizeofIpcMessage : ℕ := 24 + 8 + 16 + 8 + 16 + 8 + 8 + 8

/-- The bytes `setup_buffers` allocates for `MAX_CONNECTIONS` clients. -/
def ClientArray.size : ClientArray → ℕ
  | buffers => 1000 * 4096
  | bufferLengths => 1000 * 8
  | befferSendedN => 1000 * 8
  | bufferTransactions => 1000 * sizeofIpcMessage

/-- `size` bytes from `offset` on, counted from the start of an array. -/
structure Region where
  array : ClientArray
  offset : ℤ
  size : ℕ
  deriving DecidableEq

namespace Region

def InBounds (a : Region) : Prop := 0 ≤ a.offset ∧ a.offset + a.size ≤ a.array.size

instance (a : Region) : Decidable a.InBounds := inferInstanceAs (Decidable (_ ∧ _))

/-- Different arrays are different allocations. -/
def Disjoint (a b : Region) : Prop :=
  a.array = b.array → a.offset + a.size ≤ b.offset ∨ b.offset + b.size ≤ a.offset

end Region

/-- The whole buffer of a client: it is cleared and received into over its full length,
and what is packed into it is taken to fit. An `int` product that overflows is taken as
the number it stands for. -/
def getClientBuffer (clientFd : Fd) : Region := ⟨.buffers, clientFd.toInt * 4096, 4096⟩

/-- The index is a product in `size_t`, and the address wraps around as it does. -/
def getIpcMsgBuffer (clientFd : Fd) : Region :=
  let size := BitVec.ofNat 64 sizeofIpcMessage
  ⟨.bufferTransactions, (clientFd.signExtend 64 * size * size).toInt, sizeofIpcMessage⟩

def bufferLength (clientFd : Fd) : Region := ⟨.bufferLengths, clientFd.toInt * 8, 8⟩

def sendedN (clientFd : Fd) : Region := ⟨.befferSendedN, clientFd.toInt * 8, 8⟩

def requestSendStatusRegions (clientFd : Fd) : List Region :=
  [getIpcMsgBuffer clientFd, getClientBuffer clientFd, bufferLength clientFd]

def readStatusResponseRegions (clientFd : Fd) : List Region :=
  [bufferLength clientFd, getClientBuffer clientFd]

def handleResponseNeedMoreMsgRegions (clientFd : Fd) (s : Server) : List Region :=
  if s.befferSendedN clientFd ≥ 512 then sendedN clientFd :: requestSendStatusRegions clientFd
  else [sendedN clientFd, getClientBuffer clientFd, bufferLength clientFd, getIpcMsgBuffer clientFd]

def handleStatusRegions (clientFd : Fd) (s : Server) : Status → List Region
  | .needMore => handleResponseNeedMoreMsgRegions clientFd s
  | .acknOk => requestSendStatusRegions clientFd
  | .enough => [sendedN clientFd]
  | _ => []

/-- What one turn of the event loop touches, whether or not it goes through. -/
def eventLoopRegions (pf : Platform) (cqe : Cqe) (s : Server) : List Region :=
  let tagFd := requestDataClientFd cqe.userData
  match requestDataEventType cqe.userData with
  | some .flagAccept => requestSendStatusRegions cqe.res
  | some .readResponse => if cqe.res ≠ 0 then readStatusResponseRegions tagFd else []
  | some .flagCloseConnection => [sendedN tagFd]
  | some .testResponse =>
    if 0 < cqe.res.toInt then
      getClientBuffer tagFd ::
        match readOnlyStatusResponse pf.codec cqe.data with
        | none => []
        | some status => handleStatusRegions tagFd s status
    else []
  | _ => []

/-- The places of one client. -/
def clientRegions (clientFd : Fd) : List Region :=
  [getClientBuffer clientFd, bufferLength clientFd, sendedN clientFd, getIpcMsgBuffer clientFd]

/-- The socket numbers that all four arrays have a place for. -/
def Addressable (clientFd : Fd) : Prop :=
  0 ≤ clientFd.toInt ∧ clientFd.toInt * sizeofIpcMessage < 1000

instance (clientFd : Fd) : Decidable (Addressable clientFd) := inferInstanceAs (Decidable (_ ∧ _))

section Places
variable {fd fd' : Fd}

theorem getIpcMsgBuffer_offset (fd : Fd) :
    (getIpcMsgBuffer fd).offset = fd.toInt * sizeofIpcMessage * sizeofIpcMessage := by
  have hlt := BitVec.toInt_lt (x := fd)
  have hle := BitVec.le_toInt (x := fd)
  norm_num at hlt hle
  have hsize : (BitVec.ofNat 64 sizeofIpcMessage).toInt = 96 := by decide
  have hcast : (sizeofIpcMessage : ℤ) = 96 := by decide
  rw [getIpcMsgBuffer, BitVec.toInt_mul, BitVec.toInt_mul,
    BitVec.toInt_signExtend_of_le (by norm_num), hsize, hcast, Int.bmod_mul_bmod]
  apply Int.bmod_eq_of_le <;> omega

theorem clientRegions_inBounds (h : Addressable fd) : ∀ a ∈ clientRegions fd, a.InBounds := by
  obtain ⟨h0, hlt⟩ := h
  have hoff := getIpcMsgBuffer_offset fd
  simp only [clientRegions, List.forall_mem_cons, List.not_mem_nil, false_implies, implies_true,
    and_true, Region.InBounds, hoff]
  simp only [getClientBuffer, bufferLength, sendedN, getIpcMsgBuffer, ClientArray.size,
    sizeofIpcMessage] at hlt ⊢
  omega

theorem clientRegions_disjoint (hne : fd ≠ fd') :
    ∀ a ∈ clientRegions fd, ∀ b ∈ clientRegions fd', a.Disjoint b := by
  have hoff := getIpcMsgBuffer_offset fd
  have hoff' := getIpcMsgBuffer_offset fd'
  have hint : fd.toInt ≠ fd'.toInt := fun he => hne (BitVec.eq_of_toInt_eq he)
  simp only [clientRegions, List.forall_mem_cons, List.not_mem_nil, false_implies, implies_true,
    and_true, Region.Disjoint, hoff, hoff']
  simp only [getClientBuffer, bufferLength, sendedN, getIpcMsgBuffer, sizeofIpcMessage,
    reduceCtorEq, false_implies, true_implies, true_and, and_true]
  refine ⟨?_, ?_, ?_, ?_⟩ <;> omega

/-- The three places of a status frame are in bounds exactly for an addressable client. -/
theorem requestSendStatusRegions_inBounds_iff :
    (∀ a ∈ requestSendStatusRegions fd, a.InBounds) ↔ Addressable fd := by
  constructor
  · intro hall
    have hlen : (bufferLength fd).InBounds := hall _ (by simp [requestSendStatusRegions])
    have hipc : (getIpcMsgBuffer fd).InBounds := hall _ (by simp [requestSendStatusRegions])
    have h0 : 0 ≤ fd.toInt := by
      have hoff := hlen.1
      simp only [bufferLength] at hoff
      omega
    refine ⟨h0, ?_⟩
    have hend := hipc.2
    rw [getIpcMsgBuffer_offset] at hend
    simp only [getIpcMsgBuffer, ClientArray.size, sizeofIpcMessage] at hend ⊢
    omega
  · intro h a ha
    apply clientRegions_inBounds h
    simp only [requestSendStatusRegions, clientRegions, List.mem_cons] at ha ⊢
    tauto

end Places

section Turns
variable {pf : Platform} {sys sys' : System} {r : Request}

theorem handleStatusRegions_subset (fd : Fd) (s : Server) (status : Status) :
    handleStatusRegions fd s status ⊆ clientRegions fd := by
  intro a ha
  cases status with
  | needMore =>
    simp only [handleStatusRegions, handleResponseNeedMoreMsgRegions] at ha
    split at ha <;> simp only [requestSendStatusRegions, clientRegions, List.mem_cons] at ha ⊢ <;>
      tauto
  | acknOk =>
    simp only [handleStatusRegions, requestSendStatusRegions, clientRegions, List.mem_cons] at ha ⊢
    tauto
  | enough =>
    simp only [handleStatusRegions, clientRegions, List.mem_cons] at ha ⊢
    tauto
  | _ => cases ha

/-- A turn on a tag other than that of an accept stays in the places of the tag's client. -/
theorem eventLoopRegions_subset {cqe : Cqe} (s : Server)
    (h : requestDataEventType cqe.userData ≠ some .flagAccept) :
    eventLoopRegions pf cqe s ⊆ clientRegions (requestDataClientFd cqe.userData) := by
  intro a ha
  simp only [eventLoopRegions] at ha
  split at ha
  · exact absurd (by assumption) h
  · split at ha
    · simp only [readStatusResponseRegions, clientRegions, List.mem_cons] at ha ⊢
      tauto
    · cases ha
  · simp only [clientRegions, List.mem_cons] at ha ⊢
    tauto
  · split at ha
    · rcases List.mem_cons.mp ha with rfl | ha
      · simp [clientRegions]
      · split at ha
        · cases ha
        · exact handleStatusRegions_subset _ _ _ ha
    · cases ha
  · cases ha

/-- The tags of a turn's requests name the accept, the tag's client, or the client just
accepted. -/
inductive TagOk (cqe : Cqe) : Sqe → Prop
  | accept : TagOk cqe (.accept (makeRequestData 0 .flagAccept))
  | same {sqe : Sqe} (flag : FlagState) (hflag : flag ≠ .flagAccept) (h : isAccept sqe = false)
      (tag : sqe.userData = makeRequestData (requestDataClientFd cqe.userData) flag) :
      TagOk cqe sqe
  | accepted {sqe : Sqe} (flag : FlagState) (hflag : flag ≠ .flagAccept)
      (event : requestDataEventType cqe.userData = some .flagAccept) (h : isAccept sqe = false)
      (tag : sqe.userData = makeRequestData cqe.res flag) : TagOk cqe sqe

theorem step_tags {stamp : Stamp} {cqe : Cqe} {s s' : Server} {effects : List Effect}
    (h : eventLoopStep pf stamp cqe s = some (s', effects)) :
    ∀ sqe, .submit sqe ∈ effects → TagOk cqe sqe := by
  intro sqe hsqe
  simp only [eventLoopStep] at h
  split at h
  · simp only [requestAskNeedMsg, requestSendStatus, Option.bind_eq_bind, Option.bind_some,
      Option.some.injEq, Prod.mk.injEq] at h
    obtain ⟨-, rfl⟩ := h
    simp only [addAcceptRequest, List.mem_cons, Effect.submit.injEq, List.not_mem_nil,
      or_false] at hsqe
    rcases hsqe with rfl | rfl
    · exact .accept
    · exact .accepted .readResponse (by decide) (by assumption) rfl rfl
  · split at h
    · simp only [readStatusResponse, Option.some.injEq, Prod.mk.injEq] at h
      obtain ⟨-, rfl⟩ := h
      simp only [List.mem_singleton, Effect.submit.injEq] at hsqe
      subst hsqe
      exact .same .testResponse (by decide) rfl rfl
    · simp only [Option.some.injEq, Prod.mk.injEq] at h
      simp [← h.2] at hsqe
  · simp only [Option.some.injEq, Prod.mk.injEq] at h
    simp [← h.2] at hsqe
  · simp only [Option.some.injEq, Prod.mk.injEq] at h
    simp [← h.2] at hsqe
  · split at h
    · obtain ⟨status, -, hs⟩ := Option.bind_eq_some_iff.mp h
      cases handleStatus_responds hs with
      | nothing => cases hsqe
      | status frame =>
        simp only [List.mem_singleton, Effect.submit.injEq] at hsqe
        subst hsqe
        exact .same .readResponse (by decide) rfl rfl
      | serves cbuf m frame hlt =>
        simp only [List.mem_cons, reduceCtorEq, false_or, Effect.submit.injEq, List.not_mem_nil,
          or_false] at hsqe
        subst hsqe
        exact .same .readResponse (by decide) rfl rfl
      | finishes cbuf hash =>
        simp only [List.mem_cons, reduceCtorEq, false_or, Effect.submit.injEq, List.not_mem_nil,
          or_false] at hsqe
        subst hsqe
        exact .same .flagCloseConnection (by decide) rfl rfl
    · simp only [Option.some.injEq, Prod.mk.injEq] at h
      simp [← h.2] at hsqe
  · simp only [Option.some.injEq, Prod.mk.injEq] at h
    simp [← h.2] at hsqe
  · simp only [Option.some.injEq, Prod.mk.injEq] at h
    simp [← h.2] at hsqe

end Turns

section Runs
variable {pf : Platform} {sys sys' : System} {r : Request}

/-- A request in any run: an accept, or one whose tag names a connection, open or not. -/
inductive RequestTag (sys : System) : Request → Prop
  | accept {conn : Option ℕ} : RequestTag sys ⟨conn, .accept (makeRequestData 0 .flagAccept)⟩
  | client {r : Request} (conn : Conn) (mem : conn ∈ sys.conns) (flag : FlagState)
      (hflag : flag ≠ .flagAccept) (h : isAccept r.sqe = false)
      (tag : r.sqe.userData = makeRequestData conn.fd flag) : RequestTag sys r

/-- What holds of connections and tags in every run. -/
structure Known (sys : System) : Prop where
  distinct : DistinctFds sys.conns
  tags : ∀ r ∈ sys.requests, RequestTag sys r

theorem closeConn_eq (conns : List Conn) (fd : Fd) (d : ℕ) (conn : Conn)
    (h : (closeConn conns fd)[d]? = some conn) :
    conns[d]? = some conn ∨ conns[d]? = some ⟨fd, true⟩ ∧ conn = ⟨fd, false⟩ := by
  simp only [closeConn] at h
  split at h
  · exact Or.inl h
  · rename_i v hv
    have hopen := getElem?_of_ownerOf hv
    by_cases hd : d = v
    · subst hd
      rw [List.getElem?_set_self (List.getElem?_eq_some_iff.mp hopen).1] at h
      exact Or.inr ⟨hopen, (Option.some.inj h).symm⟩
    · rw [List.getElem?_set_ne (Ne.symm hd)] at h
      exact Or.inl h

theorem length_closeConn (conns : List Conn) (fd : Fd) :
    (closeConn conns fd).length = conns.length := by
  simp only [closeConn]
  split
  · rfl
  · rw [List.length_set]

theorem mem_closeConn {conns : List Conn} {conn : Conn} (fd : Fd) (h : conn ∈ conns) :
    ∃ conn' ∈ closeConn conns fd, conn'.fd = conn.fd := by
  obtain ⟨d, hd⟩ := List.mem_iff_getElem?.mp h
  have hlt : d < (closeConn conns fd).length := by
    rw [length_closeConn]
    exact (List.getElem?_eq_some_iff.mp hd).1
  refine ⟨(closeConn conns fd)[d], List.getElem_mem hlt, ?_⟩
  rcases closeConn_eq conns fd d _ (List.getElem?_eq_getElem hlt) with hsame | ⟨hopen, hclosed⟩
  · rw [hd, Option.some.injEq] at hsame
    rw [hsame]
  · rw [hd, Option.some.injEq] at hopen
    rw [hclosed, hopen]

theorem RequestTag.mono (h : RequestTag sys r)
    (hconns : ∀ conn ∈ sys.conns, ∃ conn' ∈ sys'.conns, conn'.fd = conn.fd) :
    RequestTag sys' r := by
  cases h with
  | accept => exact .accept
  | client conn mem flag hflag h tag =>
    obtain ⟨conn', mem', hfd⟩ := hconns conn mem
    exact .client conn' mem' flag hflag h (hfd.symm ▸ tag)

/-- Carrying out effects whose requests are tagged right keeps the connections known. -/
theorem perform_known (handled : Option ℕ) (effects : List Effect) : ∀ sys : System, Known sys →
    (∀ sqe, .submit sqe ∈ effects → ∀ conn, RequestTag sys ⟨conn, sqe⟩) →
    Known (effects.foldl (perform handled) sys) := by
  induction effects with
  | nil =>
    intro sys hk _
    exact hk
  | cons e effects ih =>
    intro sys hk hsub
    rw [List.foldl_cons]
    have hrest : ∀ sqe, Effect.submit sqe ∈ effects → ∀ conn, RequestTag sys ⟨conn, sqe⟩ :=
      fun sqe hsqe => hsub sqe (List.mem_cons_of_mem _ hsqe)
    cases e with
    | submit sqe =>
      apply ih
      · refine ⟨hk.distinct, fun x hx => ?_⟩
        have hx' : RequestTag sys x := by
          rcases Multiset.mem_cons.mp hx with rfl | hx
          · exact hsub sqe (List.mem_cons_self) _
          · exact hk.tags x hx
        exact hx'.mono fun conn hc => ⟨conn, hc, rfl⟩
      · exact fun sqe' hsqe conn => (hrest sqe' hsqe conn).mono fun conn hc => ⟨conn, hc, rfl⟩
    | serve fd slot m =>
      apply ih
      · exact ⟨hk.distinct, fun x hx => (hk.tags x hx).mono fun conn hc => ⟨conn, hc, rfl⟩⟩
      · exact fun sqe' hsqe conn => (hrest sqe' hsqe conn).mono fun conn hc => ⟨conn, hc, rfl⟩
    | merkleRoot fd hash =>
      apply ih
      · exact ⟨hk.distinct, fun x hx => (hk.tags x hx).mono fun conn hc => ⟨conn, hc, rfl⟩⟩
      · exact fun sqe' hsqe conn => (hrest sqe' hsqe conn).mono fun conn hc => ⟨conn, hc, rfl⟩
    | shutdownClose fd =>
      have hkeep : ∀ conn ∈ sys.conns, ∃ conn' ∈ closeConn sys.conns fd, conn'.fd = conn.fd :=
        fun conn hc => mem_closeConn fd hc
      apply ih
      · refine ⟨fun c d fd' hc hd => ?_, fun x hx => (hk.tags x hx).mono hkeep⟩
        rcases closeConn_eq sys.conns fd c _ hc with hc | ⟨-, hc⟩
        · rcases closeConn_eq sys.conns fd d _ hd with hd | ⟨-, hd⟩
          · exact hk.distinct c d fd' hc hd
          · simp at hd
        · simp at hc
      · exact fun sqe' hsqe conn => (hrest sqe' hsqe conn).mono hkeep

theorem distinctFds_accept {conns : List Conn} {res : Fd} (h : DistinctFds conns)
    (hfree : ownerOf conns res = none) (isOpen : Bool) : DistinctFds (conns ++ [⟨res, isOpen⟩]) := by
  have hnew : ∀ (d : ℕ) (fd : Fd), (conns ++ [⟨res, isOpen⟩])[d]? = some ⟨fd, true⟩ →
      conns[d]? = some ⟨fd, true⟩ ∨ d = conns.length ∧ fd = res := by
    intro d fd hd
    rcases Nat.lt_or_ge d conns.length with hlt | hge
    · exact Or.inl (List.getElem?_append_left hlt ▸ hd)
    · rw [List.getElem?_append_right hge, List.getElem?_singleton] at hd
      split at hd
      · rw [Option.some.injEq, Conn.mk.injEq] at hd
        exact Or.inr ⟨by omega, hd.1.symm⟩
      · cases hd
  have hnone := ownerOf_eq_none.mp hfree
  intro c d fd hc hd
  rcases hnew c fd hc with hc | ⟨hcl, rfl⟩ <;> rcases hnew d fd hd with hd | ⟨hdl, hfd⟩
  · exact h c d fd hc hd
  · exact absurd (hfd ▸ hc) (hnone c)
  · exact absurd hd (hnone d)
  · rw [hcl, hdl]

theorem turn_known (hk : Known sys) (ht : Turn pf sys r sys') : Known sys' := by
  cases ht with
  | @accepted rest server effects o hp hr hunused hstep =>
    have hgrow : ∀ conn ∈ sys.conns, ∃ conn' ∈ sys.conns ++ [⟨o.res, !o.res.msb⟩],
        conn'.fd = conn.fd := fun conn hc => ⟨conn, List.mem_append_left _ hc, rfl⟩
    have htag := hk.tags r (hp ▸ Multiset.mem_cons_self r rest)
    apply perform_known
    · refine ⟨distinctFds_accept hk.distinct hunused _, fun x hx => ?_⟩
      exact (hk.tags x (hp ▸ Multiset.mem_cons_of_mem hx)).mono hgrow
    · intro sqe hsqe conn
      cases htag with
      | accept =>
        rw [Sqe.userData, step_accepted, Option.some.injEq, Prod.mk.injEq] at hstep
        rw [← hstep.2] at hsqe
        simp only [addAcceptRequest, List.mem_cons, Effect.submit.injEq, List.not_mem_nil,
          or_false] at hsqe
        rcases hsqe with rfl | rfl
        · exact .accept
        · exact .client ⟨o.res, !o.res.msb⟩ (by simp) .readResponse (by decide) rfl rfl
      | client conn mem flag hflag h tag =>
        rw [hr] at h
        cases h
  | @completed rest server effects o hp hr hcount hstep =>
    have htag := hk.tags r (hp ▸ Multiset.mem_cons_self r rest)
    apply perform_known
    · refine ⟨hk.distinct, fun x hx => ?_⟩
      exact (hk.tags x (hp ▸ Multiset.mem_cons_of_mem hx)).mono fun conn hc => ⟨conn, hc, rfl⟩
    · intro sqe hsqe conn
      cases htag with
      | accept => cases hr
      | client conn' mem flag hflag h tag =>
        rw [tag] at hstep
        cases step_tags hstep sqe hsqe with
        | accept => exact .accept
        | same flag' hflag' h' tag' =>
          rw [requestDataClientFd_make] at tag'
          exact .client conn' mem flag' hflag' h' tag'
        | accepted flag' hflag' event h' tag' =>
          cases hsign : conn'.fd.msb with
          | false =>
            rw [requestDataEventType_make hsign, Option.some.injEq] at event
            exact absurd event hflag
          | true =>
            rw [requestDataEventType_neg hsign] at event
            cases event

theorem runs_known {P : System → Request → Prop} (h : Runs pf P sys) : Known sys := by
  obtain ⟨start, hstart, hrun⟩ := h
  induction hrun with
  | refl =>
    obtain ⟨cbuf, -, hinit⟩ := initial_spec pf
    rw [hinit, Option.some.injEq] at hstart
    subst hstart
    refine ⟨fun c d fd hc => by simp at hc, fun r hr => ?_⟩
    rw [Multiset.mem_singleton] at hr
    subst hr
    exact .accept
  | tail _ hstep ih =>
    obtain ⟨r, -, ht⟩ := hstep
    exact turn_known ih ht

end Runs

/-- In every run in which all accepts so far gave addressable numbers: the next completion
touches only memory in bounds, unless it is an accept that gives another number; and the
places of two open clients are disjoint. -/
theorem client_memory_in_bounds_iff (pf : Platform) (sys : System) (r : Request) (o : Outcome)
    (h : Runs pf (fun _ _ => True) sys) (haddr : ∀ conn ∈ sys.conns, Addressable conn.fd)
    (hr : r ∈ sys.requests) :
    ((∀ a ∈ eventLoopRegions pf ⟨r.sqe.userData, o.res, o.data⟩ sys.server, a.InBounds) ↔
      (isAccept r.sqe = true → Addressable o.res)) ∧
    (isAccept r.sqe = false → ∃ conn ∈ sys.conns,
      eventLoopRegions pf ⟨r.sqe.userData, o.res, o.data⟩ sys.server ⊆ clientRegions conn.fd) ∧
    ∀ (c d : ℕ) (fd fd' : Fd), c ≠ d → sys.conns[c]? = some ⟨fd, true⟩ →
      sys.conns[d]? = some ⟨fd', true⟩ →
      ∀ a ∈ clientRegions fd, ∀ b ∈ clientRegions fd', a.Disjoint b := by
  have hk := runs_known h
  have hplaces : isAccept r.sqe = false → ∃ conn ∈ sys.conns,
      eventLoopRegions pf ⟨r.sqe.userData, o.res, o.data⟩ sys.server ⊆ clientRegions conn.fd := by
    intro hacc
    cases hk.tags r hr with
    | accept => cases hacc
    | client conn mem flag hflag _ tag =>
      have hevent : requestDataEventType r.sqe.userData ≠ some .flagAccept := by
        rw [tag]
        cases hsign : conn.fd.msb with
        | false =>
          rw [requestDataEventType_make hsign]
          simpa using hflag
        | true => simp [requestDataEventType_neg hsign]
      have hsub := @eventLoopRegions_subset pf ⟨r.sqe.userData, o.res, o.data⟩ sys.server hevent
      simp only [tag, requestDataClientFd_make] at hsub
      exact ⟨conn, mem, tag ▸ hsub⟩
  refine ⟨?_, hplaces, ?_⟩
  · cases hacc : isAccept r.sqe with
    | false =>
      simp only [Bool.false_eq_true, false_implies, iff_true]
      obtain ⟨conn, mem, hsub⟩ := hplaces hacc
      exact fun a ha => clientRegions_inBounds (haddr conn mem) a (hsub ha)
    | true =>
      cases hk.tags r hr with
      | accept =>
        have hregions : eventLoopRegions pf ⟨makeRequestData 0 .flagAccept, o.res, o.data⟩
            sys.server = requestSendStatusRegions o.res := by
          simp [eventLoopRegions, requestDataEventType_make]
        simp only [Sqe.userData, hregions, requestSendStatusRegions_inBounds_iff, true_implies]
      | client conn mem flag hflag hno tag =>
        rw [hacc] at hno
        cases hno
  · intro c d fd fd' hcd hc hd
    have hne : fd ≠ fd' := fun he => hcd (hk.distinct c d fd' (he ▸ hc) hd)
    exact clientRegions_disjoint hne

theorem two_clients_run : ∃ cbuf, Runs plainPlatform (fun _ _ => True)
    ⟨⟨cbuf, fun _ => 0, 6⟩, [⟨5, true⟩, ⟨6, true⟩],
      recvReq 1 6 ::ₘ acceptReq ::ₘ recvReq 0 5 ::ₘ 0, [], [], []⟩ := by
  obtain ⟨cbuf, -, -, start, hstart, hrun⟩ := BufferRuns.accepted_run
  refine ⟨cbuf, start, hstart, hrun.trans ?_⟩
  have hpending : (BufferRuns.firstAccepted cbuf).requests = acceptReq ::ₘ recvReq 0 5 ::ₘ 0 :=
    Multiset.cons_swap (recvReq 0 5) acceptReq 0
  exact accept_turn (fun _ _ _ => trivial) hpending (by decide) rfl rfl

/-- Clients on sockets 5 and 6, the second of which asks for a message. -/
theorem client_memory_in_bounds_two_clients : ∃ cbuf,
    (∀ a ∈ eventLoopRegions plainPlatform
      ⟨makeRequestData 6 .testResponse, 6, statusFrame .needMore⟩ ⟨cbuf, fun _ => 0, 6⟩,
      a.InBounds) ∧
    ∀ a ∈ clientRegions 5, ∀ b ∈ clientRegions 6, a.Disjoint b := by
  obtain ⟨cbuf, hrun⟩ := two_clients_run
  have haddr : ∀ conn ∈ [(⟨5, true⟩ : Conn), ⟨6, true⟩], Addressable conn.fd := by decide
  obtain ⟨hbounds, -, hdisjoint⟩ := client_memory_in_bounds_iff plainPlatform _ (recvReq 1 6)
    ⟨zeroStamp, 6, statusFrame .needMore⟩ hrun haddr (by simp)
  refine ⟨cbuf, hbounds.mpr (fun h => by cases h), ?_⟩
  exact hdisjoint 0 1 5 6 (by decide) rfl rfl

/-- The accept of the first client may give socket 11, for which `buffer_transactions` has
no place, or fail with `-ECONNABORTED`, which is before every array. -/
theorem client_memory_out_of_bounds : ∃ sys, Runs plainPlatform (fun _ _ => True) sys ∧
    acceptReq ∈ sys.requests ∧ ∀ res ∈ [(11 : Fd), -103], ownerOf sys.conns res = none ∧
      ∃ a ∈ eventLoopRegions plainPlatform ⟨acceptReq.sqe.userData, res, []⟩ sys.server,
        ¬ a.InBounds := by
  obtain ⟨cbuf, -, hstart⟩ := start_spec
  refine ⟨_, ⟨_, hstart, .refl⟩, by simp, fun res hres => ⟨rfl, ?_⟩⟩
  have hregions : eventLoopRegions plainPlatform ⟨acceptReq.sqe.userData, res, []⟩
      ⟨cbuf, fun _ => 0, -1⟩ = requestSendStatusRegions res := by
    simp [eventLoopRegions, acceptReq, Sqe.userData, requestDataEventType_make]
  rw [hregions]
  by_contra hnone
  have haddr : Addressable res :=
    requestSendStatusRegions_inBounds_iff.mp fun a ha => not_not.mp fun hb => hnone ⟨a, ha, hb⟩
  revert haddr
  rcases List.mem_cons.mp hres with rfl | hres
  · decide
  · rw [List.mem_singleton.mp hres]
    decide

end CBlockchain.ClientRegions
