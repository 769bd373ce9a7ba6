import CBlockchain.CalcMerkleTree
import CBlockchain.ServerRuns

/-! Who is closed, and who is served what. In runs that close only the connection accepted
last, the server closes exactly the clients that finished and serves every connection its
slots in order. The closing turn itself acts on the socket accepted last, so with two
clients it can close the wrong one, and the counter that connection leaves behind is
inherited by the next owner of its socket number. -/
namespace CBlockchain.ServerClosing
open CalcMerkleTree ConnectionHandlers DataHandlers EventLoop RequestData Serdes ServerRuns

theorem exists_slots {cbuf : CircBuf} (h : Ready cbuf) (hfull : filled cbuf = 512) :
    ∃ msg : ℕ → SignedMessage, ∀ i < 512, slotMsg cbuf i = some (msg i) :=
  exists_messages fun i hi => h.held i (by omega)

section Demonstration

def zeroStamp : Stamp := ⟨⟨[], CString.nil_noNul⟩, 0⟩

def plainPlatform : Platform where
  H := orHash
  codec := wireCodec
  src := ⟨fun _ => ⟨Vector.replicate 64 0, Vector.replicate 32 0⟩,
    fun _ => Vector.replicate 100 0, fun _ _ => Vector.replicate 64 0⟩

def statusFrame (status : Status) : List UInt8 :=
  sendOnlyStatusCode plainPlatform.codec zeroStamp status

theorem length_statusFrame {status : Status} (h : status.code < 128) :
    (statusFrame status).length = 6 := by
  simp [statusFrame, sendOnlyStatusCode, plainPlatform, wireCodec, WireFormat.putFields,
    WireCodec.fields, WireFormat.putField, WireFormat.putVarint_small, zeroStamp, h]

variable {P : System → Request → Prop} {sys : System} {c : ℕ} {fd : Fd} {rest : Multiset Request}

abbrev Steps (P : System → Request → Prop) : System → System → Prop :=
  Relation.ReflTransGen fun a b => ∃ r, P a r ∧ Turn plainPlatform a r b

def acceptReq : Request := ⟨none, .accept (makeRequestData 0 .flagAccept)⟩

def sendReq (c : ℕ) (fd : Fd) (frame : List UInt8) : Request :=
  ⟨some c, .send fd frame (makeRequestData fd .readResponse)⟩

def recvReq (c : ℕ) (fd : Fd) : Request := ⟨some c, .recv fd (makeRequestData fd .testResponse)⟩

def closeReq (c : ℕ) (fd : Fd) : Request :=
  ⟨some c, .unprepared (makeRequestData fd .flagCloseConnection)⟩

/-- A condition that only restricts closing turns. -/
def OnClosing (P : System → Request → Prop) : Prop :=
  ∀ sys r, (∀ d, r.sqe ≠ .unprepared d) → P sys r

theorem onClosing_lastAccepted : OnClosing ClosesLastAccepted :=
  fun _ _ h d hd => absurd hd (h d)

theorem sent_turn (hP : OnClosing P) {frame : List UInt8}
    (hp : sys.requests = sendReq c fd frame ::ₘ rest) (hfd : fd.msb = false)
    (hown : ownerOf sys.conns fd = some c) (n : ℕ) (hn : BitVec.ofNat 32 n ≠ 0) :
    Steps P sys { sys with requests := recvReq c fd ::ₘ rest } := by
  have hstep : eventLoopStep plainPlatform zeroStamp
      ⟨makeRequestData fd .readResponse, BitVec.ofNat 32 n, []⟩ sys.server =
      some (sys.server, [.submit (.recv fd (makeRequestData fd .testResponse))]) := by
    rw [step_sent hfd, if_pos hn, readStatusResponse]
  have ht : Turn plainPlatform _ _ _ := .completed ⟨zeroStamp, BitVec.ofNat 32 n, []⟩ hp rfl
    (fun h => absurd h (by simp [sendReq, isRecv])) hstep
  refine .single ⟨sendReq c fd frame, hP _ _ (by simp [sendReq]), ?_⟩
  simpa only [List.foldl_cons, List.foldl_nil, perform, connOf, hown, recvReq] using ht

theorem status_turn (hP : OnClosing P) (hp : sys.requests = recvReq c fd ::ₘ rest)
    (hfd : fd.msb = false) (status : Status) (hs : status.code < 128) (hnamed : status.Named)
    {server : Server} {effects : List Effect}
    (h : handleStatus plainPlatform zeroStamp fd sys.server status = some (server, effects)) :
    Steps P sys (effects.foldl (perform (some c)) { sys with server, requests := rest }) := by
  refine .single ⟨recvReq c fd, hP _ _ (by simp [recvReq]),
    Turn.completed ⟨zeroStamp, 6, statusFrame status⟩ hp rfl (fun _ _ => ?_) ?_⟩
  · rw [length_statusFrame hs]
    rfl
  · simp only [recvReq, Sqe.userData, step_received hfd]
    rw [if_pos (by decide), statusFrame, readOnlyStatusResponse_send _ _ hnamed, Option.bind_some, h]

/-- The client on `fd` has been served `k` slots and its response is awaited. -/
structure Serving (sys : System) (c : ℕ) (fd : Fd) (k : ℕ) (rest : Multiset Request) : Prop where
  pending : sys.requests = recvReq c fd ::ₘ rest
  ready : Ready sys.server.cbuf
  counter : sys.server.befferSendedN fd = k
  filled : k ≤ filled sys.server.cbuf

/-- What stays while the client on `fd`, connection `c`, is being served. -/
structure Kept (c : ℕ) (fd : Fd) (sys sys' : System) : Prop where
  conns : sys'.conns = sys.conns
  current : sys'.server.currentClientFd = sys.server.currentClientFd
  finished : sys'.finished = sys.finished
  closes : sys'.closes = sys.closes
  counters : ∀ fd' ≠ fd, sys'.server.befferSendedN fd' = sys.server.befferSendedN fd'
  slots : ∀ d ≠ c, slotsOf sys' d = slotsOf sys d

theorem Kept.refl (c : ℕ) (fd : Fd) (sys : System) : Kept c fd sys sys :=
  ⟨rfl, rfl, rfl, rfl, fun _ _ => rfl, fun _ _ => rfl⟩

theorem Kept.trans {sys₁ sys₂ sys₃ : System} (h : Kept c fd sys₁ sys₂) (h' : Kept c fd sys₂ sys₃) :
    Kept c fd sys₁ sys₃ where
  conns := h'.conns.trans h.conns
  current := h'.current.trans h.current
  finished := h'.finished.trans h.finished
  closes := h'.closes.trans h.closes
  counters := fun fd' hne => (h'.counters fd' hne).trans (h.counters fd' hne)
  slots := fun d hne => (h'.slots d hne).trans (h.slots d hne)

/-- One round: the client asks for more, the next slot is served and sent. The frame of a
message is 207 bytes long. -/
theorem serve_round (hP : OnClosing P) {k : ℕ} (hs : Serving sys c fd k rest)
    (hfd : fd.msb = false) (hown : ownerOf sys.conns fd = some c) (hk : k < 512) :
    ∃ sys', Steps P sys sys' ∧ Serving sys' c fd (k + 1) rest ∧ Kept c fd sys sys' ∧
      slotsOf sys' c = slotsOf sys c ++ [k] := by
  obtain ⟨cbuf, m, hneed, -, hready, -, hfilled⟩ := handleResponseNeedMoreMsg_serves plainPlatform
    hs.ready zeroStamp (hs.counter.trans_lt hk)
  rw [hs.counter] at hneed hfilled
  have hask := status_turn hP hs.pending hfd .needMore (by decide)
    (by intro n; simp) hneed
  simp only [List.foldl_cons, List.foldl_nil, perform, connOf, hown] at hask
  let sys₁ : System := { sys with
    server := { sys.server with
      cbuf := cbuf, befferSendedN := Function.update sys.server.befferSendedN fd (k + 1) }
    requests := sendReq c fd (serializeDataV2 plainPlatform.codec zeroStamp m) ::ₘ rest
    served := sys.served ++ [(some c, k)] }
  have hsent : Steps P sys₁ { sys₁ with requests := recvReq c fd ::ₘ rest } :=
    sent_turn hP rfl hfd hown 207 (by decide)
  refine ⟨_, hask.trans hsent, ⟨rfl, hready, Function.update_self _ _ _, ?_⟩,
    ⟨rfl, rfl, rfl, rfl, fun fd' hne => Function.update_of_ne hne _ _, fun d hne => ?_⟩, ?_⟩
  · change k + 1 ≤ filled cbuf
    omega
  · exact (slotsOf_append sys c d k).trans (if_neg hne)
  · exact (slotsOf_append sys c c k).trans (if_pos rfl)

theorem serve_rounds (hP : OnClosing P) (hfd : fd.msb = false) (n : ℕ) :
    ∀ {sys : System} {k : ℕ}, Serving sys c fd k rest → ownerOf sys.conns fd = some c →
      k + n ≤ 512 → ∃ sys', Steps P sys sys' ∧ Serving sys' c fd (k + n) rest ∧
        Kept c fd sys sys' ∧ slotsOf sys' c = slotsOf sys c ++ List.range' k n := by
  induction n with
  | zero =>
    intro sys k hs _ _
    exact ⟨sys, .refl, hs, .refl c fd sys, by simp⟩
  | succ n ih =>
    intro sys k hs hown hk
    obtain ⟨sys₁, hrun₁, hs₁, hkept₁, hslots₁⟩ := serve_round hP hs hfd hown (by omega)
    obtain ⟨sys', hrun', hs', hkept', hslots'⟩ := ih hs₁ (hkept₁.conns ▸ hown) (by omega)
    refine ⟨sys', hrun₁.trans hrun', ?_, hkept₁.trans hkept', ?_⟩
    · rwa [show k + (n + 1) = k + 1 + n by omega]
    · rw [hslots', hslots₁, List.range'_succ, List.append_assoc, List.singleton_append]

theorem finish_turn (hP : OnClosing P) (hs : Serving sys c fd 512 rest) (hfd : fd.msb = false) :
    ∃ sys', Steps P sys sys' ∧ sys'.requests = closeReq c fd ::ₘ rest ∧
      sys'.conns = sys.conns ∧ sys'.closes = sys.closes ∧ sys'.served = sys.served ∧
      sys'.finished = sys.finished ++ [some c] ∧ Ready sys'.server.cbuf ∧
      sys'.server.currentClientFd = sys.server.currentClientFd ∧
      sys'.server.befferSendedN = Function.update sys.server.befferSendedN fd 0 := by
  have hfull : filled sys.server.cbuf = 512 := le_antisymm hs.ready.le hs.filled
  obtain ⟨msg, hmsg⟩ := exists_slots hs.ready hfull
  obtain ⟨hfin, hready⟩ := finishSending_spec plainPlatform hs.ready fd hmsg
  have hturn := status_turn hP hs.pending hfd .enough (by decide)
    (by intro n; simp) hfin
  simp only [List.foldl_cons, List.foldl_nil, perform, connOf] at hturn
  exact ⟨_, hturn, rfl, rfl, rfl, rfl, rfl, hready, rfl, rfl⟩

theorem close_turn (hp : sys.requests = closeReq c fd ::ₘ rest) (hfd : fd.msb = false)
    (hP : P sys (closeReq c fd)) :
    Steps P sys { sys with
      server := { sys.server with befferSendedN := Function.update sys.server.befferSendedN fd 0 }
      conns := closeConn sys.conns sys.server.currentClientFd
      requests := rest
      closes := sys.closes ++ [⟨some c, sys.server.currentClientFd,
        ownerOf sys.conns sys.server.currentClientFd⟩] } := by
  refine .single ⟨closeReq c fd, hP, ?_⟩
  exact .completed ⟨zeroStamp, 0, []⟩ hp rfl
    (fun h => absurd h (by simp [closeReq, isRecv]))
    (step_close hfd zeroStamp 0 [] sys.server)

theorem accept_turn (hP : OnClosing P) (hp : sys.requests = acceptReq ::ₘ rest)
    (hfd : fd.msb = false) (hfree : ownerOf sys.conns fd = none)
    (hown : ownerOf (sys.conns ++ [⟨fd, true⟩]) fd = some c) :
    Steps P sys { sys with
      server := { sys.server with currentClientFd := fd }
      conns := sys.conns ++ [⟨fd, true⟩]
      requests := recvReq c fd ::ₘ acceptReq ::ₘ rest } := by
  have ht : Turn plainPlatform _ _ _ := .accepted ⟨zeroStamp, fd, []⟩ hp rfl hfree
    (step_accepted zeroStamp fd [] sys.server)
  simp only [List.foldl_cons, List.foldl_nil, perform, connOf, addAcceptRequest, hfd, Bool.not_false,
    hown] at ht
  refine Relation.ReflTransGen.head ⟨acceptReq, hP _ _ (by simp [acceptReq]), ht⟩ ?_
  exact sent_turn hP rfl hfd hown 6 (by decide)

theorem start_spec : ∃ cbuf, Ready cbuf ∧ initial plainPlatform =
    some ⟨⟨cbuf, fun _ => 0, -1⟩, [], acceptReq ::ₘ 0, [], [], []⟩ := initial_spec plainPlatform

theorem one_client_run : ∃ sys, Runs plainPlatform ClosesLastAccepted sys ∧
    sys.conns = [⟨5, false⟩] ∧ sys.closes = [⟨some 0, 5, some 0⟩] ∧
    slotsOf sys 0 = List.range 512 := by
  obtain ⟨cbuf, hready, hstart⟩ := start_spec
  have hP := onClosing_lastAccepted
  let sys₁ : System := ⟨⟨cbuf, fun _ => 0, 5⟩, [⟨5, true⟩], recvReq 0 5 ::ₘ acceptReq ::ₘ 0, [], [], []⟩
  have hacc : Steps ClosesLastAccepted ⟨⟨cbuf, fun _ => 0, -1⟩, [], acceptReq ::ₘ 0, [], [], []⟩
    sys₁ := accept_turn hP rfl (by decide) rfl rfl
  have hserv₁ : Serving sys₁ 0 5 0 (acceptReq ::ₘ 0) := ⟨rfl, hready, rfl, Nat.zero_le _⟩
  obtain ⟨sys₂, hrun₂, hserving, hkept, hslots⟩ := serve_rounds hP (by decide) 512 hserv₁ rfl le_rfl
  obtain ⟨sys₃, hrun₃, hreq, hconns, hcloses, hserved, hfinished, -, hcurrent, -⟩ :=
    finish_turn hP hserving (by decide)
  have hconns' : sys₃.conns = [⟨5, true⟩] := hconns.trans hkept.conns
  have hcur : sys₃.server.currentClientFd = 5 := hcurrent.trans hkept.current
  have hlast : ClosesLastAccepted sys₃ (closeReq 0 5) := fun _ _ => ⟨0, rfl, by rw [hconns']; rfl⟩
  have hclose := close_turn hreq (by decide) hlast
  refine ⟨_, ⟨_, hstart, ((hacc.trans hrun₂).trans hrun₃).trans hclose⟩, ?_, ?_, ?_⟩
  · simp only [hconns', hcur]
    decide
  · rw [hconns', hcur, hcloses, hkept.closes]
    rfl
  · have hslots' : slotsOf sys₃ 0 = slotsOf sys₂ 0 := by simp only [slotsOf, hserved]
    refine (show _ = slotsOf sys₃ 0 from rfl).trans (hslots'.trans (hslots.trans ?_))
    rw [List.range_eq_range']
    rfl

/-- Two clients connect, on sockets 5 and 6. The second takes one message, the first takes
all 512 and finishes, and the second one is closed. -/
theorem two_client_run : ∃ sys, Runs plainPlatform (fun _ _ => True) sys ∧
    sys.conns = [⟨5, true⟩, ⟨6, false⟩] ∧ sys.closes = [⟨some 0, 6, some 1⟩] ∧
    sys.finished = [some 0] ∧ sys.requests = acceptReq ::ₘ recvReq 1 6 ::ₘ 0 ∧
    Ready sys.server.cbuf ∧ 1 ≤ filled sys.server.cbuf ∧ sys.server.befferSendedN 6 = 1 ∧
    slotsOf sys 2 = [] := by
  obtain ⟨cbuf, hready, hstart⟩ := start_spec
  have hP : OnClosing fun _ _ => True := fun _ _ _ => trivial
  let sys₁ : System := ⟨⟨cbuf, fun _ => 0, 5⟩, [⟨5, true⟩], recvReq 0 5 ::ₘ acceptReq ::ₘ 0, [], [], []⟩
  let sys₂ : System := ⟨⟨cbuf, fun _ => 0, 6⟩, [⟨5, true⟩, ⟨6, true⟩],
    recvReq 1 6 ::ₘ acceptReq ::ₘ recvReq 0 5 ::ₘ 0, [], [], []⟩
  have hacc₁ : Steps (fun _ _ => True)
    ⟨⟨cbuf, fun _ => 0, -1⟩, [], acceptReq ::ₘ 0, [], [], []⟩ sys₁ :=
    accept_turn hP rfl (by decide) rfl rfl
  have hacc₂ : Steps (fun _ _ => True) sys₁ sys₂ :=
    accept_turn hP (Multiset.cons_swap (recvReq 0 5) acceptReq 0) (by decide) rfl rfl
  have hserv₂ : Serving sys₂ 1 6 0 (acceptReq ::ₘ recvReq 0 5 ::ₘ 0) :=
    ⟨rfl, hready, rfl, Nat.zero_le _⟩
  obtain ⟨sys₃, hrun₃, hserving₃, hkept₃, -⟩ := serve_round hP hserv₂ (by decide) rfl (by norm_num)
  have hown₃ : ownerOf sys₃.conns 5 = some 0 := by
    rw [hkept₃.conns]
    rfl
  have hreq₃ : sys₃.requests = recvReq 0 5 ::ₘ acceptReq ::ₘ recvReq 1 6 ::ₘ 0 := by
    rw [hserving₃.pending, Multiset.cons_swap acceptReq, Multiset.cons_swap (recvReq 1 6),
      Multiset.cons_swap (recvReq 1 6)]
  have hserv₃ : Serving sys₃ 0 5 0 (acceptReq ::ₘ recvReq 1 6 ::ₘ 0) :=
    ⟨hreq₃, hserving₃.ready, hkept₃.counters 5 (by decide), Nat.zero_le _⟩
  obtain ⟨sys₄, hrun₄, hserving₄, hkept₄, -⟩ := serve_rounds hP (by decide) 512 hserv₃ hown₃ le_rfl
  obtain ⟨sys₅, hrun₅, hreq₅, hconns₅, hcloses₅, hserved₅, hfinished₅, hready₅, hcurrent₅, hcount₅⟩ :=
    finish_turn hP hserving₄ (by decide)
  have hconns : sys₅.conns = [⟨5, true⟩, ⟨6, true⟩] :=
    hconns₅.trans (hkept₄.conns.trans hkept₃.conns)
  have hcur : sys₅.server.currentClientFd = 6 :=
    hcurrent₅.trans (hkept₄.current.trans hkept₃.current)
  have hfilled : 1 ≤ filled sys₅.server.cbuf := by
    obtain ⟨m, hm⟩ := hready₅.held 0 (by unfold filled; split <;> omega)
    exact hready₅.slotMsg_lt hm
  have hclose := close_turn (P := fun _ _ => True) hreq₅ (by decide) trivial
  refine ⟨_, ⟨_, hstart, ((((hacc₁.trans hacc₂).trans hrun₃).trans hrun₄).trans hrun₅).trans hclose⟩,
    ?_, ?_, ?_, rfl, hready₅, hfilled, ?_, ?_⟩
  · simp only [hconns, hcur]
    decide
  · rw [hconns, hcur, hcloses₅, hkept₄.closes, hkept₃.closes]
    rfl
  · exact hfinished₅.trans (by rw [hkept₄.finished, hkept₃.finished]; rfl)
  · calc Function.update sys₅.server.befferSendedN 5 0 6 = sys₅.server.befferSendedN 6 :=
          Function.update_of_ne (by decide) _ _
      _ = sys₄.server.befferSendedN 6 := by rw [hcount₅]; exact Function.update_of_ne (by decide) _ _
      _ = sys₃.server.befferSendedN 6 := hkept₄.counters 6 (by decide)
      _ = 1 := hserving₃.counter
  · have h₅ : slotsOf sys₅ 2 = slotsOf sys₄ 2 := by simp only [slotsOf, hserved₅]
    exact h₅.trans ((hkept₄.slots 2 (by decide)).trans (hkept₃.slots 2 (by decide)))

end Demonstration

/-- In every run in which only the connection accepted last is closed, each close acts on
the socket of the connection that finished and leaves every other one open. A closing
turn of such a run acts on its own connection's socket exactly when that connection was
accepted last. -/
theorem eventLoop_closes_finisher (pf : Platform) (sys : System)
    (h : Runs pf ClosesLastAccepted sys) :
    ClosesRight sys ∧ ∀ r ∈ sys.requests, ∀ d, r.sqe = .unprepared d →
      ∃ c fd, r.conn = some c ∧ sys.conns[c]? = some ⟨fd, true⟩ ∧
        (sys.server.currentClientFd = fd ↔ c + 1 = sys.conns.length) := by
  have ho := runs_orderly h
  refine ⟨ho.closes, fun r hr d hd => ?_⟩
  cases ho.requests r hr with
  | close hopen hf => exact ⟨_, _, rfl, hopen, ho.current_eq_iff hopen⟩
  | _ => cases hd

theorem eventLoop_closes_finisher_one_client : ∃ sys,
    Runs plainPlatform ClosesLastAccepted sys ∧ sys.closes = [⟨some 0, 5, some 0⟩] ∧
      ClosesRight sys := by
  obtain ⟨sys, hrun, -, hcloses, -⟩ := one_client_run
  exact ⟨sys, hrun, hcloses, (eventLoop_closes_finisher plainPlatform sys hrun).1⟩

/-- The client on socket 5 finishes, and socket 6 is closed while socket 5 stays open. -/
theorem eventLoop_closes_other_client : ∃ sys, Runs plainPlatform (fun _ _ => True) sys ∧
    sys.finished = [some 0] ∧ sys.closes = [⟨some 0, 6, some 1⟩] ∧
    sys.conns = [⟨5, true⟩, ⟨6, false⟩] ∧ ¬ ClosesRight sys := by
  obtain ⟨sys, hrun, hconns, hcloses, hfinished, -⟩ := two_client_run
  refine ⟨sys, hrun, hfinished, hcloses, hconns, fun hright => ?_⟩
  obtain ⟨c, hc, hv, -⟩ := hright.right ⟨some 0, 6, some 1⟩ (by rw [hcloses]; exact List.mem_singleton_self _)
  rw [← hc] at hv
  cases hv

/-- In every run in which only the connection accepted last is closed, each connection is
served slots 0, 1, 2, … -/
theorem eventLoop_serves_in_order (pf : Platform) (sys : System)
    (h : Runs pf ClosesLastAccepted sys) : ServesInOrder sys :=
  (runs_orderly h).serves

theorem eventLoop_serves_in_order_one_client : ∃ sys,
    Runs plainPlatform ClosesLastAccepted sys ∧ slotsOf sys 0 = List.range 512 ∧
      ServesInOrder sys := by
  obtain ⟨sys, hrun, -, -, hslots⟩ := one_client_run
  exact ⟨sys, hrun, hslots, eventLoop_serves_in_order plainPlatform sys hrun⟩

/-- A third client gets socket 6, and the first slot it is served is slot 1. -/
theorem eventLoop_skips_first_slot : ∃ sys, Runs plainPlatform (fun _ _ => True) sys ∧
    slotsOf sys 2 = [1] ∧ ¬ ServesInOrder sys := by
  obtain ⟨sys, ⟨start, hstart, hrun⟩, hconns, -, -, hreq, hready, hfilled, hcount, hslots⟩ :=
    two_client_run
  have hP : OnClosing fun _ _ => True := fun _ _ _ => trivial
  let sys₁ : System := { sys with
    server := { sys.server with currentClientFd := 6 }
    conns := sys.conns ++ [⟨6, true⟩]
    requests := recvReq 2 6 ::ₘ acceptReq ::ₘ recvReq 1 6 ::ₘ 0 }
  have hown : ownerOf sys₁.conns 6 = some 2 := by
    change ownerOf (sys.conns ++ [⟨6, true⟩]) 6 = some 2
    rw [hconns]
    rfl
  have hacc : Steps (fun _ _ => True) sys sys₁ :=
    accept_turn hP hreq (by decide) (by rw [hconns]; rfl) hown
  have hserv : Serving sys₁ 2 6 1 (acceptReq ::ₘ recvReq 1 6 ::ₘ 0) :=
    ⟨rfl, hready, hcount, hfilled⟩
  obtain ⟨sys', hrun', -, -, hslots'⟩ := serve_round hP hserv (by decide) hown (by norm_num)
  have hone : slotsOf sys' 2 = [1] := by
    rw [hslots']
    exact congrArg (· ++ [1]) hslots
  refine ⟨sys', ⟨start, hstart, (hrun.trans hacc).trans hrun'⟩, hone, fun hserves => ?_⟩
  have hrange := hserves.slots 2
  rw [hone] at hrange
  exact absurd hrange (by decide)

end CBlockchain.ServerClosing
