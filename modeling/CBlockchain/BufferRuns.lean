import CBlockchain.ServerClosing

/-! The message buffer of the server: the pushes one access makes, and the buffer over whole
runs, for clients that send any status at any time. A turn may serve a slot, end a transfer, or
leave the buffer alone; as long as the process lives, slots are written once and the buffer
never wraps around. -/
namespace CBlockchain.BufferRuns
open CalcMerkleTree ConnectionHandlers DataHandlers EventLoop Layering RequestData Serdes
open ServerClosing ServerRuns
variable (src : MessageSource)

/-- The buffers that `PUSH_msg_circ_buf` is called on by the loop of `GET_nth_circ_buf`. -/
def pushLoopCalls (N : ℕ) : ℕ → CircBuf → List CircBuf
  | 0, _ => []
  | fuel + 1, cbuf => cbuf ::
    match pushMsgCircBuf src cbuf with
    | none => []
    | some cbuf => if (N + 1) % 2 ^ 64 ≠ cbuf.fillSize then pushLoopCalls N fuel cbuf else []

def getNthCircBufCalls (fuel N : ℕ) (cbuf : CircBuf) : List CircBuf :=
  if N > (cbuf.fillSize + (2 ^ 64 - 1)) % 2 ^ 64 then pushLoopCalls src N fuel cbuf else []

/-- The calls of `PUSH_msg_circ_buf`, one after the other, that lead from `c` to `c'`. -/
def PushedBy (calls : List CircBuf) (c c' : CircBuf) : Prop :=
  (calls ++ [c']).head? = some c ∧
    (calls ++ [c']).IsChain fun d d' => pushMsgCircBuf src d = some d'

/-- A slot that has been written keeps its pointer, and the message behind it stays. -/
def Keeps (c c' : CircBuf) : Prop :=
  ∀ i a, ptrAt c.buffer i = some a → ptrAt c'.buffer i = some a ∧
    ∀ m, c.msgs.read (some a) = some m → c'.msgs.read (some a) = some m

/-- All 512 slots hold messages. -/
def AllHeld (cbuf : CircBuf) : Prop := ∀ i < 512, ∃ m, slotMsg cbuf i = some m

section Buffer
variable {src} {c c' : CircBuf} {N : ℕ}

theorem Keeps.refl (c : CircBuf) : Keeps c c := fun _ _ h => ⟨h, fun _ hm => hm⟩

theorem Keeps.trans {c₁ c₂ c₃ : CircBuf} (h : Keeps c₁ c₂) (h' : Keeps c₂ c₃) : Keeps c₁ c₃ := by
  intro i a hi
  obtain ⟨hi₂, hm₂⟩ := h i a hi
  obtain ⟨hi₃, hm₃⟩ := h' i a hi₂
  exact ⟨hi₃, fun m hm => hm₃ m (hm₂ m hm)⟩

/-- A slot that has been written lies below `fill_size`. -/
theorem keeps_of_filledTo {n : ℕ} (hc : HoldsTo c.fillSize c) (h : FilledTo src n c c') :
    Keeps c c' := by
  intro i a hi
  have hlt : i < c.fillSize := by
    by_contra hge
    rw [hc.null i (by omega)] at hi
    cases hi
  exact ⟨(h.kept i (Or.inl hlt)).trans hi, fun m hm => h.extends _ _ hm⟩

theorem pushLoopCalls_succ (N fuel : ℕ) {c c' : CircBuf} (hpush : pushMsgCircBuf src c = some c') :
    pushLoopCalls src N (fuel + 1) c = c ::
      if (N + 1) % 2 ^ 64 ≠ c'.fillSize then pushLoopCalls src N fuel c' else [] := by
  rw [pushLoopCalls, hpush]

theorem pushLoopCalls_pushedBy (N fuel : ℕ) {c c' : CircBuf}
    (hloop : pushLoop src N fuel c = some c') :
    PushedBy src (pushLoopCalls src N fuel c) c c' := by
  induction fuel generalizing c with
  | zero => cases hloop
  | succ fuel ih =>
    rw [pushLoop_succ, Option.bind_eq_some_iff] at hloop
    obtain ⟨c₁, hpush, hloop⟩ := hloop
    rw [pushLoopCalls_succ N fuel hpush]
    refine ⟨rfl, ?_⟩
    split at hloop
    · rename_i hmore
      obtain ⟨hhead, hchain⟩ := ih hloop
      rw [if_pos hmore, List.cons_append, List.isChain_cons]
      refine ⟨fun d hd => ?_, hchain⟩
      rw [Option.mem_def, hhead, Option.some.injEq] at hd
      rwa [← hd]
    · rename_i hlast
      rw [if_neg hlast, ← Option.some.inj hloop]
      exact List.isChain_cons_cons.mpr ⟨hpush, List.isChain_singleton c₁⟩

theorem getNthCircBufCalls_pushedBy {fuel : ℕ} {p : Ptr}
    (hget : getNthCircBuf src fuel N c = some (p, c')) :
    PushedBy src (getNthCircBufCalls src fuel N c) c c' := by
  rw [getNthCircBufCalls]
  simp only [getNthCircBuf] at hget
  split at hget
  · rename_i hlast
    simp only [Option.bind_eq_bind, Option.bind_eq_some_iff, Option.some.injEq,
      Prod.mk.injEq] at hget
    obtain ⟨c₁, hloop, -, rfl⟩ := hget
    rw [if_pos hlast]
    exact pushLoopCalls_pushedBy N fuel hloop
  · rename_i hlast
    rw [Option.some.injEq, Prod.mk.injEq] at hget
    rw [if_neg hlast, ← hget.2]
    exact ⟨rfl, List.isChain_singleton c⟩

/-- One call for every slot that is missing, each on a buffer with room. -/
theorem pushLoopCalls_spec (hN : N < 512) (k : ℕ) {fuel : ℕ} {c : CircBuf}
    (hlen : c.buffer.length = 512) (hmax : c.maxlen = 512) (hk : c.fillSize + k = N)
    (hfuel : k < fuel) :
    (pushLoopCalls src N fuel c).length = k + 1 ∧
      ∀ d ∈ pushLoopCalls src N fuel c, d.fillSize ≠ d.maxlen := by
  have hmod : (N + 1) % 2 ^ 64 = N + 1 := Nat.mod_eq_of_lt (by omega)
  have hroom : c.fillSize ≠ c.maxlen := by omega
  induction k generalizing c fuel with
  | zero =>
    obtain ⟨fuel, rfl⟩ := Nat.exists_eq_add_one_of_ne_zero (by omega : fuel ≠ 0)
    obtain ⟨c₁, hpush, hfill⟩ := pushMsgCircBuf_filledTo src hroom (by omega)
    have hsize := hfill.fillSize
    rw [pushLoopCalls_succ N fuel hpush, hmod, if_neg (by omega)]
    simp [hroom]
  | succ k ih =>
    obtain ⟨fuel, rfl⟩ := Nat.exists_eq_add_one_of_ne_zero (by omega : fuel ≠ 0)
    obtain ⟨c₁, hpush, hfill⟩ := pushMsgCircBuf_filledTo src hroom (by omega)
    have hsize := hfill.fillSize
    have hmax₁ := hfill.maxlen
    obtain ⟨hcount, hrest⟩ := ih (hfill.length.trans hlen) (hmax₁.trans hmax)
      (by omega) (by omega : k < fuel) (by omega)
    rw [pushLoopCalls_succ N fuel hpush, hmod, if_pos (by omega)]
    refine ⟨by rw [List.length_cons, hcount], fun d hd => ?_⟩
    rcases List.mem_cons.mp hd with rfl | hd
    · exact hroom
    · exact hrest d hd

theorem getNthCircBufCalls_spec (hN : N < 512) (hlen : c.buffer.length = 512)
    (hmax : c.maxlen = 512) (hpos : c.fillSize ≠ 0) (hle : c.fillSize ≤ 512) {fuel : ℕ}
    (hfuel : N + 1 - c.fillSize ≤ fuel) :
    (getNthCircBufCalls src fuel N c).length = N + 1 - c.fillSize ∧
      ∀ d ∈ getNthCircBufCalls src fuel N c, d.fillSize ≠ d.maxlen := by
  rw [getNthCircBufCalls]
  by_cases hlast : c.fillSize ≤ N
  · rw [if_pos ((serial_lt_iff hpos hle).mpr hlast),
      show N + 1 - c.fillSize = N - c.fillSize + 1 by omega]
    exact pushLoopCalls_spec hN (N - c.fillSize) hlen hmax (by omega) (by omega)
  · rw [if_neg fun h => hlast ((serial_lt_iff hpos hle).mp h)]
    refine ⟨?_, fun d hd => by cases hd⟩
    rw [List.length_nil]
    omega

theorem getNthCircBuf_keeps (h : Ready c) (hN : N < 512) {p : Ptr}
    (hget : getNthCircBuf src 512 N c = some (p, c')) : Keeps c c' := by
  by_cases hz : c.fillSize = 0
  · rw [getNthCircBuf_empty src 512 hN hz, Option.some.injEq, Prod.mk.injEq] at hget
    rw [← hget.2]
    exact .refl c
  · have hc := h.holdsTo hz
    obtain ⟨c₁, hfill, hrun⟩ := getNthCircBuf_filledTo src hN hc.length hc.maxlen hz hc.le
    rw [hrun 512 (by omega), Option.some.injEq, Prod.mk.injEq] at hget
    rw [← hget.2]
    exact keeps_of_filledTo hc hfill

theorem getNthCircBufCalls_room (h : Ready c) (hN : N < 512) :
    ∀ d ∈ getNthCircBufCalls src 512 N c, d.fillSize ≠ d.maxlen := by
  by_cases hz : c.fillSize = 0
  · intro d hd
    rw [getNthCircBufCalls, hz, if_neg (by omega)] at hd
    cases hd
  · have hc := h.holdsTo hz
    exact (getNthCircBufCalls_spec hN hc.length hc.maxlen hz hc.le (by omega)).2

theorem allHeld_iff (h : Ready c) : AllHeld c ↔ filled c = 512 := by
  constructor
  · intro hall
    obtain ⟨m, hm⟩ := hall 511 (by norm_num)
    have hlt := h.slotMsg_lt hm
    have hle : filled c ≤ 512 := h.le
    omega
  · intro hfull i hi
    exact h.held i (by omega)

end Buffer

/-- `GET_nth_circ_buf` on a buffer that is not empty makes one call of `PUSH_msg_circ_buf` for
every slot missing up to `N`, none of them on a full buffer, and returns; the slots filled hold
new messages, all others keep their pointers and no message in memory changes. -/
theorem getNthCircBuf_fills_missing (src : MessageSource) (N : ℕ) (c : CircBuf)
    (hlen : c.buffer.length = 512) (hmax : c.maxlen = 512) (hpos : 1 ≤ c.fillSize)
    (hle : c.fillSize ≤ c.maxlen) (hN : N < 512) :
    ∃ c', (∀ fuel, N + 1 - c.fillSize ≤ fuel →
        getNthCircBuf src fuel N c = some (ptrAt c'.buffer N, c') ∧
        PushedBy src (getNthCircBufCalls src fuel N c) c c' ∧
        (getNthCircBufCalls src fuel N c).length = N + 1 - c.fillSize ∧
        ∀ d ∈ getNthCircBufCalls src fuel N c, d.fillSize ≠ d.maxlen) ∧
      c'.fillSize = max c.fillSize (N + 1) ∧
      (∀ i < c.fillSize, ptrAt c'.buffer i = ptrAt c.buffer i) ∧
      (∀ i, c.fillSize ≤ i → i ≤ N → ∃ a, ptrAt c'.buffer i = some a ∧ c.msgs.cells.length ≤ a ∧
        c'.msgs.read (some a) = some (src.lsGetASignedMsg a)) ∧
      (∀ i, N < i → ptrAt c'.buffer i = ptrAt c.buffer i) ∧
      ∀ a < c.msgs.cells.length, c'.msgs.read (some a) = c.msgs.read (some a) := by
  have hz : c.fillSize ≠ 0 := by omega
  have hle' : c.fillSize ≤ 512 := by omega
  obtain ⟨c', hfill, hget⟩ := getNthCircBuf_filledTo src hN hlen hmax hz hle'
  refine ⟨c', ?_, hfill.fillSize, ?_, ?_, ?_, fun a ha => hfill.read_old ha⟩
  · intro fuel hfuel
    have hrun := hget fuel hfuel
    exact ⟨hrun, getNthCircBufCalls_pushedBy hrun,
      getNthCircBufCalls_spec hN hlen hmax hz hle' hfuel⟩
  · intro i hi
    exact hfill.kept i (Or.inl hi)
  · intro i hi hiN
    exact ⟨_, hfill.pushed i hi (by omega), by omega, hfill.read_new (by omega) (by omega)⟩
  · intro i hi
    by_cases hold : i < c.fillSize
    · exact hfill.kept i (Or.inl hold)
    · exact hfill.kept i (Or.inr (by omega))

/-- The last slot, asked for right after the start of the server. -/
theorem getNthCircBuf_fills_missing_after_start : ∃ s effects c',
    eventLoopStart plainPlatform = some (s, effects) ∧
    getNthCircBuf plainPlatform.src 512 511 s.cbuf = some (ptrAt c'.buffer 511, c') ∧
    (getNthCircBufCalls plainPlatform.src 512 511 s.cbuf).length = 511 ∧ c'.fillSize = 512 := by
  obtain ⟨cbuf, hstart, hready, hsize⟩ := eventLoopStart_spec plainPlatform
  have hc := hready.holdsTo (by omega)
  obtain ⟨c', hrun, hfill, -⟩ := getNthCircBuf_fills_missing plainPlatform.src 511 cbuf hc.length
    hc.maxlen (by omega) (by rw [hc.maxlen]; omega) (by norm_num)
  obtain ⟨hget, -, hcalls, -⟩ := hrun 512 (by omega)
  rw [hsize] at hcalls hfill
  exact ⟨_, _, c', hstart, hget, hcalls, hfill⟩

section Steps
variable {pf : Platform} {s s' : Server} {effects : List Effect}

/-- The slot whose message is handed out. -/
def servedSlot : Effect → Option ℕ
  | .serve _ slot _ => some slot
  | .submit _ | .merkleRoot _ _ | .shutdownClose _ => none

/-- The server's buffer and counters, after the slots `slots` have been handed out. -/
structure BufferOk (s : Server) (slots : List ℕ) : Prop where
  ready : Ready s.cbuf
  counters : ∀ fd, s.befferSendedN fd ≤ 512
  full : filled s.cbuf = 512 ↔ 511 ∈ slots

theorem needMore_bufferOk {slots : List ℕ} (hok : BufferOk s slots) {stamp : Stamp} {fd : Fd}
    (h : handleResponseNeedMoreMsg pf stamp fd s = some (s', effects)) :
    BufferOk s' (slots ++ effects.filterMap servedSlot) ∧ Keeps s.cbuf s'.cbuf := by
  by_cases hlt : s.befferSendedN fd < 512
  · obtain ⟨cbuf, m, hserves, -, hready, -, hfilled⟩ :=
      handleResponseNeedMoreMsg_serves pf hok.ready stamp hlt
    have hkeep : Keeps s.cbuf cbuf := by
      obtain ⟨p, c', m', hget, hread, -⟩ := getNthCircBuf_spec pf.src hok.ready hlt
      rw [handleResponseNeedMoreMsg, if_neg (by omega)] at hserves
      simp only [hget, Option.bind_eq_bind, Option.bind_some, hread, Option.some.injEq,
        Prod.mk.injEq, Server.mk.injEq] at hserves
      rw [← hserves.1.1]
      exact getNthCircBuf_keeps hok.ready hlt hget
    rw [hserves, Option.some.injEq, Prod.mk.injEq] at h
    obtain ⟨rfl, rfl⟩ := h
    refine ⟨⟨hready, fun fd' => ?_, ?_⟩, hkeep⟩
    · by_cases hfd : fd' = fd
      · subst hfd
        simpa using hlt
      · simpa [Function.update_of_ne hfd] using hok.counters fd'
    · have hle : filled s.cbuf ≤ 512 := hok.ready.le
      have hfull := hok.full
      simp only [List.filterMap_cons, servedSlot, List.filterMap_nil, List.mem_append,
        List.mem_singleton, ← hfull]
      rw [hfilled]
      omega
  · rw [handleResponseNeedMoreMsg, if_pos (by omega), requestSendStatus, Option.some.injEq,
      Prod.mk.injEq] at h
    obtain ⟨rfl, rfl⟩ := h
    refine ⟨?_, .refl _⟩
    simpa [List.filterMap_cons, servedSlot] using hok

/-- A transfer that ends has found all slots held. -/
theorem finishSending_bufferOk {slots : List ℕ} (hok : BufferOk s slots) {fd : Fd}
    (h : finishSending pf fd s = some (s', effects)) :
    BufferOk s' (slots ++ effects.filterMap servedSlot) ∧ Keeps s.cbuf s'.cbuf := by
  simp only [finishSending, Option.bind_eq_bind, Option.bind_eq_some_iff, Option.some.injEq,
    Prod.mk.injEq] at h
  obtain ⟨hash, hhash, rfl, rfl⟩ := h
  have hall : AllHeld s.cbuf := calcMerkleTree_reads pf.H hhash
  have hfull : 511 ∈ slots := hok.full.mp ((allHeld_iff hok.ready).mp hall)
  refine ⟨⟨HoldsTo.reset hok.ready hall, fun fd' => ?_, ?_⟩, .refl _⟩
  · by_cases hfd : fd' = fd
    · subst hfd
      simp
    · simpa [Function.update_of_ne hfd] using hok.counters fd'
  · simp [filled, List.filterMap_cons, servedSlot, hfull]

theorem finishSending_eq_none_iff (hr : Ready s.cbuf) (fd : Fd) :
    finishSending pf fd s = none ↔ ¬ AllHeld s.cbuf := by
  constructor
  · intro hnone hall
    obtain ⟨msg, hmsg⟩ := exists_messages hall
    rw [(finishSending_spec pf hr fd hmsg).1] at hnone
    cases hnone
  · intro hmissing
    rw [Option.eq_none_iff_forall_ne_some]
    rintro ⟨s', effects⟩ hfin
    simp only [finishSending, Option.bind_eq_bind, Option.bind_eq_some_iff] at hfin
    obtain ⟨hash, hhash, -⟩ := hfin
    exact hmissing (calcMerkleTree_reads _ hhash)

theorem step_bufferOk {slots : List ℕ} (hok : BufferOk s slots) {stamp : Stamp} {cqe : Cqe}
    (h : eventLoopStep pf stamp cqe s = some (s', effects)) :
    BufferOk s' (slots ++ effects.filterMap servedSlot) ∧ Keeps s.cbuf s'.cbuf := by
  have hidle : ∀ {t : Server} {es : List Effect}, some (s, es) = some (t, effects) → t = s' →
      es.filterMap servedSlot = [] →
      BufferOk s' (slots ++ effects.filterMap servedSlot) ∧ Keeps s.cbuf s'.cbuf := by
    intro t es he ht hes
    rw [Option.some.injEq, Prod.mk.injEq] at he
    obtain ⟨rfl, rfl⟩ := he
    subst ht
    rw [hes, List.append_nil]
    exact ⟨hok, .refl _⟩
  simp only [eventLoopStep] at h
  split at h
  · simp only [requestAskNeedMsg, requestSendStatus, Option.bind_eq_bind, Option.bind_some,
      Option.some.injEq, Prod.mk.injEq] at h
    obtain ⟨rfl, rfl⟩ := h
    refine ⟨⟨hok.ready, hok.counters, ?_⟩, .refl _⟩
    simpa [List.filterMap_cons, servedSlot, addAcceptRequest] using hok.full
  · split at h
    · exact hidle h rfl rfl
    · exact hidle h rfl rfl
  · exact hidle h rfl rfl
  · rw [Option.some.injEq, Prod.mk.injEq] at h
    obtain ⟨rfl, rfl⟩ := h
    refine ⟨⟨hok.ready, fun fd' => ?_, ?_⟩, .refl _⟩
    · by_cases hfd : fd' = requestDataClientFd cqe.userData
      · subst hfd
        simp
      · simpa [Function.update_of_ne hfd] using hok.counters fd'
    · simpa [List.filterMap_cons, servedSlot] using hok.full
  · split at h
    · obtain ⟨status, -, hs⟩ := Option.bind_eq_some_iff.mp h
      cases status with
      | needMore => exact needMore_bufferOk hok hs
      | acknOk => exact hidle hs rfl rfl
      | enough => exact finishSending_bufferOk hok hs
      | _ => exact hidle hs rfl rfl
    · exact hidle h rfl rfl
  · exact hidle h rfl rfl
  · exact hidle h rfl rfl

end Steps

section Runs
variable {pf : Platform} {sys sys' : System} {r : Request}

/-- The slots handed out so far, to whichever client. -/
def slotsServed (sys : System) : List ℕ := sys.served.map Prod.snd

theorem perform_foldl (handled : Option ℕ) (effects : List Effect) : ∀ sys : System,
    (effects.foldl (perform handled) sys).server = sys.server ∧
    slotsServed (effects.foldl (perform handled) sys) =
      slotsServed sys ++ effects.filterMap servedSlot := by
  induction effects with
  | nil => simp
  | cons e effects ih =>
    intro sys
    rw [List.foldl_cons]
    obtain ⟨hserver, hslots⟩ := ih (perform handled sys e)
    rw [hserver, hslots]
    cases e <;> simp [perform, slotsServed, List.filterMap_cons, servedSlot]

theorem turn_step (ht : Turn pf sys r sys') : ∃ stamp cqe effects,
    eventLoopStep pf stamp cqe sys.server = some (sys'.server, effects) ∧
      slotsServed sys' = slotsServed sys ++ effects.filterMap servedSlot := by
  cases ht with
  | @accepted _ server effects o hp hr hunused hstep =>
    obtain ⟨hserver, hslots⟩ := perform_foldl (some sys.conns.length) effects _
    refine ⟨o.stamp, ⟨r.sqe.userData, o.res, o.data⟩, effects, ?_, hslots⟩
    rw [hserver]
    exact hstep
  | @completed _ server effects o hp hr hcount hstep =>
    obtain ⟨hserver, hslots⟩ := perform_foldl r.conn effects _
    refine ⟨o.stamp, ⟨r.sqe.userData, o.res, o.data⟩, effects, ?_, hslots⟩
    rw [hserver]
    exact hstep

theorem turn_bufferOk (hok : BufferOk sys.server (slotsServed sys)) (ht : Turn pf sys r sys') :
    BufferOk sys'.server (slotsServed sys') ∧ Keeps sys.server.cbuf sys'.server.cbuf := by
  obtain ⟨stamp, cqe, effects, hstep, hslots⟩ := turn_step ht
  rw [hslots]
  exact step_bufferOk hok hstep

theorem turns_bufferOk (hok : BufferOk sys.server (slotsServed sys))
    (hrun : Relation.ReflTransGen (fun a b => ∃ r, Turn pf a r b) sys sys') :
    BufferOk sys'.server (slotsServed sys') ∧ Keeps sys.server.cbuf sys'.server.cbuf := by
  induction hrun with
  | refl => exact ⟨hok, .refl _⟩
  | tail _ hstep ih =>
    obtain ⟨r, ht⟩ := hstep
    obtain ⟨hok', hkeep⟩ := turn_bufferOk ih.1 ht
    exact ⟨hok', ih.2.trans hkeep⟩

theorem initial_bufferOk {start : System} (h : initial pf = some start) :
    BufferOk start.server (slotsServed start) := by
  obtain ⟨cbuf, hstart, hready, hsize⟩ := eventLoopStart_spec pf
  simp only [initial, hstart, Option.bind_eq_bind, Option.bind_some, List.foldl_cons,
    List.foldl_nil, perform, addAcceptRequest, Option.some.injEq] at h
  subst h
  refine ⟨hready, fun _ => Nat.zero_le _, ?_⟩
  simp [filled, hsize, slotsServed]

theorem runs_bufferOk {P : System → Request → Prop} (h : Runs pf P sys) :
    BufferOk sys.server (slotsServed sys) := by
  obtain ⟨start, hstart, hrun⟩ := h
  have hrun' : Relation.ReflTransGen (fun a b => ∃ r, Turn pf a r b) start sys := by
    refine Relation.ReflTransGen.mono ?_ _ _ hrun
    rintro a b ⟨r, -, ht⟩
    exact ⟨r, ht⟩
  exact (turns_bufferOk (initial_bufferOk hstart) hrun').1

end Runs

section Demonstration

/-- One client has connected on socket 5 and its first answer is awaited. -/
def firstAccepted (cbuf : CircBuf) : System :=
  ⟨⟨cbuf, fun _ => 0, 5⟩, [⟨5, true⟩], recvReq 0 5 ::ₘ acceptReq ::ₘ 0, [], [], []⟩

theorem accepted_run : ∃ cbuf, Ready cbuf ∧ cbuf.fillSize = 1 ∧
    Runs plainPlatform (fun _ _ => True) (firstAccepted cbuf) := by
  obtain ⟨cbuf, hstart, hready, hsize⟩ := eventLoopStart_spec plainPlatform
  refine ⟨cbuf, hready, hsize, ⟨⟨cbuf, fun _ => 0, -1⟩, [], acceptReq ::ₘ 0, [], [], []⟩, ?_, ?_⟩
  · simp only [initial, hstart, Option.bind_eq_bind, Option.bind_some]
    rfl
  · exact accept_turn (fun _ _ _ => trivial) rfl (by decide) rfl rfl

theorem all_served_run : ∃ sys, Runs plainPlatform (fun _ _ => True) sys ∧
    recvReq 0 5 ∈ sys.requests ∧ 511 ∈ slotsServed sys := by
  obtain ⟨cbuf, hready, -, start, hstart, hrun⟩ := accepted_run
  have hserving₀ : Serving (firstAccepted cbuf) 0 5 0 (acceptReq ::ₘ 0) :=
    ⟨rfl, hready, rfl, Nat.zero_le _⟩
  obtain ⟨sys, hserve, hserving, -, hslots⟩ := serve_rounds (P := fun _ _ => True)
    (fun _ _ _ => trivial) (by decide) 512 hserving₀ rfl le_rfl
  refine ⟨sys, ⟨start, hstart, hrun.trans hserve⟩, ?_, ?_⟩
  · rw [hserving.pending]
    exact Multiset.mem_cons_self _ _
  · have hmem : 511 ∈ slotsOf sys 0 := by
      rw [hslots]
      exact List.mem_append_right _ (List.mem_range'_1.mpr (by norm_num))
    obtain ⟨e, he, hslot⟩ := List.mem_map.mp hmem
    exact List.mem_map.mpr ⟨e, List.mem_of_mem_filter he, hslot⟩

end Demonstration

/-- Completing `r` with outcome `o` takes the loop to `FINISH_SENDING` and its tree. -/
structure ReachesFinish (pf : Platform) (sys : System) (r : Request) (o : Outcome) : Prop where
  pending : r ∈ sys.requests
  tag : requestDataEventType r.sqe.userData = some .testResponse
  received : 0 < o.res.toInt
  count : (o.data.length : ℤ) = o.res.toInt
  status : readOnlyStatusResponse pf.codec o.data = some .enough

theorem ReachesFinish.step_eq {pf : Platform} {sys : System} {r : Request} {o : Outcome}
    (h : ReachesFinish pf sys r o) :
    eventLoopStep pf o.stamp ⟨r.sqe.userData, o.res, o.data⟩ sys.server =
      finishSending pf (requestDataClientFd r.sqe.userData) sys.server := by
  simp only [eventLoopStep, h.tag, if_pos h.received, h.status, Option.bind_some, handleStatus]

/-- Whatever the clients have sent, a tree is built over 512 messages exactly if the last
slot has been handed out before, to this client or to another one; without that the turn
reads a null pointer. -/
theorem finishSending_over_messages_iff (pf : Platform) (sys : System) (r : Request) (o : Outcome)
    (h : Runs pf (fun _ _ => True) sys) (hfin : ReachesFinish pf sys r o) :
    (AllHeld sys.server.cbuf ↔ 511 ∈ slotsServed sys) ∧
    (eventLoopStep pf o.stamp ⟨r.sqe.userData, o.res, o.data⟩ sys.server = none ↔
      511 ∉ slotsServed sys) := by
  have hok := runs_bufferOk h
  have hheld : AllHeld sys.server.cbuf ↔ 511 ∈ slotsServed sys := by
    rw [allHeld_iff hok.ready, hok.full]
  refine ⟨hheld, ?_⟩
  rw [hfin.step_eq, finishSending_eq_none_iff hok.ready, hheld]

theorem enough_reachesFinish {sys : System} (h : recvReq 0 5 ∈ sys.requests) :
    ReachesFinish plainPlatform sys (recvReq 0 5) ⟨zeroStamp, 6, statusFrame .enough⟩ where
  pending := h
  tag := requestDataEventType_make (by decide) .testResponse
  received := by decide
  count := by
    rw [length_statusFrame (by decide)]
    rfl
  status := readOnlyStatusResponse_send _ _ (by intro n; simp)

theorem finishSending_over_messages_one_client : ∃ sys,
    Runs plainPlatform (fun _ _ => True) sys ∧
    ReachesFinish plainPlatform sys (recvReq 0 5) ⟨zeroStamp, 6, statusFrame .enough⟩ ∧
    AllHeld sys.server.cbuf := by
  obtain ⟨sys, hrun, hmem, hserved⟩ := all_served_run
  have hfin := enough_reachesFinish hmem
  exact ⟨sys, hrun, hfin, (finishSending_over_messages_iff _ sys _ _ hrun hfin).1.mpr hserved⟩

/-- A client on socket 5 answers the first question with `ENOUGH`. One message has been
pushed; the tree reads the null pointer behind it and the server crashes. -/
theorem finishSending_over_missing_messages : ∃ sys,
    Runs plainPlatform (fun _ _ => True) sys ∧
    ReachesFinish plainPlatform sys (recvReq 0 5) ⟨zeroStamp, 6, statusFrame .enough⟩ ∧
    ¬ AllHeld sys.server.cbuf ∧ finishSending plainPlatform 5 sys.server = none := by
  obtain ⟨cbuf, hready, hsize, hrun⟩ := accepted_run
  have hmissing : ¬ AllHeld cbuf := by
    rw [allHeld_iff hready, filled, hsize]
    norm_num
  have hmem : recvReq 0 5 ∈ (firstAccepted cbuf).requests := by simp [firstAccepted]
  exact ⟨firstAccepted cbuf, hrun, enough_reachesFinish hmem, hmissing,
    (finishSending_eq_none_iff hready 5).mpr hmissing⟩

/-- In every state the server reaches, whatever its clients have sent: no counter and no
fill level is above 512; asking for the next slot of any socket returns, and pushes only
onto a buffer with room, as the push at the start does; and in every later state each
written slot still has its pointer and its message. -/
theorem handed_out_messages_stay_valid (pf : Platform) (sys : System)
    (h : Runs pf (fun _ _ => True) sys) :
    (∀ fd, sys.server.befferSendedN fd ≤ 512) ∧ sys.server.cbuf.fillSize ≤ 512 ∧
    (∀ fd, sys.server.befferSendedN fd < 512 →
      (∃ p cbuf, getNthCircBuf pf.src 512 (sys.server.befferSendedN fd) sys.server.cbuf =
        some (p, cbuf)) ∧
      ∀ c ∈ getNthCircBufCalls pf.src 512 (sys.server.befferSendedN fd) sys.server.cbuf,
        c.fillSize ≠ c.maxlen) ∧
    createCircBuf.fillSize ≠ createCircBuf.maxlen ∧
    ∀ sys', Relation.ReflTransGen (fun a b => ∃ r, Turn pf a r b) sys sys' →
      Keeps sys.server.cbuf sys'.server.cbuf := by
  have hok := runs_bufferOk h
  refine ⟨hok.counters, ?_, ?_, by decide, fun sys' hrun => (turns_bufferOk hok hrun).2⟩
  · have hle : filled sys.server.cbuf ≤ 512 := hok.ready.le
    rw [filled] at hle
    split at hle <;> omega
  · intro fd hlt
    obtain ⟨p, cbuf, m, hget, -⟩ := getNthCircBuf_spec pf.src hok.ready hlt
    exact ⟨⟨p, cbuf, hget⟩, getNthCircBufCalls_room hok.ready hlt⟩

theorem handed_out_messages_stay_valid_one_client : ∃ sys,
    Runs plainPlatform (fun _ _ => True) sys ∧ 511 ∈ slotsServed sys ∧
    sys.server.cbuf.fillSize ≤ 512 ∧
    ∀ sys', Relation.ReflTransGen (fun a b => ∃ r, Turn plainPlatform a r b) sys sys' →
      Keeps sys.server.cbuf sys'.server.cbuf := by
  obtain ⟨sys, hrun, -, hserved⟩ := all_served_run
  obtain ⟨-, hfill, -, -, hkeep⟩ := handed_out_messages_stay_valid plainPlatform sys hrun
  exact ⟨sys, hrun, hserved, hfill, hkeep⟩

end CBlockchain.BufferRuns
