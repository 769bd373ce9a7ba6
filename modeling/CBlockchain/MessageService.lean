import CBlockchain.Automaton
import CBlockchain.ClientRegions

/-! What the message server is for: it hands one sequence of messages to all its clients, to
each from the beginning and one message at a time, and ends with the Merkle root of the
first 512. The service below has a cursor for each client and no buffer; the event loop
with its buffer puts out the same on all completions for socket numbers that have a place in
the server's arrays, and faults on the same ones. -/
namespace CBlockchain.MessageService
open ConnectionHandlers DataHandlers EventLoop Layering Automaton RequestData Serdes
open ClientRegions (Addressable)

/-- The socket number a turn works on: the result of an accept, or the number in the tag. -/
def workedOn (cqe : Cqe) : Fd :=
  if requestDataEventType cqe.userData = some .flagAccept then cqe.res
  else requestDataClientFd cqe.userData

/-- A completion that a turn handles within the arrays of `setup_buffers`, and the clock then. -/
structure Completion where
  stamp : Stamp
  cqe : Cqe
  addressable : Addressable (workedOn cqe)

/-- What a completion tells the service. -/
inductive Event where
  | connected (res : Fd)
  | sent (fd : Fd)
  | wants (fd : Fd)
  | agrees (fd : Fd)
  | done (fd : Fd)
  | closing (fd : Fd)
  | garbled (fd : Fd)
  | silent

/-- What a client says with its status. -/
def Event.ofStatus (fd : Fd) : Status → Event
  | .needMore => .wants fd
  | .acknOk => .agrees fd
  | .enough => .done fd
  | _ => .silent

inductive Reply where
  | listenForClients
  | ask (fd : Fd)
  | listen (fd : Fd)
  | deliver (fd : Fd) (n : ℕ)
  | exhausted (fd : Fd)
  | total (fd : Fd)
  | hangUp (fd : Fd)

/-- The next message of each client, how many messages have been created, and the result of
the last accept. -/
structure Service where
  cursor : Fd → ℕ
  mark : ℕ
  newest : Fd

/-- A total needs all 512 messages to exist, whoever asked for them. -/
def serviceStep (v : Service) : Event → Option (Service × List Reply)
  | .connected res => some ({ v with newest := res }, [.listenForClients, .ask res])
  | .sent fd => some (v, [.listen fd])
  | .wants fd =>
    if v.cursor fd < 512 then
      some ({ v with
        cursor := Function.update v.cursor fd (v.cursor fd + 1)
        mark := max v.mark (v.cursor fd + 1) }, [.deliver fd (v.cursor fd)])
    else some (v, [.exhausted fd])
  | .agrees fd => some (v, [.ask fd])
  | .done fd =>
    if v.mark = 512 then
      some ({ v with cursor := Function.update v.cursor fd 0 }, [.total fd])
    else none
  | .closing fd => some ({ v with cursor := Function.update v.cursor fd 0 }, [.hangUp v.newest])
  | .garbled _ => none
  | .silent => some (v, [])

def opened : Service := ⟨fun _ => 0, 1, -1⟩

section Connection

/-- The event that a completion stands for. -/
def eventOf (codec : Codec) (cqe : Cqe) : Event :=
  let tagFd := requestDataClientFd cqe.userData
  match requestDataEventType cqe.userData with
  | some .flagAccept => .connected cqe.res
  | some .readResponse => if cqe.res ≠ 0 then .sent tagFd else .silent
  | some .flagCloseConnection => .closing tagFd
  | some .testResponse =>
    if 0 < cqe.res.toInt then
      match readOnlyStatusResponse codec cqe.data with
      | none => .garbled tagFd
      | some status => .ofStatus tagFd status
    else .silent
  | _ => .silent

variable (pf : Platform)

/-- The root of the first 512 messages. -/
def blockRoot : Digest :=
  PerfectTree.root (Hashing.calcHash pf.H) (Hashing.merge2hashses pf.H) 9 pf.src.lsGetASignedMsg

/-- A reply on the wire. -/
def render (stamp : Stamp) : Reply → List Effect
  | .listenForClients => [addAcceptRequest]
  | .ask fd => [.submit (.send fd (sendOnlyStatusCode pf.codec stamp .askNeedMsg)
      (makeRequestData fd .readResponse))]
  | .listen fd => [.submit (.recv fd (makeRequestData fd .testResponse))]
  | .deliver fd n => [.serve fd n (pf.src.lsGetASignedMsg n),
      .submit (.send fd (serializeDataV2 pf.codec stamp (pf.src.lsGetASignedMsg n))
        (makeRequestData fd .readResponse))]
  | .exhausted fd => [.submit (.send fd (sendOnlyStatusCode pf.codec stamp .allBlockMsgSended)
      (makeRequestData fd .readResponse))]
  | .total fd => [.merkleRoot fd (blockRoot pf),
      .submit (.unprepared (makeRequestData fd .flagCloseConnection))]
  | .hangUp fd => [.shutdownClose fd]

def service : Automaton Service Completion Effect := fun i v =>
  (serviceStep v (eventOf pf.codec i.cqe)).map fun r => (r.1, r.2.flatMap (render pf i.stamp))

def eventLoop : Automaton Server Completion Effect := fun i s =>
  eventLoopStep pf i.stamp i.cqe s

/-- The event loop from its start, over any completions. -/
def serverRun (is : List Completion) : Option (Server × List Effect) := do
  let (s, effects) ← eventLoopStart pf
  let (s, effects') ← run (eventLoop pf) is s
  some (s, effects ++ effects')

def serviceRun (is : List Completion) : Option (Service × List Effect) := do
  let (v, effects) ← run (service pf) is opened
  some (v, addAcceptRequest :: effects)

end Connection

/-- Slot `i` points to address `i`, where the `i`-th message lies, for all that exist. -/
structure Represents (src : MessageSource) (s : Server) (v : Service) : Prop where
  counters : s.befferSendedN = v.cursor
  newest : s.currentClientFd = v.newest
  filled : filled s.cbuf = v.mark
  length : s.cbuf.buffer.length = 512
  maxlen : s.cbuf.maxlen = 512
  le : v.mark ≤ 512
  cells : s.cbuf.msgs.cells = (List.range v.mark).map fun n => some (src.lsGetASignedMsg n)
  slots : ∀ i < v.mark, ptrAt s.cbuf.buffer i = some i
  null : ∀ i, v.mark ≤ i → ptrAt s.cbuf.buffer i = none

namespace Represents
variable {src : MessageSource} {s : Server} {v : Service}

theorem read (h : Represents src s v) {n : ℕ} (hn : n < v.mark) :
    s.cbuf.msgs.read (some n) = some (src.lsGetASignedMsg n) := by
  rw [Heap.read_some, h.cells, List.getElem?_map, List.getElem?_range hn, Option.map_some]
  rfl

theorem slotMsg (h : Represents src s v) {n : ℕ} (hn : n < v.mark) :
    slotMsg s.cbuf n = some (src.lsGetASignedMsg n) := by
  rw [DataHandlers.slotMsg, h.slots n hn, h.read hn]

theorem length_cells (h : Represents src s v) : s.cbuf.msgs.cells.length = v.mark := by
  rw [h.cells, List.length_map, List.length_range]

theorem ready (h : Represents src s v) : Ready s.cbuf where
  length := h.length
  maxlen := h.maxlen
  le := h.filled.trans_le h.le
  held := by
    intro i hi
    rw [h.filled] at hi
    exact ⟨_, h.slotMsg hi⟩
  null := by
    intro i hi
    rw [h.filled] at hi
    exact h.null i hi
  generated := by
    intro p m hp
    cases p with
    | none => cases hp
    | some a =>
      have ha := Heap.read_some_lt hp
      rw [h.length_cells] at ha
      rw [h.read ha, Option.some.injEq] at hp
      rw [← hp]
      exact MessageSource.lsGetASignedMsg_length src a

/-- An access creates the messages that are missing up to its slot. -/
theorem getNthCircBuf (h : Represents src s v) {N : ℕ} (hN : N < 512) :
    ∃ cbuf, DataHandlers.getNthCircBuf src 512 N s.cbuf = some (some N, cbuf) ∧
      Represents src { s with cbuf := cbuf } { v with mark := max v.mark (N + 1) } := by
  have hle := h.le
  have hfilled := h.filled
  by_cases hempty : s.cbuf.fillSize = 0
  · have hmark : v.mark = 512 := by rw [← hfilled, DataHandlers.filled, if_pos hempty]
    refine ⟨s.cbuf, ?_, ?_⟩
    · rw [getNthCircBuf_empty src 512 hN hempty, h.slots N (by omega)]
    · rw [show max v.mark (N + 1) = v.mark by omega]
      exact h
  · have hmark : s.cbuf.fillSize = v.mark := by rw [← hfilled, DataHandlers.filled, if_neg hempty]
    obtain ⟨cbuf, hfill, hget⟩ := getNthCircBuf_filledTo src hN h.length h.maxlen hempty (by omega)
    rw [hmark] at hfill
    have hslots : ∀ i < max v.mark (N + 1), ptrAt cbuf.buffer i = some i := by
      intro i hi
      by_cases hold : i < v.mark
      · rw [hfill.kept i (Or.inl (by omega)), h.slots i hold]
      · rw [hfill.pushed i (by omega) hi, h.length_cells, hmark, Nat.add_sub_cancel' (by omega)]
    refine ⟨cbuf, ?_, h.counters, h.newest, ?_, hfill.length.trans h.length,
      hfill.maxlen.trans h.maxlen, by dsimp only; omega, ?_, hslots, ?_⟩
    · rw [hget 512 (by omega), hslots N (by omega)]
    · simp only [DataHandlers.filled, hfill.fillSize]
      rw [if_neg (by omega)]
    · have hmax : max v.mark (N + 1) = v.mark + (max v.mark (N + 1) - v.mark) := by omega
      rw [hfill.cells, h.cells, hmark, List.length_map, List.length_range]
      simp only
      rw [hmax, List.range_add, List.map_append, List.map_map, ← hmax]
      rfl
    · intro i hi
      rw [hfill.kept i (Or.inr hi)]
      exact h.null i (le_trans (le_max_left _ _) hi)

theorem setCounter (h : Represents src s v) (fd : Fd) (n : ℕ) :
    Represents src { s with befferSendedN := Function.update s.befferSendedN fd n }
      { v with cursor := Function.update v.cursor fd n } where
  counters := by rw [h.counters]
  newest := h.newest
  filled := h.filled
  length := h.length
  maxlen := h.maxlen
  le := h.le
  cells := h.cells
  slots := h.slots
  null := h.null

theorem accepted (h : Represents src s v) (res : Fd) :
    Represents src { s with currentClientFd := res } { v with newest := res } where
  counters := h.counters
  newest := rfl
  filled := h.filled
  length := h.length
  maxlen := h.maxlen
  le := h.le
  cells := h.cells
  slots := h.slots
  null := h.null

theorem reset (h : Represents src s v) (hmark : v.mark = 512) :
    Represents src { s with cbuf := { s.cbuf with fillSize := 0 } } v where
  counters := h.counters
  newest := h.newest
  filled := by rw [DataHandlers.filled, if_pos rfl, hmark]
  length := h.length
  maxlen := h.maxlen
  le := h.le
  cells := h.cells
  slots := h.slots
  null := h.null

end Represents

section Steps
variable {pf : Platform} {s : Server} {v : Service}

/-- The service's answer to an event, on the wire. -/
def answer (pf : Platform) (stamp : Stamp) (v : Service) (e : Event) :
    Option (Service × List Effect) :=
  (serviceStep v e).map fun r => (r.1, r.2.flatMap (render pf stamp))

theorem needMore_agrees (h : Represents pf.src s v) (stamp : Stamp) (fd : Fd) :
    Agree (Represents pf.src) (handleResponseNeedMoreMsg pf stamp fd s)
      (answer pf stamp v (.wants fd)) := by
  have hcounter : s.befferSendedN fd = v.cursor fd := congrFun h.counters fd
  by_cases hlt : v.cursor fd < 512
  · obtain ⟨cbuf, hget, hrep⟩ := h.getNthCircBuf hlt
    have hread := hrep.read (n := v.cursor fd) (lt_max_of_lt_right (Nat.lt_succ_self _))
    rw [handleResponseNeedMoreMsg, if_neg (by omega), answer, serviceStep, if_pos hlt, hcounter]
    simp only [hget, Option.bind_eq_bind, Option.bind_some, hread, Option.map_some]
    exact .some ⟨hrep.setCounter fd _, rfl⟩
  · rw [handleResponseNeedMoreMsg, if_pos (by omega), answer, serviceStep, if_neg hlt]
    exact .some ⟨h, rfl⟩

theorem enough_agrees (h : Represents pf.src s v) (stamp : Stamp) (fd : Fd) :
    Agree (Represents pf.src) (finishSending pf fd s) (answer pf stamp v (.done fd)) := by
  by_cases hmark : v.mark = 512
  · have hm : ∀ i < 512, slotMsg s.cbuf i = some (pf.src.lsGetASignedMsg i) :=
      fun i hi => h.slotMsg (by omega)
    obtain ⟨hfin, -⟩ := finishSending_spec pf h.ready fd hm
    rw [hfin, answer, serviceStep, if_pos hmark]
    exact .some ⟨(h.reset hmark).setCounter fd 0, rfl⟩
  · have hmissing : ¬ BufferRuns.AllHeld s.cbuf := by
      rw [BufferRuns.allHeld_iff h.ready, h.filled]
      exact hmark
    rw [(BufferRuns.finishSending_eq_none_iff h.ready fd).mpr hmissing, answer, serviceStep,
      if_neg hmark]
    exact .none

theorem handleStatus_agrees (h : Represents pf.src s v) (stamp : Stamp) (fd : Fd)
    (status : Status) :
    Agree (Represents pf.src) (handleStatus pf stamp fd s status)
      (answer pf stamp v (.ofStatus fd status)) := by
  cases status with
  | needMore => exact needMore_agrees h stamp fd
  | acknOk => exact .some ⟨h, rfl⟩
  | enough => exact enough_agrees h stamp fd
  | _ => exact .some ⟨h, rfl⟩

/-- One turn of the event loop is one step of the service. -/
theorem eventLoopStep_agrees (h : Represents pf.src s v) (stamp : Stamp) (cqe : Cqe) :
    Agree (Represents pf.src) (eventLoopStep pf stamp cqe s)
      (answer pf stamp v (eventOf pf.codec cqe)) := by
  simp only [eventLoopStep, eventOf]
  cases hflag : requestDataEventType cqe.userData with
  | none => exact .some ⟨h, rfl⟩
  | some flag =>
    cases flag with
    | flagAccept =>
      rw [requestDataClientFd_signExtend]
      exact .some ⟨h.accepted cqe.res, rfl⟩
    | readResponse =>
      by_cases hres : cqe.res ≠ 0
      · rw [if_pos hres, if_pos hres]
        exact .some ⟨h, rfl⟩
      · rw [if_neg hres, if_neg hres]
        exact .some ⟨h, rfl⟩
    | flagCloseConnection =>
      refine .some ⟨h.setCounter _ 0, ?_⟩
      rw [h.newest]
      rfl
    | testResponse =>
      by_cases hres : 0 < cqe.res.toInt
      · rw [if_pos hres, if_pos hres]
        cases hread : readOnlyStatusResponse pf.codec cqe.data with
        | none => exact .none
        | some status => exact handleStatus_agrees h stamp _ status
      · rw [if_neg hres, if_neg hres]
        exact .some ⟨h, rfl⟩
    | _ => exact .some ⟨h, rfl⟩

theorem eventLoop_simulates : Simulates (eventLoop pf) (service pf) (Represents pf.src) :=
  fun i _ _ h => eventLoopStep_agrees h i.stamp i.cqe

end Steps

section Runs
variable (pf : Platform)

theorem start_represents : ∃ s, eventLoopStart pf = some (s, [addAcceptRequest]) ∧
    Represents pf.src s opened := by
  have hcur : createCircBuf.fillSize < createCircBuf.buffer.length := by
    rw [createCircBuf_holdsTo.length]
    norm_num [createCircBuf]
  obtain ⟨cbuf, hpush, hfill⟩ := pushMsgCircBuf_filledTo pf.src (by decide) hcur
  refine ⟨⟨cbuf, fun _ => 0, -1⟩, by simp [eventLoopStart, hpush], rfl, rfl, ?_,
    hfill.length.trans createCircBuf_holdsTo.length,
    hfill.maxlen.trans createCircBuf_holdsTo.maxlen, by norm_num [opened], hfill.cells, ?_, ?_⟩
  · rw [DataHandlers.filled, hfill.fillSize, if_neg (by decide)]
    rfl
  · intro i hi
    rw [hfill.pushed i (Nat.zero_le i) hi]
    exact congrArg some (Nat.zero_add i)
  · intro i hi
    rw [hfill.kept i (Or.inr hi)]
    exact createCircBuf_holdsTo.null i (Nat.zero_le i)

theorem serverRun_agrees (is : List Completion) :
    Agree (Represents pf.src) (serverRun pf is) (serviceRun pf is) := by
  obtain ⟨s, hstart, hrep⟩ := start_represents pf
  have hrun := eventLoop_simulates.run is hrep
  simp only [serverRun, hstart, serviceRun, Option.bind_eq_bind, Option.bind_some]
  generalize run (eventLoop pf) is s = r at hrun ⊢
  generalize run (service pf) is opened = r' at hrun ⊢
  cases hrun with
  | none => exact .none
  | some h => exact .some ⟨h.1, by simp only [h.2, List.singleton_append]⟩

/-- Over every sequence of completions on sockets with a place in the arrays the event loop puts
out what the service puts out, and faults where it faults. Where it does not fault, its buffer
holds the messages created so far, each in the slot of its number. -/
theorem serverRun_refines_serviceRun (is : List Completion) :
    Agree (Represents pf.src) (serverRun pf is) (serviceRun pf is) :=
  serverRun_agrees pf is

end Runs

section Contents
variable {pf : Platform} {stamp : Stamp} {v v' : Service} {e : Event} {rs : List Reply}
  {i : Completion} {is : List Completion} {s : Server} {effects : List Effect}

theorem service_eq_some : service pf i v = some (v', effects) ↔ ∃ rs,
    serviceStep v (eventOf pf.codec i.cqe) = some (v', rs) ∧
      effects = rs.flatMap (render pf i.stamp) := by
  simp only [service, Option.map_eq_some_iff, Prod.mk.injEq, Prod.exists]
  constructor
  · rintro ⟨v', rs, hstep, rfl, rfl⟩
    exact ⟨rs, hstep, rfl⟩
  · rintro ⟨rs, hstep, rfl⟩
    exact ⟨v', rs, hstep, rfl, rfl⟩

theorem serviceRun_eq_some : serviceRun pf is = some (v, effects) ↔
    ∃ os, run (service pf) is opened = some (v, os) ∧ effects = addAcceptRequest :: os := by
  simp only [serviceRun, Option.bind_eq_bind, Option.bind_eq_some_iff, Option.some.injEq,
    Prod.mk.injEq, Prod.exists]
  constructor
  · rintro ⟨v', os, hrun, rfl, rfl⟩
    exact ⟨os, hrun, rfl⟩
  · rintro ⟨os, hrun, rfl⟩
    exact ⟨v, os, hrun, rfl, rfl⟩

theorem serve_mem_render {r : Reply} {fd : Fd} {n : ℕ} {m : SignedMessage} :
    .serve fd n m ∈ render pf stamp r ↔ r = .deliver fd n ∧ m = pf.src.lsGetASignedMsg n := by
  cases r with
  | deliver fd' n' =>
    simp only [render, List.mem_cons, Effect.serve.injEq, reduceCtorEq, List.not_mem_nil, or_false,
      Reply.deliver.injEq]
    constructor
    · rintro ⟨rfl, rfl, rfl⟩
      exact ⟨⟨rfl, rfl⟩, rfl⟩
    · rintro ⟨⟨rfl, rfl⟩, rfl⟩
      exact ⟨rfl, rfl, rfl⟩
  | _ => simp [render, addAcceptRequest]

theorem merkleRoot_mem_render {r : Reply} {fd : Fd} {hash : Digest}
    (h : .merkleRoot fd hash ∈ render pf stamp r) : hash = blockRoot pf := by
  cases r with
  | total fd' =>
    simp only [render, List.mem_cons, Effect.merkleRoot.injEq, reduceCtorEq, List.not_mem_nil,
      or_false] at h
    exact h.2
  | _ => simp [render, addAcceptRequest] at h

/-- The messages that exist after a step: those from before, and all up to the one delivered. -/
theorem serviceStep_mark (h : serviceStep v e = some (v', rs)) :
    (∀ fd n, .deliver fd n ∈ rs → n < 512) ∧
    ∀ n, n < v'.mark ↔ n < v.mark ∨ ∃ fd k, .deliver fd k ∈ rs ∧ n ≤ k := by
  cases e with
  | wants fd =>
    rw [serviceStep] at h
    split at h
    · rename_i hlt
      simp only [Option.some.injEq, Prod.mk.injEq] at h
      obtain ⟨rfl, rfl⟩ := h
      refine ⟨?_, fun n => ?_⟩
      · simp only [List.mem_singleton, Reply.deliver.injEq]
        rintro fd n ⟨rfl, rfl⟩
        exact hlt
      · simp only [List.mem_singleton, Reply.deliver.injEq, lt_max_iff, Nat.lt_succ_iff]
        simp only [and_assoc, exists_and_left, exists_eq_left]
    · simp only [Option.some.injEq, Prod.mk.injEq] at h
      obtain ⟨rfl, rfl⟩ := h
      simp
  | done fd =>
    rw [serviceStep] at h
    split at h
    · simp only [Option.some.injEq, Prod.mk.injEq] at h
      obtain ⟨rfl, rfl⟩ := h
      simp
    · cases h
  | garbled => cases h
  | _ =>
    simp only [serviceStep, Option.some.injEq, Prod.mk.injEq] at h
    obtain ⟨rfl, rfl⟩ := h
    simp

theorem service_run_contents (hrun : run (service pf) is v = some (v', effects)) :
    (∀ fd n m, .serve fd n m ∈ effects → n < 512 ∧ m = pf.src.lsGetASignedMsg n) ∧
    (∀ fd hash, .merkleRoot fd hash ∈ effects → hash = blockRoot pf) ∧
    ∀ n, n < v'.mark ↔ n < v.mark ∨ ∃ fd k m, .serve fd k m ∈ effects ∧ n ≤ k := by
  induction is generalizing v effects with
  | nil =>
    simp only [run_nil, Option.some.injEq, Prod.mk.injEq] at hrun
    obtain ⟨rfl, rfl⟩ := hrun
    simp
  | cons i is ih =>
    obtain ⟨u, os₁, os₂, hstep, hrest, rfl⟩ := run_cons_eq_some.mp hrun
    obtain ⟨rs, hservice, rfl⟩ := service_eq_some.mp hstep
    obtain ⟨hlt, hmark⟩ := serviceStep_mark hservice
    obtain ⟨hserve, hroot, hmark'⟩ := ih hrest
    refine ⟨?_, ?_, fun n => ?_⟩
    · intro fd n m hmem
      rcases List.mem_append.mp hmem with hmem | hmem
      · obtain ⟨r, hr, hmem⟩ := List.mem_flatMap.mp hmem
        obtain ⟨rfl, hm⟩ := serve_mem_render.mp hmem
        exact ⟨hlt fd n hr, hm⟩
      · exact hserve fd n m hmem
    · intro fd hash hmem
      rcases List.mem_append.mp hmem with hmem | hmem
      · obtain ⟨r, -, hmem⟩ := List.mem_flatMap.mp hmem
        exact merkleRoot_mem_render hmem
      · exact hroot fd hash hmem
    · rw [hmark', hmark, or_assoc]
      apply or_congr Iff.rfl
      constructor
      · rintro (⟨fd, k, hr, hle⟩ | ⟨fd, k, m, hmem, hle⟩)
        · exact ⟨fd, k, _, List.mem_append_left _ (List.mem_flatMap.mpr
            ⟨_, hr, serve_mem_render.mpr ⟨rfl, rfl⟩⟩), hle⟩
        · exact ⟨fd, k, m, List.mem_append_right _ hmem, hle⟩
      · rintro ⟨fd, k, m, hmem, hle⟩
        rcases List.mem_append.mp hmem with hmem | hmem
        · obtain ⟨r, hr, hmem⟩ := List.mem_flatMap.mp hmem
          obtain ⟨rfl, -⟩ := serve_mem_render.mp hmem
          exact Or.inl ⟨fd, k, hr, hle⟩
        · exact Or.inr ⟨fd, k, m, hmem, hle⟩

theorem serverRun_eq_some (hrun : serverRun pf is = some (s, effects)) :
    ∃ v, serviceRun pf is = some (v, effects) ∧ Represents pf.src s v := by
  have hagree := serverRun_agrees pf is
  rw [hrun] at hagree
  obtain ⟨v, hservice, hrep⟩ := hagree.exists_right
  exact ⟨v, hservice, hrep⟩

/-- Whatever has completed: the buffer, the counters and the last accepted socket are those of
the service; a slot is served with the message of its number, every root is that of the
first 512 messages, and message `n` has been created exactly if it is the first one or a
slot from `n` on has been served. None is ever destroyed. -/
theorem serverRun_contents (hrun : serverRun pf is = some (s, effects)) :
    ∃ v, serviceRun pf is = some (v, effects) ∧ Represents pf.src s v ∧
    (∀ fd n m, .serve fd n m ∈ effects → n < 512 ∧ m = pf.src.lsGetASignedMsg n) ∧
    (∀ fd hash, .merkleRoot fd hash ∈ effects → hash = blockRoot pf) ∧
    ∀ n, n < v.mark ↔ n = 0 ∨ ∃ fd k m, .serve fd k m ∈ effects ∧ n ≤ k := by
  obtain ⟨v, hservice, hrep⟩ := serverRun_eq_some hrun
  obtain ⟨os, hrun', rfl⟩ := serviceRun_eq_some.mp hservice
  obtain ⟨hserve, hroot, hmark⟩ := service_run_contents hrun'
  refine ⟨v, hservice, hrep, ?_, ?_, fun n => ?_⟩
  · intro fd n m hmem
    apply hserve fd n m
    simpa [addAcceptRequest] using hmem
  · intro fd hash hmem
    apply hroot fd hash
    simpa [addAcceptRequest] using hmem
  · rw [hmark]
    simp [opened, addAcceptRequest]

end Contents

section Demonstration
open ServerClosing

theorem eventOf_received {codec : Codec} {fd : Fd} (hfd : fd.msb = false) {res : BitVec 32}
    (hres : 0 < res.toInt) (stamp : Stamp) {status : Status} (hn : status.Named) :
    eventOf codec ⟨makeRequestData fd .testResponse, res, sendOnlyStatusCode codec stamp status⟩ =
      .ofStatus fd status := by
  simp [eventOf, requestDataEventType_make hfd, hres, readOnlyStatusResponse_send codec stamp hn]

theorem eventOf_accepted (codec : Codec) (res : Fd) (data : List UInt8) :
    eventOf codec ⟨makeRequestData 0 .flagAccept, res, data⟩ = .connected res := by
  simp [eventOf, requestDataEventType_make]

theorem workedOn_make {fd : Fd} (hfd : fd.msb = false) {flag : FlagState}
    (hflag : flag ≠ .flagAccept) (res : BitVec 32) (data : List UInt8) :
    workedOn ⟨makeRequestData fd flag, res, data⟩ = fd := by
  rw [workedOn, requestDataEventType_make hfd, if_neg (by simpa using hflag),
    requestDataClientFd_make]

section Clients
variable (fd : Fd) (hfd : Addressable fd)

theorem msb_of_addressable {fd : Fd} (h : Addressable fd) : fd.msb = false := by
  rw [BitVec.msb_eq_toInt]
  simpa using h.1

def connects : Completion where
  stamp := zeroStamp
  cqe := ⟨makeRequestData 0 .flagAccept, fd, []⟩
  addressable := by simpa [workedOn, requestDataEventType_make] using hfd

def asks : Completion where
  stamp := zeroStamp
  cqe := ⟨makeRequestData fd .testResponse, 6, statusFrame .needMore⟩
  addressable := by rwa [workedOn_make (msb_of_addressable hfd) (by decide)]

theorem eventOf_connects : eventOf plainPlatform.codec (connects fd hfd).cqe = .connected fd :=
  eventOf_accepted _ _ _

theorem eventOf_asks : eventOf plainPlatform.codec (asks fd hfd).cqe = .wants fd :=
  eventOf_received (msb_of_addressable hfd) (by decide) zeroStamp (by simp [Status.Named])

theorem service_connects (v : Service) : service plainPlatform (connects fd hfd) v =
    answer plainPlatform zeroStamp v (.connected fd) := by
  rw [service, eventOf_connects]
  rfl

theorem service_asks (v : Service) : service plainPlatform (asks fd hfd) v =
    answer plainPlatform zeroStamp v (.wants fd) := by
  rw [service, eventOf_asks]
  rfl

/-- A client connects on `fd` and asks for a message. -/
def firstRequest : List Completion := [connects fd hfd, asks fd hfd]

theorem firstRequest_served : ∃ s effects,
    serverRun plainPlatform (firstRequest fd hfd) = some (s, effects) ∧
      .serve fd 0 (plainPlatform.src.lsGetASignedMsg 0) ∈ effects := by
  have hrun := run_cons_eq_some.mpr ⟨_, _, _, service_connects fd hfd opened,
    run_cons_eq_some.mpr ⟨_, _, _, service_asks fd hfd ⟨fun _ => 0, 1, fd⟩, run_nil _ _, rfl⟩, rfl⟩
  have hagree := serverRun_agrees plainPlatform (firstRequest fd hfd)
  rw [serviceRun, firstRequest, hrun] at hagree
  obtain ⟨s, hs, -⟩ := hagree.exists_left
  exact ⟨s, _, hs, by simp [render]⟩

end Clients

theorem serverRun_contents_first_request : ∃ s effects,
    serverRun plainPlatform (firstRequest 5 (by decide)) = some (s, effects) ∧
    ∃ v, serviceRun plainPlatform (firstRequest 5 (by decide)) = some (v, effects) ∧
      Represents plainPlatform.src s v ∧ 0 < v.mark := by
  obtain ⟨s, effects, hrun, -⟩ := firstRequest_served 5 (by decide)
  obtain ⟨v, hservice, hrep, -, -, hmark⟩ := serverRun_contents hrun
  exact ⟨s, effects, hrun, v, hservice, hrep, (hmark 0).mpr (Or.inl rfl)⟩

end Demonstration
end CBlockchain.MessageService
