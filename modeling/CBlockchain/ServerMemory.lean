import CBlockchain.BufferLedger
import CBlockchain.BufferRuns

/-! The memory of the message server over whole runs. What a run does to the buffer is a
history of accesses and resets after the one push at the start, so the ledger of such
histories speaks for every run. -/
namespace CBlockchain.ServerMemory
open BufferHistory BufferLedger BufferRuns ConnectionHandlers DataHandlers EventLoop RequestData
open Serdes ServerClosing ServerRuns

section Steps
variable {pf : Platform} {s s' : Server} {effects : List Effect} {stamp : Stamp} {cqe : Cqe}

/-- The operations of the server after its start. -/
def Access (op : BufOp) : Prop := op.Valid ∧ op ≠ .push

/-- What a turn does to the buffer. -/
def Touches (src : MessageSource) (c c' : CircBuf) : Prop :=
  c' = c ∨ ∃ op, Access op ∧ ∀ epoch, ∃ epoch', bufStep src op ⟨c, epoch⟩ = some ⟨c', epoch'⟩

theorem touches_reset (src : MessageSource) (c : CircBuf) :
    Touches src c { c with fillSize := 0 } :=
  .inr ⟨.reset, ⟨trivial, by simp⟩, fun _ => ⟨_, rfl⟩⟩

theorem touches_get {src : MessageSource} {c c' : CircBuf} {N : ℕ} {p : Ptr} (hN : N < 512)
    (h : getNthCircBuf src 512 N c = some (p, c')) : Touches src c c' := by
  refine .inr ⟨.get N, ⟨hN, by simp⟩, fun epoch => ⟨epoch, ?_⟩⟩
  rw [bufStep, h]
  rfl

theorem handleStatus_touches {fd : Fd} {status : Status}
    (h : handleStatus pf stamp fd s status = some (s', effects)) :
    Touches pf.src s.cbuf s'.cbuf := by
  cases status with
  | needMore =>
    simp only [handleStatus, handleResponseNeedMoreMsg] at h
    split at h
    · simp only [requestSendStatus, Option.some.injEq, Prod.mk.injEq] at h
      obtain ⟨rfl, -⟩ := h
      exact .inl rfl
    · rename_i hlt
      simp only [Option.bind_eq_bind, Option.bind_eq_some_iff, Option.some.injEq,
        Prod.mk.injEq] at h
      obtain ⟨⟨p, cbuf⟩, hget, m, -, rfl, -⟩ := h
      exact touches_get (by omega) hget
  | acknOk =>
    simp only [handleStatus, requestAskNeedMsg, requestSendStatus, Option.some.injEq,
      Prod.mk.injEq] at h
    obtain ⟨rfl, -⟩ := h
    exact .inl rfl
  | enough =>
    simp only [handleStatus, finishSending, Option.bind_eq_bind, Option.bind_eq_some_iff,
      Option.some.injEq, Prod.mk.injEq] at h
    obtain ⟨hash, -, rfl, -⟩ := h
    exact touches_reset _ _
  | _ =>
    simp only [handleStatus, Option.some.injEq, Prod.mk.injEq] at h
    obtain ⟨rfl, -⟩ := h
    exact .inl rfl

theorem step_touches (h : eventLoopStep pf stamp cqe s = some (s', effects)) :
    Touches pf.src s.cbuf s'.cbuf := by
  have hidle : ∀ {t : Server} {es : List Effect}, some (t, es) = some (s', effects) →
      t.cbuf = s.cbuf → Touches pf.src s.cbuf s'.cbuf := by
    intro t es he hcbuf
    rw [Option.some.injEq, Prod.mk.injEq] at he
    obtain ⟨rfl, -⟩ := he
    exact .inl hcbuf
  simp only [eventLoopStep] at h
  split at h
  · simp only [requestAskNeedMsg, requestSendStatus, Option.bind_eq_bind, Option.bind_some] at h
    exact hidle h rfl
  · split at h
    · exact hidle h rfl
    · exact hidle h rfl
  · exact hidle h rfl
  · exact hidle h rfl
  · split at h
    · obtain ⟨status, -, hs⟩ := Option.bind_eq_some_iff.mp h
      exact handleStatus_touches hs
    · exact hidle h rfl
  · exact hidle h rfl
  · exact hidle h rfl

end Steps

section Runs
variable {pf : Platform} {sys sys' : System} {r : Request}

/-- The buffer is what a history of accesses and resets makes of the created one. -/
def Made (src : MessageSource) (c : CircBuf) : Prop :=
  ∃ ops, (∀ op ∈ ops, Access op) ∧ ∃ epoch, history src (.push :: ops) = some ⟨c, epoch⟩

theorem Made.touches {src : MessageSource} {c c' : CircBuf} (h : Made src c)
    (ht : Touches src c c') : Made src c' := by
  obtain ⟨ops, hops, epoch, hrun⟩ := h
  rcases ht with rfl | ⟨op, hop, hstep⟩
  · exact ⟨ops, hops, epoch, hrun⟩
  · obtain ⟨epoch', hstep⟩ := hstep epoch
    refine ⟨ops ++ [op], ?_, epoch', ?_⟩
    · intro o ho
      rcases List.mem_append.mp ho with ho | ho
      · exact hops o ho
      · rw [List.mem_singleton.mp ho]
        exact hop
    · rw [← List.cons_append, history_append, hrun, Option.bind_some, hstep]

theorem initial_made {start : System} (h : initial pf = some start) :
    Made pf.src start.server.cbuf := by
  simp only [initial, eventLoopStart, Option.bind_eq_bind, Option.bind_eq_some_iff,
    Option.some.injEq, Prod.exists] at h
  obtain ⟨server, effects, ⟨cbuf, hpush, hstart⟩, rfl⟩ := h
  rw [Prod.mk.injEq] at hstart
  obtain ⟨rfl, rfl⟩ := hstart
  refine ⟨[], by simp, if cbuf.fillSize = 0 then cbuf.msgs.cells.length else 0, ?_⟩
  simp only [history, List.foldlM_cons, List.foldlM_nil, bufStep, created, hpush,
    Option.map_some, Option.bind_eq_bind, Option.bind_some]
  rfl

theorem runs_made {P : System → Request → Prop} (h : Runs pf P sys) :
    Made pf.src sys.server.cbuf := by
  obtain ⟨start, hstart, hrun⟩ := h
  induction hrun with
  | refl => exact initial_made hstart
  | tail _ hstep ih =>
    obtain ⟨r, -, turn⟩ := hstep
    obtain ⟨stamp, cqe, effects, step, -⟩ := turn_step turn
    exact ih.touches (step_touches step)

/-- However many clients come and go and whatever they send: the buffer has seen one push and
then accesses and resets only, at most 512 messages are in memory, each behind one slot of the
buffer, and cleaning the buffer gives back all of them. -/
theorem server_memory_bounded {P : System → Request → Prop} (h : Runs pf P sys) :
    Made pf.src sys.server.cbuf ∧
    sys.server.cbuf.msgs.live ≤ 512 ∧
    (sys.server.cbuf.buffer.filter fun p => (sys.server.cbuf.msgs.read p).isSome).Nodup ∧
    (sys.server.cbuf.buffer.filter fun p => (sys.server.cbuf.msgs.read p).isSome).length =
      sys.server.cbuf.msgs.live ∧
    ∃ c', cleanCircBuf sys.server.cbuf = some c' ∧ c'.msgs.live = 0 := by
  obtain ⟨ops, hops, epoch, hrun⟩ := runs_made h
  obtain ⟨hlost, hwrapped, -⟩ := Ledger.after_accesses ops fun op hop => (hops op hop).2
  obtain ⟨s, hrun', hbal⟩ := history_balanced pf.src (.push :: ops) (by
    intro op hop
    rcases List.mem_cons.mp hop with rfl | hop
    · exact trivial
    · exact (hops op hop).1)
  rw [hrun, Option.some.injEq] at hrun'
  subst hrun'
  have hlive := hbal.live
  have hheld := hbal.held_le
  have hlen : sys.server.cbuf.buffer.length = 512 := hbal.length
  rw [hlost, Nat.add_zero] at hlive
  obtain ⟨msgs, hclean, hlive', -, -⟩ := hbal.clean_returns (.inl hwrapped)
  refine ⟨runs_made h, hlive.trans_le hheld, ?_, ?_, _, hclean, hlive'.trans hlost⟩
  · rw [hbal.filter_live]
    exact hbal.nodup
  · rw [hbal.filter_live, List.length_take, hlive]
    dsimp only
    omega

/-- One client has been served all messages. -/
theorem server_memory_bounded_served : ∃ sys, Runs plainPlatform (fun _ _ => True) sys ∧
    511 ∈ slotsServed sys ∧ Made plainPlatform.src sys.server.cbuf ∧
    sys.server.cbuf.msgs.live ≤ 512 ∧
    ∃ c', cleanCircBuf sys.server.cbuf = some c' ∧ c'.msgs.live = 0 := by
  obtain ⟨sys, hrun, -, hserved⟩ := all_served_run
  obtain ⟨hmade, hlive, -, -, hclean⟩ := server_memory_bounded hrun
  exact ⟨sys, hrun, hserved, hmade, hlive, hclean⟩

end Runs
end CBlockchain.ServerMemory
