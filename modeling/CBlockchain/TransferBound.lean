import CBlockchain.Amortized
import CBlockchain.TransferWork

/-! The number of steps of a run of the protocol, bounded by the accepts it has taken, and
which steps are no accepts. -/
namespace CBlockchain.Transfer
open Amortized ConnectionHandlers DataHandlers EventLoop ReceiveLoop RequestData Serdes
variable {pf : Platform} {net net' : Net} {fd : Fd}

section Accounting

/-- Six steps for each of the 1024 exchanges of a connection, and five for the rest. -/
def connectionCost : ℕ := 6149

theorem accepted_work {stamp : Stamp} {server : Server} {effects : List Effect} {n : ℕ}
    (hs : Sound pf net) (sign : fd.msb = false) (unused : net.links fd = none)
    (turn : eventLoopStep pf stamp ⟨makeRequestData 0 .flagAccept, fd, []⟩ net.server =
      some (server, effects)) :
    Net.work pf.codec (effects.foldl perform { net with
      server := server, accepts := n,
      links := Function.update net.links fd (some ⟨true, [], [], connectedClient⟩) }) ≤
        net.work pf.codec + connectionCost := by
  rw [step_accepted, Option.some.injEq, Prod.mk.injEq] at turn
  obtain ⟨rfl, rfl⟩ := turn
  have hok := hs.fd fd
  rw [Net.Ok, unused] at hok
  cases hok with
  | refused sign' => simp [sign] at sign'
  | unused _ idle counter =>
    have hask := readOnlyStatusResponse_send pf.codec stamp (by simp [Status.Named] :
      Status.askNeedMsg.Named)
    have hwait : Waiting connectedClient := ⟨rfl, rfl⟩
    have hblock : blockCost connectedClient = 1 := rfl
    apply work_le_add fd
    · simp [perform, addAcceptRequest, Net.addOp, Net.onLink, Net.cost, idle, counter, unused,
        sideCost, Link.push, Link.cost, hask, frameCost, framesAfter, unreadCost_waiting hwait,
        hblock, connectionCost]
    · intro fd' hne
      simp [perform, addAcceptRequest, Net.addOp, Net.onLink, Net.cost, Function.update_of_ne hne]

theorem refused_work {stamp : Stamp} {server : Server} {effects : List Effect} {n : ℕ}
    (hs : Sound pf net) (sign : fd.msb = true)
    (turn : eventLoopStep pf stamp ⟨makeRequestData 0 .flagAccept, fd, []⟩ net.server =
      some (server, effects)) :
    Net.work pf.codec (effects.foldl perform { net with server := server, accepts := n }) ≤
      net.work pf.codec + connectionCost := by
  rw [step_accepted, Option.some.injEq, Prod.mk.injEq] at turn
  obtain ⟨rfl, rfl⟩ := turn
  have hok := hs.fd fd
  rw [Net.Ok] at hok
  generalize hl : net.links fd = l at hok
  cases hok with
  | unused sign' => simp [sign] at sign'
  | exchange sign' => simp [sign] at sign'
  | abandoned sign' => simp [sign] at sign'
  | refused _ all =>
    apply work_le_add fd
    · simp [perform, addAcceptRequest, Net.addOp, Net.onLink, Net.cost, hl, sideCost,
        connectionCost]
    · intro fd' hne
      simp [perform, addAcceptRequest, Net.addOp, Net.onLink, Net.cost, Function.update_of_ne hne]

theorem quiet_sound (hs : Sound pf net) : Sound pf net.quiet := ⟨hs.ready, hs.fd, hs.roots⟩

theorem quiet_step_work (hs : Sound pf net) (hquiet : net.accepts = 0) (hstep : Step pf net net') :
    net'.work pf.codec < net.work pf.codec := by
  cases hstep with
  | accepted stamp outstanding => omega
  | refused stamp outstanding => omega
  | post outstanding completes => exact post_work hs outstanding completes
  | handle stamp waiting turn => exact handle_work hs waiting turn
  | deliver on isOpen next hne fits => exact deliver_work hs on isOpen next hne fits
  | clientTurn stamp on isOpen phase turn => exact answer_work hs on isOpen phase turn
  | assemble m fuel on phase done => exact assemble_work on phase done

theorem step_work_le (hs : Sound pf net) (hstep : Step pf net net') :
    net'.work pf.codec ≤ net.work pf.codec + connectionCost := by
  cases hstep with
  | accepted stamp outstanding sign unused turn => exact accepted_work hs sign unused turn
  | refused stamp outstanding sign turn => exact refused_work hs sign turn
  | post outstanding completes => exact (post_work hs outstanding completes).le.trans le_self_add
  | handle stamp waiting turn => exact (handle_work hs waiting turn).le.trans le_self_add
  | deliver on isOpen next hne fits =>
    exact (deliver_work hs on isOpen next hne fits).le.trans le_self_add
  | clientTurn stamp on isOpen phase turn =>
    exact (answer_work hs on isOpen phase turn).le.trans le_self_add
  | assemble m fuel on phase done => exact (assemble_work on phase done).le.trans le_self_add

/-- The work left pays for every step but the accepts. -/
theorem transfer_pays (pf : Platform) :
    Pays (Works pf) (Step pf) (Sound pf) (Net.work pf.codec) connectionCost where
  work := by
    intro net net' hs hworks
    have hlt : net'.quiet.work pf.codec < net.quiet.work pf.codec :=
      quiet_step_work (quiet_sound hs) rfl hworks.2
    exact ⟨step_sound hs hworks.1, hlt⟩
  charged := by
    intro net net' hs hstep
    exact ⟨step_sound hs hstep, step_work_le hs hstep⟩

theorem initial_work {start : Net} (h : initial pf = some start) : start.work pf.codec = 0 := by
  obtain ⟨cbuf, hinit, -⟩ := initial_spec pf
  rw [hinit, Option.some.injEq] at h
  rw [← h]
  exact Finset.sum_eq_zero fun fd _ => rfl

/-- No run of the protocol goes on for ever: in whatever order things happen, the steps that
take no accept are at most 6149 for each other step. -/
theorem works_bounded {start : Net} {n a : ℕ} (hstart : initial pf = some start)
    (run : Run (Works pf) (Step pf) start n a net) : n ≤ 6149 * a := by
  have h := ((transfer_pays pf).run_le (initial_sound hstart) run).2
  rw [initial_work hstart, connectionCost] at h
  omega

end Accounting

section Works
variable {l₁ l₂ : List Op} {link : Link} {cqe : Cqe} {stamp : Stamp} {server : Server}
  {effects : List Effect}

theorem perform_quiet {e : Effect} (h : ∀ d, e ≠ .submit (.accept d)) (net : Net) :
    perform net.quiet e = (perform net e).quiet := by
  cases e with
  | submit sqe =>
    cases sqe with
    | accept d => exact absurd rfl (h d)
    | _ => rfl
  | _ => rfl

theorem foldl_perform_quiet (h : ∀ e ∈ effects, ∀ d, e ≠ .submit (.accept d)) :
    ∀ net : Net, effects.foldl perform net.quiet = (effects.foldl perform net).quiet := by
  induction effects with
  | nil => exact fun _ => rfl
  | cons e effects ih =>
    intro net
    rw [List.foldl_cons, List.foldl_cons, perform_quiet (h e List.mem_cons_self),
      ih fun e' he' => h e' (List.mem_cons_of_mem e he')]

theorem LocalTo.no_accept {e : Effect} (h : LocalTo fd e) : ∀ d, e ≠ .submit (.accept d) := by
  intro d heq
  rw [heq] at h
  cases h

theorem works_handle (waiting : net.ops fd = l₁ ++ .posted cqe :: l₂)
    (turn : eventLoopStep pf stamp cqe net.server = some (server, effects))
    (h : ∀ e ∈ effects, ∀ d, e ≠ .submit (.accept d)) :
    Works pf net (effects.foldl perform { net with
      server := server, ops := Function.update net.ops fd (l₁ ++ l₂) }) := by
  refine ⟨.handle stamp waiting turn, ?_⟩
  rw [← foldl_perform_quiet h]
  have hstep : Step pf net.quiet _ := .handle stamp waiting turn
  exact hstep

theorem works_post {sqe : Sqe} {l : Option Link} (outstanding : net.ops fd = l₁ ++ .pending sqe :: l₂)
    (completes : Completes (net.links fd) sqe cqe l) :
    Works pf net { net.fill fd cqe.data with
      ops := Function.update net.ops fd (l₁ ++ .posted cqe :: l₂)
      links := Function.update net.links fd l } := by
  have hstep : Step pf net.quiet _ := .post outstanding completes
  exact ⟨.post outstanding completes, hstep⟩

theorem works_answer {cl : Client} {sent : List (Target × List UInt8)}
    (on : net.links fd = some link) (isOpen : link.isOpen = true)
    (phase : link.client.phase = .receiving)
    (turn : clientTurn pf.codec stamp link.client = some (cl, sent)) :
    Works pf net { net with links := Function.update net.links fd (some { link with
      toServer := link.toServer ++ framesToServer sent, client := cl }) } := by
  have hstep : Step pf net.quiet _ := .clientTurn stamp on isOpen phase turn
  exact ⟨.clientTurn stamp on isOpen phase turn, hstep⟩

theorem works_assemble {cl : Client} {m : BlockProcess.Machine} {fuel : ℕ}
    (on : net.links fd = some link) (phase : link.client.phase = .assembling)
    (done : assembleBlock pf.H m fuel link.client = some cl) :
    Works pf net { net with links := Function.update net.links fd (some { link with
      client := cl }) } := by
  have hstep : Step pf net.quiet _ := .assemble m fuel on phase done
  exact ⟨.assemble m fuel on phase done, hstep⟩

end Works

end CBlockchain.Transfer
