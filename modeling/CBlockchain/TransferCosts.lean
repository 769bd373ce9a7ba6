import Mathlib.Data.FinEnum
import CBlockchain.TransferProgress

/-! How much work a connection makes. Every step that is not the taking of an accept uses up
some of what is left to do: requests on their way through the ring, frames on their way to
the other side, and the frames that answers to these will bring about. -/
namespace CBlockchain.Transfer
open ConnectionHandlers DataHandlers EventLoop ReceiveLoop RequestData Serdes
variable {pf : Platform} {net net' : Net} {fd : Fd}

/-- The frames that follow on one with this status, from either side; `b` is the server's
counter. -/
def framesAfter (b : ℕ) : Option Status → ℕ
  | some .askNeedMsg | some .needMore => 2 * (512 - b) - 1
  | _ => 2 * (512 - b)

/-- A frame and its answers: six steps carry a frame to the other side and the answer back. -/
def frameCost (b : ℕ) (status : Option Status) : ℕ := 4 + 6 * framesAfter b status

/-- The status counts only on an open connection. -/
def arrivalCost (isOpen : Bool) (b : ℕ) (status : Option Status) : ℕ :=
  if isOpen then frameCost b status else 4

def Op.cost (codec : Codec) (isOpen : Bool) (b : ℕ) : Op → ℕ
  | .pending (.send _ _ _) => 4
  | .pending (.recv _ _) => 2
  | .pending (.unprepared _) => 2
  | .pending (.accept _) => 0
  | .posted cqe =>
    match requestDataEventType cqe.userData with
    | some .readResponse => 3
    | some .testResponse =>
      if 0 < cqe.res.toInt then 1 + arrivalCost isOpen b (readOnlyStatusResponse codec cqe.data)
      else 1
    | _ => 1

/-- The block to be made. -/
def blockCost (cl : Client) : ℕ := if cl.phase = .filled then 0 else 1

/-- The frame the client has received and not looked at. -/
def unreadCost (codec : Codec) (b : ℕ) (cl : Client) : ℕ :=
  if cl.phase = .receiving then
    (nextStatus codec cl).elim 0 fun status => 1 + frameCost b (some status)
  else 0

def Link.cost (codec : Codec) (b : ℕ) (link : Link) : ℕ :=
  blockCost link.client +
    (link.toServer.map fun g => arrivalCost link.isOpen b (readOnlyStatusResponse codec g)).sum +
    if link.isOpen then
      (link.toClient.map fun f => 2 + frameCost b (readOnlyStatusResponse codec f)).sum +
        unreadCost codec b link.client
    else 0

def isOpenLink (l : Option Link) : Bool := l.any Link.isOpen

/-- What is left to do for one socket number. -/
def sideCost (codec : Codec) (b : ℕ) (ops : List Op) (l : Option Link) : ℕ :=
  (ops.map (Op.cost codec (isOpenLink l) b)).sum + (l.map (Link.cost codec b)).getD 0

namespace Net

def cost (codec : Codec) (net : Net) (fd : Fd) : ℕ :=
  sideCost codec (net.server.befferSendedN fd) (net.ops fd) (net.links fd)

def work (codec : Codec) (net : Net) : ℕ := ∑ fd, net.cost codec fd

/-- No accept is outstanding. -/
def quiet (net : Net) : Net := { net with accepts := 0 }

end Net

/-- A step that takes no accept. -/
def Works (pf : Platform) (net net' : Net) : Prop :=
  Step pf net net' ∧ Step pf net.quiet net'.quiet

section Sums
variable {codec : Codec}

theorem work_lt (fd : Fd) (hlt : net'.cost codec fd < net.cost codec fd)
    (hle : ∀ fd' ≠ fd, net'.cost codec fd' ≤ net.cost codec fd') :
    net'.work codec < net.work codec := by
  apply Finset.sum_lt_sum
  · intro fd' _
    by_cases hfd : fd' = fd
    · rw [hfd]
      exact hlt.le
    · exact hle fd' hfd
  · exact ⟨fd, Finset.mem_univ fd, hlt⟩

theorem work_le_add (fd : Fd) {n : ℕ} (hadd : net'.cost codec fd ≤ net.cost codec fd + n)
    (hle : ∀ fd' ≠ fd, net'.cost codec fd' ≤ net.cost codec fd') :
    net'.work codec ≤ net.work codec + n := by
  rw [Net.work, Net.work, ← Finset.add_sum_erase _ _ (Finset.mem_univ fd),
    ← Finset.add_sum_erase _ (net.cost codec) (Finset.mem_univ fd)]
  have hrest : ∑ fd' ∈ Finset.univ.erase fd, net'.cost codec fd' ≤
      ∑ fd' ∈ Finset.univ.erase fd, net.cost codec fd' :=
    Finset.sum_le_sum fun fd' hfd' => hle fd' (Finset.ne_of_mem_erase hfd')
  omega

end Sums

section Costs
variable {codec : Codec} {b : ℕ} {ops l₁ l₂ : List Op} {l : Option Link} {link : Link}

@[simp] theorem cost_sending (isOpen : Bool) (fd : Fd) (data : List UInt8) (d : BitVec 64) :
    Op.cost codec isOpen b (.pending (.send fd data d)) = 4 := rfl

@[simp] theorem cost_receiving (isOpen : Bool) (fd : Fd) (d : BitVec 64) :
    Op.cost codec isOpen b (.pending (.recv fd d)) = 2 := rfl

@[simp] theorem cost_unprepared (isOpen : Bool) (d : BitVec 64) :
    Op.cost codec isOpen b (.pending (.unprepared d)) = 2 := rfl

@[simp] theorem cost_sent (hfd : fd.msb = false) (isOpen : Bool) (res : BitVec 32)
    (data : List UInt8) :
    Op.cost codec isOpen b (.posted ⟨makeRequestData fd .readResponse, res, data⟩) = 3 := by
  rw [Op.cost, requestDataEventType_make hfd]

theorem cost_received (hfd : fd.msb = false) (isOpen : Bool) {res : BitVec 32}
    (hres : 0 < res.toInt) (data : List UInt8) :
    Op.cost codec isOpen b (.posted ⟨makeRequestData fd .testResponse, res, data⟩) =
      1 + arrivalCost isOpen b (readOnlyStatusResponse codec data) := by
  rw [Op.cost, requestDataEventType_make hfd]
  exact if_pos hres

theorem cost_ended (hfd : fd.msb = false) (isOpen : Bool) {res : BitVec 32}
    (hres : ¬ 0 < res.toInt) (data : List UInt8) :
    Op.cost codec isOpen b (.posted ⟨makeRequestData fd .testResponse, res, data⟩) = 1 := by
  rw [Op.cost, requestDataEventType_make hfd]
  exact if_neg hres

@[simp] theorem cost_closed (hfd : fd.msb = false) (isOpen : Bool) (res : BitVec 32)
    (data : List UInt8) :
    Op.cost codec isOpen b (.posted ⟨makeRequestData fd .flagCloseConnection, res, data⟩) = 1 := by
  rw [Op.cost, requestDataEventType_make hfd]

theorem cost_negative (hfd : fd.msb = true) (isOpen : Bool) (flag : FlagState) (res : BitVec 32)
    (data : List UInt8) :
    Op.cost codec isOpen b (.posted ⟨makeRequestData fd flag, res, data⟩) = 1 := by
  rw [Op.cost, requestDataEventType_neg hfd]

theorem arrivalCost_le (b : ℕ) (status : Option Status) :
    4 ≤ arrivalCost true b status := Nat.le_add_right 4 _

theorem Op.cost_shut_le (b : ℕ) (isOpen : Bool) (op : Op) :
    op.cost codec false b ≤ op.cost codec isOpen b := by
  cases isOpen with
  | false => exact le_rfl
  | true =>
    cases op with
    | pending sqe => cases sqe <;> exact le_rfl
    | posted cqe =>
      have hle := arrivalCost_le b (readOnlyStatusResponse codec cqe.data)
      simp only [Op.cost]
      split
      · exact le_rfl
      · split
        · rw [arrivalCost]
          simp only [Bool.false_eq_true, if_false]
          omega
        · exact le_rfl
      · exact le_rfl

theorem Link.cost_shut_le (b : ℕ) (link : Link) :
    link.shut.cost codec b ≤ link.cost codec b := by
  cases hopen : link.isOpen with
  | false =>
    have hshut : link.shut = link := by rw [Link.shut, ← hopen]
    rw [hshut]
  | true =>
    have harrive : (link.toServer.map fun g =>
        arrivalCost false b (readOnlyStatusResponse codec g)).sum ≤ (link.toServer.map fun g =>
        arrivalCost true b (readOnlyStatusResponse codec g)).sum :=
      List.sum_le_sum fun g _ => arrivalCost_le b _
    simp only [Link.cost, Link.shut, hopen, Bool.false_eq_true, if_true, if_false]
    omega

theorem sideCost_shut_le (b : ℕ) (ops : List Op) (l : Option Link) :
    sideCost codec b ops (l.map Link.shut) ≤ sideCost codec b ops l := by
  cases l with
  | none => exact le_rfl
  | some link =>
    have hops : (ops.map (Op.cost codec false b)).sum ≤
        (ops.map (Op.cost codec link.isOpen b)).sum :=
      List.sum_le_sum fun op _ => op.cost_shut_le b link.isOpen
    exact Nat.add_le_add hops (link.cost_shut_le b)

/-- On a closed connection nothing depends on the server's counter. -/
theorem sideCost_closed (b b' : ℕ) (ops : List Op) (hclosed : link.isOpen = false) :
    sideCost codec b ops (some link) = sideCost codec b' ops (some link) := by
  have hop : Op.cost codec false b = Op.cost codec false b' := by
    funext op
    cases op with
    | pending sqe => cases sqe <;> rfl
    | posted cqe => rfl
  have hlink : link.cost codec b = link.cost codec b' := by
    simp only [Link.cost, arrivalCost, hclosed, Bool.false_eq_true, if_false]
  rw [sideCost, sideCost, isOpenLink, Option.any_some, hclosed, hop, Option.map_some,
    Option.map_some, hlink]

theorem sideCost_replace (op : Op) (ops : List Op)
    (hlt : (ops.map (Op.cost codec (isOpenLink l) b)).sum < Op.cost codec (isOpenLink l) b op) :
    sideCost codec b (l₁ ++ ops ++ l₂) l < sideCost codec b (l₁ ++ op :: l₂) l := by
  simp only [sideCost, List.map_append, List.map_cons, List.sum_append, List.sum_cons]
  omega

end Costs

section Effects
variable {codec : Codec} {fd' : Fd}

theorem perform_server (effects : List Effect) : ∀ net : Net,
    (effects.foldl perform net).server = net.server := by
  induction effects with
  | nil => exact fun _ => rfl
  | cons e effects ih =>
    intro net
    rw [List.foldl_cons, ih]
    cases e with
    | submit sqe => cases sqe <;> rfl
    | _ => rfl

/-- An effect on one socket number only. -/
inductive LocalTo (fd : Fd) : Effect → Prop
  | send (data : List UInt8) (d : BitVec 64) : LocalTo fd (.submit (.send fd data d))
  | recv (d : BitVec 64) : LocalTo fd (.submit (.recv fd d))
  | unprepared {d : BitVec 64} (tag : requestDataClientFd d = fd) :
      LocalTo fd (.submit (.unprepared d))
  | serve (j : ℕ) (m : SignedMessage) : LocalTo fd (.serve fd j m)
  | merkleRoot (hash : Digest) : LocalTo fd (.merkleRoot fd hash)

theorem LocalTo.cost_other {e : Effect} (h : LocalTo fd e) (net : Net) (hne : fd' ≠ fd) :
    (perform net e).cost codec fd' = net.cost codec fd' := by
  cases h with
  | unprepared tag => simp [perform, Net.addOp, Net.cost, tag, Function.update_of_ne hne]
  | _ => simp [perform, Net.addOp, Net.onLink, Net.cost, Function.update_of_ne hne]

theorem cost_other {effects : List Effect} (h : ∀ e ∈ effects, LocalTo fd e) (hne : fd' ≠ fd) :
    ∀ net : Net, (effects.foldl perform net).cost codec fd' = net.cost codec fd' := by
  induction effects with
  | nil => exact fun _ => rfl
  | cons e effects ih =>
    intro net
    rw [List.foldl_cons, ih (fun e' he' => h e' (List.mem_cons_of_mem e he')),
      (h e List.mem_cons_self).cost_other net hne]

theorem responds_local {s s' : Server} {effects : List Effect} (h : Responds fd s s' effects)
    : ∀ e ∈ effects, LocalTo fd e := by
  intro e he
  cases h with
  | nothing => cases he
  | status frame =>
    rw [List.mem_singleton.mp he]
    exact .send _ _
  | serves cbuf m frame hlt =>
    rcases List.mem_pair.mp he with rfl | rfl
    · exact .serve _ _
    · exact .send _ _
  | finishes cbuf hash =>
    rcases List.mem_pair.mp he with rfl | rfl
    · exact .merkleRoot _
    · exact .unprepared (requestDataClientFd_make _ _)

theorem responds_counter {s s' : Server} {effects : List Effect}
    (h : Responds fd s s' effects) (hne : fd' ≠ fd) :
    s'.befferSendedN fd' = s.befferSendedN fd' := by
  cases h with
  | nothing => rfl
  | status frame => rfl
  | serves cbuf m frame hlt => exact Function.update_of_ne hne _ _
  | finishes cbuf hash => exact Function.update_of_ne hne _ _

/-- A turn of the server on one socket number. -/
theorem turn_lt {server : Server} {ops : List Op} {effects : List Effect}
    (hlocal : ∀ e ∈ effects, LocalTo fd e)
    (hcount : ∀ fd' ≠ fd, server.befferSendedN fd' = net.server.befferSendedN fd')
    (hlt : (effects.foldl perform { net with
      server := server, ops := Function.update net.ops fd ops }).cost codec fd <
        net.cost codec fd) :
    (effects.foldl perform { net with
      server := server, ops := Function.update net.ops fd ops }).work codec < net.work codec := by
  apply work_lt fd hlt
  intro fd' hne
  rw [cost_other hlocal hne, Net.cost, Net.cost, hcount fd' hne]
  simp only [Function.update_of_ne hne]
  exact le_rfl

end Effects

section Requests
variable {l₁ l₂ : List Op} {link : Link} {gs rest : List (List UInt8)}

/-- The requests there are, by socket number and tag. -/
inductive Requested (fd : Fd) : Sqe → Prop
  | send (data : List UInt8) : Requested fd (.send fd data (makeRequestData fd .readResponse))
  | recv (sign : fd.msb = false) : Requested fd (.recv fd (makeRequestData fd .testResponse))
  | close : Requested fd (.unprepared (makeRequestData fd .flagCloseConnection))

theorem Awaiting.requested {ops : List Op} {sqe : Sqe} (h : Awaiting fd ops)
    (sign : fd.msb = false) (hmem : .pending sqe ∈ ops) : Requested fd sqe := by
  cases h with
  | sending hne =>
    cases List.mem_singleton.mp hmem
    exact .send _
  | sent hres => cases List.mem_singleton.mp hmem
  | receiving =>
    cases List.mem_singleton.mp hmem
    exact .recv sign

theorem Closing.requested {ops : List Op} {sqe : Sqe} (h : Closing fd ops)
    (hmem : .pending sqe ∈ ops) : Requested fd sqe := by
  cases h with
  | pending =>
    cases List.mem_singleton.mp hmem
    exact .close
  | posted res => cases List.mem_singleton.mp hmem
  | handled => cases hmem

theorem Sound.requested (hs : Sound pf net) {sqe : Sqe} (hmem : .pending sqe ∈ net.ops fd) :
    Requested fd sqe := by
  have hok := hs.fd fd
  rw [Net.Ok] at hok
  generalize net.ops fd = ops at hok hmem
  generalize net.links fd = l at hok
  cases hok with
  | unused _ idle => simp [idle] at hmem
  | refused _ all =>
    cases all _ hmem
    exact .send _
  | exchange sign joint =>
    cases joint with
    | toClient _ waits => exact waits.requested sign hmem
    | atClient _ waits => exact waits.requested sign hmem
    | toServer _ waits => exact waits.requested sign hmem
    | atServer _ arrived =>
      rw [arrived] at hmem
      cases List.mem_singleton.mp hmem
    | finished closing => exact closing.requested hmem
  | abandoned sign late =>
    cases late.ops _ hmem with
    | sending => exact .send _
    | receiving => exact .recv sign
    | closing _ closing => exact closing.requested (List.mem_singleton_self _)

/-- A client has at most one frame on its way to the server. -/
theorem Sound.toServer_front (hs : Sound pf net) (on : net.links fd = some link)
    (next : link.toServer = gs ++ rest) (hne : gs ≠ []) : ∃ g, gs = [g] ∧ rest = [] := by
  have hone : ∀ {g}, link.toServer = [g] → ∃ g, gs = [g] ∧ rest = [] := fun hg =>
    ⟨_, singleton_front (hg.symm.trans next) hne⟩
  have hnone : link.toServer = [] → ∃ g, gs = [g] ∧ rest = [] := fun hnil => by
    simp [hnil, hne] at next
  have hok := hs.fd fd
  rw [Net.Ok, on] at hok
  cases hok with
  | exchange _ joint =>
    cases joint with
    | toClient _ _ _ _ _ _ back => exact hnone back
    | atClient _ _ _ _ _ _ back => exact hnone back
    | toServer _ _ _ _ back => exact hone back
    | atServer _ _ _ _ _ back => exact hnone back
    | finished _ _ _ _ back => exact hnone back
  | abandoned _ late =>
    rcases late.frames with hnil | ⟨g, hg, -⟩
    · exact hnone hnil
    · exact hone hg

end Requests

end CBlockchain.Transfer
