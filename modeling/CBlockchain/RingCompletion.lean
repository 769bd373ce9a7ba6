import CBlockchain.ClientRegions
import CBlockchain.RingRuns

/-! Who can be held up. A client that is still in its loop can be served to the end by steps
of its own connection, whatever the others do, unless an operation has been executed again
on it. -/
namespace CBlockchain.Transfer
open Amortized ConnectionHandlers DataHandlers EventLoop ReceiveLoop RequestData Serdes
open ClientRegions (Addressable)
variable {pf : Platform} {net net' ideal : Net} {fd : Fd} {link link' : Link} {stamp : Stamp}

/-- The frames under way on a connection fit the buffers. -/
structure FramesFit (net : Net) (fd : Fd) : Prop where
  frames : ∀ link, net.links fd = some link →
    ∀ f ∈ link.toClient ++ link.toServer, f.length ≤ 4096
  sends : ∀ f d, .pending (.send fd f d) ∈ net.ops fd → f.length ≤ 4096

def Op.userData : Op → BitVec 64
  | .pending sqe => sqe.userData
  | .posted cqe => cqe.userData

theorem OpMirrors.userData_eq {entries : List Sqe} {op iop : Op} (h : OpMirrors entries op iop) :
    op.userData = iop.userData := by
  cases h <;> rfl

theorem OpMirrors.eq {entries : List Sqe} {op iop : Op} (h : OpMirrors entries op iop)
    (hno : ¬ Closes iop.userData) : op = iop := by
  rw [← h.userData_eq] at hno
  cases h with
  | same => rfl
  | pending closes => exact absurd closes hno
  | posted closes => exact absurd closes hno

/-- A connection on which the server has requests, and nothing has been executed again. -/
structure Going (net : Net) (fd : Fd) (link : Link) : Prop where
  on : net.links fd = some link
  isOpen : link.isOpen = true
  fresh : ¬ net.RanAgain fd
  busy : net.ops fd ≠ []
  tags : ∀ op ∈ net.ops fd, ¬ Closes op.userData
  fits : FramesFit net fd

theorem Going.next (h : Going net fd link) {ops : List Op} {es : List Sqe} (on : net'.links fd = some link')
    (isOpen : link'.isOpen = true) (hops : net'.ops fd = ops) (busy : ops ≠ [])
    (tags : ∀ op ∈ ops, ¬ Closes op.userData) (entries : net'.entries = net.entries ++ es)
    (fresh : ∀ sqe ∈ es, ¬ Closes sqe.userData)
    (frames : ∀ f ∈ link'.toClient ++ link'.toServer, f.length ≤ 4096)
    (sends : ∀ f d, .pending (.send fd f d) ∈ ops → f.length ≤ 4096) : Going net' fd link' := by
  subst hops
  refine ⟨on, isOpen, fun ha => h.fresh ((ranAgain_enter entries fresh fd).mp ha), busy, tags, ?_, sends⟩
  intro link'' on'
  rw [on, Option.some.injEq] at on'
  rw [← on']
  exact frames

section Agreeing

theorem forall₂_eq {entries : List Sqe} {ops iops : List Op}
    (h : List.Forall₂ (OpMirrors entries) ops iops) (tags : ∀ op ∈ iops, ¬ Closes op.userData) :
    ops = iops := by
  induction h with
  | nil => rfl
  | cons hop _ ih =>
    rw [hop.eq (tags _ List.mem_cons_self), ih fun op hmem => tags op (List.mem_cons_of_mem _ hmem)]

theorem forall₂_tags {entries : List Sqe} {ops iops : List Op}
    (h : List.Forall₂ (OpMirrors entries) ops iops) (tags : ∀ op ∈ ops, ¬ Closes op.userData) :
    ∀ op ∈ iops, ¬ Closes op.userData := by
  induction h with
  | nil => exact tags
  | cons hop _ ih =>
    rw [List.forall_mem_cons] at tags ⊢
    exact ⟨hop.userData_eq ▸ tags.1, ih tags.2⟩

/-- Such a connection is the same by the protocol. -/
theorem Going.agrees (h : Going net fd link) (hm : Mirrors net ideal) (hs : Sound pf ideal) :
    ideal.links fd = some link ∧ ideal.ops fd = net.ops fd := by
  have hops := forall₂_eq (hm.ops fd) (forall₂_tags (hm.ops fd) h.tags)
  refine ⟨?_, hops.symm⟩
  have hlink := hm.links fd
  rw [h.on] at hlink
  have hok := hs.fd fd
  rw [Net.Ok] at hok
  generalize ideal.links fd = l at hlink hok
  cases hlink with
  | stray sign =>
    cases hok with
    | unused _ idle => exact absurd (hops.trans idle) h.busy
    | refused sign' => simp [sign] at sign'
  | @shadowed _ il hshadow =>
    obtain ⟨hto, hback⟩ := hshadow.same h.fresh
    have hopen := hshadow.isOpen
    have hclient := hshadow.client
    cases link
    cases il
    simp_all

end Agreeing

section Advance

/-- A client with an unread frame answers it. -/
theorem unread_turns (hready : Ready net.server.cbuf) {k b : ℕ} {f : List UInt8}
    (question : Question pf.codec net.server.cbuf k b f) (unread : Unread f link.client)
    (part : Partway net.server.cbuf k link.client) (stamp : Stamp) :
    ∃ cl status, status.Named ∧ clientTurn pf.codec stamp link.client =
      some (cl, [(.server, sendOnlyStatusCode pf.codec stamp status)]) := by
  cases question with
  | ask sentAt =>
    obtain ⟨cl', hturn, -⟩ := clientTurn_ask unread stamp
      (readOnlyStatusResponse_send pf.codec sentAt (by simp [Status.Named]))
    exact ⟨cl', .needMore, by simp [Status.Named], hturn⟩
  | @message sentAt m slot =>
    have hm := hready.length_le slot
    by_cases hlast : k = 511
    · obtain ⟨cl', -, hturn, -⟩ := clientTurn_last unread stamp rfl hm (part.count.trans hlast)
        part.taken.length part.taken.room
      exact ⟨cl', .enough, by simp [Status.Named], hturn⟩
    · have hlt := part.lt
      obtain ⟨cl', -, hturn, -⟩ := clientTurn_message unread stamp rfl hm
        (by rw [part.count]; omega) part.taken.length part.taken.room
      exact ⟨cl', .acknOk, by simp [Status.Named], hturn⟩

/-- A step of the connection that keeps it going. -/
def Advances (pf : Platform) (fd : Fd) (net : Net) : Prop :=
  ∃ net' link', RingWork pf fd net net' ∧ net'.roots = net.roots ∧ Going net' fd link'

/-- The last answer of the client has arrived. -/
def EnoughArrived (pf : Platform) (fd : Fd) (net ideal : Net) : Prop :=
  ∃ sentAt res, net.ops fd = [.posted ⟨makeRequestData fd .testResponse, res,
      sendOnlyStatusCode pf.codec sentAt .enough⟩] ∧ 0 < res.toInt ∧
    ∃ link, net.links fd = some link ∧ Complete ideal.server.cbuf link.client

/-- A request on an open connection that the client's next frame does not wait for. -/
theorem Going.awaiting (stamp : Stamp) (h : Going net fd link) (sign : fd.msb = false)
    (waits : Awaiting fd (net.ops fd))
    (back : net.ops fd = [.pending (.recv fd (makeRequestData fd .testResponse))] →
      ∃ g, link.toServer = [g]) : Advances pf fd net := by
  have hframes := h.fits.frames link h.on
  have htag : ¬ Closes (makeRequestData fd .readResponse) := not_closes_make (by decide)
  have htag' : ¬ Closes (makeRequestData fd .testResponse) := not_closes_make (by decide)
  generalize hops : net.ops fd = ops at waits
  cases waits with
  | @sending data hne =>
    have hlen := h.fits.sends data _ (by rw [hops]; exact List.mem_singleton_self _)
    have hout : net.ops fd = [] ++ .pending (.send fd data (makeRequestData fd .readResponse)) :: [] :=
      hops
    have hc : Completes (net.links fd) (.send fd data (makeRequestData fd .readResponse))
        ⟨makeRequestData fd .readResponse, .ofNat 32 data.length, []⟩ (some link) := by
      rw [h.on]
      exact .sent h.isOpen (ofNat_toInt hlen)
    have hwork : RingWork pf fd net _ := .post hout hc
    refine ⟨_, link, hwork, rfl, h.next (Function.update_self _ _ _) h.isOpen (Function.update_self _ _ _)
      (by simp) ?_ (List.append_nil _).symm (List.forall_mem_nil _) hframes ?_⟩
    · simpa [Op.userData] using htag
    · simp
  | @sent res hres =>
    have hw : net.ops fd = [] ++ .posted ⟨makeRequestData fd .readResponse, res, []⟩ :: [] := hops
    have hturn : eventLoopStep pf stamp ⟨makeRequestData fd .readResponse, res, []⟩ net.server =
        some (net.server, [.submit (.recv fd (makeRequestData fd .testResponse))]) := by
      rw [step_sent sign, if_pos hres, readStatusResponse]
    have hwork : RingWork pf fd net _ := .handle stamp hw hturn
    refine ⟨_, link, hwork, rfl, h.next h.on h.isOpen (Function.update_self _ _ _) (by simp) ?_ rfl ?_
      hframes ?_⟩
    · simpa [Op.userData, Sqe.userData] using htag'
    · simpa [Sqe.userData] using htag'
    · simp
  | receiving =>
    obtain ⟨g, hg⟩ := back hops
    have hlen := hframes g (by rw [hg]; simp)
    have hout : net.ops fd = [] ++ .pending (.recv fd (makeRequestData fd .testResponse)) :: [] :=
      hops
    have hc : Completes (net.links fd) (.recv fd (makeRequestData fd .testResponse))
        ⟨makeRequestData fd .testResponse, .ofNat 32 [g].flatten.length, [g].flatten⟩
        (some { link with toServer := [] }) := by
      rw [h.on]
      refine .received (hg.trans (List.append_nil _).symm) (List.cons_ne_nil g []) ?_ ?_
      · rwa [List.flatten_singleton]
      · rw [List.flatten_singleton]
        exact ofNat_toInt hlen
    have hwork : RingWork pf fd net _ := .post hout hc
    refine ⟨_, { link with toServer := [] }, hwork, rfl, h.next (Function.update_self _ _ _) h.isOpen
      (Function.update_self _ _ _) (by simp) ?_ (List.append_nil _).symm (List.forall_mem_nil _) ?_ ?_⟩
    · simpa [Op.userData] using htag'
    · intro f hmem
      exact hframes f (by simp_all)
    · simp

theorem Sends.no_unprepared {frame : List UInt8} {effects : List Effect} (h : Sends fd frame effects) :
    ∀ e ∈ effects, ∀ d, e ≠ .submit (.unprepared d) := by
  cases h with
  | status => simp
  | message j m => simp

/-- A reply that is not the last is answered by a frame that fits. -/
theorem reply_answered {b : ℕ} {g : List UInt8} {res : BitVec 32} (hs : Sound pf ideal)
    (hfit : FitsBuffers pf.codec stamp) (sign : fd.msb = false) (hres : 0 < res.toInt)
    (hb : ideal.server.befferSendedN fd = b)
    (reply : Reply pf.codec ideal.server.cbuf link.client b g) :
    (∃ server effects frame, eventLoopStep pf stamp ⟨makeRequestData fd .testResponse, res, g⟩
        ideal.server = some (server, effects) ∧ Sends fd frame effects ∧ frame.length ≤ 4096) ∨
      ∃ sentAt, g = sendOnlyStatusCode pf.codec sentAt .enough ∧
        Complete ideal.server.cbuf link.client := by
  cases reply with
  | needMore sentAt waits part =>
    rw [step_status sign stamp hres sentAt .needMore (by simp [Status.Named]), handleStatus]
    obtain ⟨cbuf, m, hrun, hslot, hready, -⟩ :=
      handleResponseNeedMoreMsg_serves pf hs.ready stamp (hb.trans_lt part.lt)
    exact .inl ⟨_, _, _, hrun, .message _ m, hfit.message m (hready.length_le hslot)⟩
  | acknOk sentAt waits part =>
    rw [step_acknOk sign stamp hres]
    exact .inl ⟨_, _, _, rfl, .status, hfit.status .askNeedMsg (by simp [Status.Named])⟩
  | enough sentAt complete => exact .inr ⟨sentAt, rfl, complete⟩

theorem Closing.closes {ops : List Op} (h : Closing fd ops) (sign : fd.msb = false) :
    ∀ op ∈ ops, Closes op.userData := by
  cases h with
  | pending => simpa [Op.userData, Sqe.userData] using closes_make sign
  | posted res => simpa [Op.userData] using closes_make sign
  | handled => simp

/-- A connection that is going goes on until the last answer has arrived. -/
theorem Going.advance (h : Going net fd link) (hm : Mirrors net ideal) (hs : Sound pf ideal)
    (hfit : FitsBuffers pf.codec stamp) : Advances pf fd net ∨ EnoughArrived pf fd net ideal := by
  obtain ⟨hideal, hops⟩ := h.agrees hm hs
  have hframes := h.fits.frames link h.on
  have htag : ¬ Closes (makeRequestData fd .readResponse) := not_closes_make (by decide)
  have hsame : ∀ f d, .pending (.send fd f d) ∈ net.ops fd → f.length ≤ 4096 := h.fits.sends
  have hok := hs.fd fd
  rw [Net.Ok, hideal, hops] at hok
  generalize hb : ideal.server.befferSendedN fd = b at hok
  cases hok with
  | abandoned sign late => exact absurd h.isOpen (by simp [late.closed])
  | exchange sign joint =>
    cases joint with
    | @toClient k f _ waits question idle part out back =>
      have hlen := hframes f (by rw [out]; simp)
      have hwork : RingWork pf fd net _ := .deliver h.on h.isOpen (out.trans (List.append_nil _).symm)
        (List.cons_ne_nil f []) (by rwa [List.flatten_singleton]) idle
      refine .inl ⟨_, _, hwork, rfl, h.next (Function.update_self _ _ _) h.isOpen rfl h.busy h.tags
        (List.append_nil _).symm (List.forall_mem_nil _) ?_ hsame⟩
      simp [back]
    | atClient _ waits question unread part out back =>
      obtain ⟨cl, status, hnamed, hturn⟩ := unread_turns hs.ready question unread part stamp
      have hwork : RingWork pf fd net _ := .clientTurn stamp h.on h.isOpen unread.phase hturn
      refine .inl ⟨_, _, hwork, rfl, h.next (Function.update_self _ _ _) h.isOpen rfl h.busy h.tags
        (List.append_nil _).symm (List.forall_mem_nil _) ?_ hsame⟩
      simpa [out, back, framesToServer] using hfit.status status hnamed
    | toServer _ waits reply out back =>
      exact .inl (h.awaiting stamp sign waits fun _ => ⟨_, back⟩)
    | @atServer g res _ arrived hres reply out back =>
      have hw : net.ops fd = [] ++ .posted ⟨makeRequestData fd .testResponse, res, g⟩ :: [] := arrived
      rcases reply_answered hs hfit sign hres hb reply with
        ⟨server, effects, frame, hturn, hsends, hlen⟩ | ⟨sentAt, rfl, hcomplete⟩
      · rw [← hm.server] at hturn
        have hwork : RingWork pf fd net _ := .handle stamp hw hturn
        obtain ⟨buffers, -, heff⟩ := hsends.foldl_perform
          { net with server := server, ops := Function.update net.ops fd ([] ++ []) }
        rw [foldl_execute hsends.no_unprepared, heff] at hwork
        refine .inl ⟨_, { link with toClient := [frame] }, hwork, rfl, h.next ?_ h.isOpen
          (Function.update_self _ _ _) (by simp) ?_ rfl ?_ ?_ ?_⟩
        · simp [perform, Net.onLink, Net.addOp, h.on, Link.push, h.isOpen, out]
        · simpa [perform, Net.addOp, Op.userData, Sqe.userData] using htag
        · simpa [Sqe.userData] using htag
        · simpa [back] using hlen
        · intro f d hmem
          obtain ⟨rfl, -⟩ : f = frame ∧ d = makeRequestData fd .readResponse := by simpa using hmem
          exact hlen
      · exact .inr ⟨sentAt, res, arrived, hres, link, h.on, hcomplete⟩
    | finished closing =>
      obtain ⟨op, hmem⟩ := List.exists_mem_of_ne_nil _ h.busy
      exact absurd (closing.closes sign op hmem) (h.tags op hmem)

end Advance

section Finish

theorem Awaiting.tags {ops : List Op} (h : Awaiting fd ops) : ∀ op ∈ ops, ¬ Closes op.userData := by
  cases h with
  | sending => simpa [Op.userData, Sqe.userData] using not_closes_make (by decide)
  | sent => simpa [Op.userData] using not_closes_make (by decide)
  | receiving => simpa [Op.userData, Sqe.userData] using not_closes_make (by decide)

/-- A client in its loop, on an open connection with requests, is going. -/
theorem going_of_receiving (hm : Mirrors net ideal) (hs : Sound pf ideal)
    (on : net.links fd = some link) (isOpen : link.isOpen = true)
    (phase : link.client.phase = .receiving) (busy : net.ops fd ≠ []) (fits : FramesFit net fd) :
    Going net fd link := by
  refine ⟨on, isOpen, (hm.served on (not_idle isOpen phase)).1, busy, ?_, fits⟩
  have hops := hm.ops fd
  have hlink := hm.links fd
  rw [on] at hlink
  have hok := hs.fd fd
  rw [Net.Ok] at hok
  have htags : ∀ op ∈ ideal.ops fd, ¬ Closes op.userData := by
    generalize ideal.links fd = l at hlink hok
    generalize ideal.ops fd = ops at hops hok
    cases hlink with
    | stray sign =>
      cases hok with
      | refused sign' => simp [sign] at sign'
      | unused _ idle =>
        rw [idle] at hops
        exact absurd (List.forall₂_nil_right_iff.mp hops) busy
    | @shadowed _ il hshadow =>
      rw [hshadow.client] at phase
      cases hok with
      | abandoned _ late => exact absurd (hshadow.isOpen.trans late.closed) (by simp [isOpen])
      | exchange _ joint =>
        cases joint with
        | toClient _ waits => exact waits.tags
        | atClient _ waits => exact waits.tags
        | toServer _ waits => exact waits.tags
        | atServer _ arrived =>
          rw [arrived]
          simpa [Op.userData] using not_closes_make (by decide)
        | finished _ complete => exact absurd phase complete.phase
  rw [forall₂_eq hops htags]
  exact htags

theorem enough_finishes (h : EnoughArrived pf fd net ideal) (hm : Mirrors net ideal)
    (hs : Sound pf ideal) (sign : fd.msb = false) :
    ∃ net' link', RingWork pf fd net net' ∧ net'.links fd = some link' ∧
      link'.client.stored = 512 ∧ net'.Finished fd := by
  obtain ⟨sentAt, res, hops, hres, link, on, complete⟩ := h
  have ready : Ready net.server.cbuf := hm.server ▸ hs.ready
  obtain ⟨server, hash, -, hturn⟩ := enough_turn sentAt ready sign hres (hm.server ▸ complete.taken.slots)
  obtain ⟨link', on', hclient, hfinished⟩ := finished_client on
  exact ⟨_, link', .finish hops hturn, on', by rw [hclient, complete.taken.stored], hfinished⟩

/-- No starvation: a client that is in its loop, on an open connection with requests of the
server and with a place in its arrays, can be brought to the end by steps of its own
connection: it stores all messages and the server prints the root for it. -/
theorem client_can_finish (h : RingReaches pf HarmlessFinish net) (hfit : FitsBuffers pf.codec stamp)
    (_ : Addressable fd) (on : net.links fd = some link) (isOpen : link.isOpen = true)
    (phase : link.client.phase = .receiving) (busy : net.ops fd ≠ []) (fits : FramesFit net fd) :
    ∃ net' link', Relation.ReflTransGen (RingWork pf fd) net net' ∧ net'.links fd = some link' ∧
      link'.client.stored = 512 ∧ net'.Finished fd := by
  obtain ⟨ideal, hreach, hm⟩ := h.exists_ideal
  have hs := reaches_sound hreach
  have hgoing := going_of_receiving hm hs on isOpen phase busy fits
  have hpays : Pays (fun p p' : Net × Net => RingWork pf fd p.1 p'.1 ∧ Works pf p.2 p'.2)
      (fun _ _ => False) (fun p => Sound pf p.2) (fun p => p.2.work pf.codec) 0 :=
    ⟨fun hs h => (transfer_pays pf).work hs h.2, fun _ h => h.elim⟩
  have hprogress : ∀ p : Net × Net, Sound pf p.2 →
      (Sound pf p.2 ∧ Mirrors p.1 p.2 ∧ ∃ link, Going p.1 fd link) →
      ¬ EnoughArrived pf fd p.1 p.2 → ∃ p' : Net × Net,
        (RingWork pf fd p.1 p'.1 ∧ Works pf p.2 p'.2) ∧
          Sound pf p'.2 ∧ Mirrors p'.1 p'.2 ∧ ∃ link, Going p'.1 fd link := by
    rintro ⟨net, ideal⟩ hs ⟨-, hm, link, hgoing⟩ hgoal
    obtain ⟨net', link', hwork, hquiet, hgoing'⟩ := (hgoing.advance hm hs hfit).resolve_right hgoal
    obtain ⟨ideal', hworks, hm'⟩ := work_follows hm hs hwork (harmlessFinish_of_quiet hquiet)
    exact ⟨(net', ideal'), ⟨hwork, hworks⟩, step_sound hs hworks.1, hm', link', hgoing'⟩
  have hfirst : Sound pf (net, ideal).2 ∧ Mirrors (net, ideal).1 (net, ideal).2 ∧
      ∃ link, Going (net, ideal).1 fd link := ⟨hs, hm, link, hgoing⟩
  obtain ⟨⟨net', ideal'⟩, hrun, ⟨hs', hm', link', hgoing'⟩, hgoal⟩ :=
    hpays.reaches_goal hprogress hs hfirst
  have hlift : Relation.ReflTransGen (RingWork pf fd) net net' :=
    hrun.lift Prod.fst fun _ _ hstep => hstep.1
  have hlinked : ideal'.links fd ≠ none := by
    rw [(hgoing'.agrees hm' hs').1]
    exact Option.some_ne_none _
  obtain ⟨last, link, hwork, hlast⟩ := enough_finishes hgoal hm' hs' (hs'.sign hlinked)
  exact ⟨last, link, hlift.tail hwork, hlast⟩

theorem client_can_finish_half_way : ∃ net link net' link',
    RingReaches ServerClosing.plainPlatform HarmlessFinish net ∧ net.links 5 = some link ∧
    link.client.stored = 256 ∧
    Relation.ReflTransGen (RingWork ServerClosing.plainPlatform 5) net net' ∧
    net'.links 5 = some link' ∧ link'.client.stored = 512 ∧ net'.Finished 5 := by
  have hfit : FitsBuffers ServerClosing.plainPlatform.codec ServerClosing.zeroStamp :=
    wireCodec_fits (Nat.zero_le _)
  obtain ⟨start, net, cl, hstart, hrun, h, -, hbeside⟩ := exists_asked hfit
    (by decide : (5 : Fd).msb = false) (by norm_num : 256 < 512)
  have hreach : RingReaches ServerClosing.plainPlatform HarmlessFinish net :=
    ⟨start, hstart, steps_ring (fun _ _ _ harmless => harmless) (initial_sound hstart) hrun hbeside.roots⟩
  have hask := hfit.status .askNeedMsg (by simp [Status.Named])
  have hfits : FramesFit net 5 := by
    constructor
    · intro link on f hmem
      rw [h.link, Option.some.injEq] at on
      rw [← on] at hmem
      rw [List.mem_singleton.mp hmem]
      exact hask
    · intro f d hmem
      rw [h.ops, List.mem_singleton, Op.pending.injEq, Sqe.send.injEq] at hmem
      rw [hmem.2.1]
      exact hask
  obtain ⟨net', link', hfinish, on', hstored, hfinished⟩ := client_can_finish hreach hfit (by decide)
    h.link rfl h.waits.phase (by rw [h.ops]; exact List.cons_ne_nil _ _) hfits
  exact ⟨net, _, net', link', hreach, h.link, h.part.taken.stored, hfinish, on', hstored, hfinished⟩

end Finish

end CBlockchain.Transfer
