import CBlockchain.TransferServer

/-! A client that has been asked can always be served to the end: from every sound net
there are steps that bring it the next message, and after the last one the server prints
the root, provided the frames fit the buffers. -/
namespace CBlockchain.Transfer
open ConnectionHandlers DataHandlers EventLoop ReceiveLoop RequestData Serdes
variable {pf : Platform} {net : Net} {fd : Fd} {stamp : Stamp}

structure FitsBuffers (codec : Codec) (stamp : Stamp) : Prop where
  status : ∀ s, s.Named → (sendOnlyStatusCode codec stamp s).length ≤ 4096
  message : ∀ m : SignedMessage, m.length ≤ 512 → (serializeDataV2 codec stamp m).length ≤ 4096

/-- The net with other requests and another connection on one socket number. -/
def Net.setFd (net : Net) (fd : Fd) (ops : List Op) (link : Link) : Net :=
  { net with
    ops := Function.update net.ops fd ops
    links := Function.update net.links fd (some link) }

section SetFd
variable {ops : List Op} {link link' : Link}

theorem Net.setFd_self (hops : net.ops fd = ops) (on : net.links fd = some link) :
    net.setFd fd ops link = net := by
  simp [setFd, ← hops, ← on]

theorem step_post {sqe : Sqe} {cqe : Cqe} (h : Completes (some link) sqe cqe (some link')) :
    Step pf (net.setFd fd [.pending sqe] link)
      ((net.fill fd cqe.data).setFd fd [.posted cqe] link') := by
  have hops : (net.setFd fd [.pending sqe] link).ops fd = [] ++ .pending sqe :: [] :=
    Function.update_self _ _ _
  have hon : (net.setFd fd [.pending sqe] link).links fd = some link := Function.update_self _ _ _
  have hstep : Step pf _ _ := .post hops (hon.symm ▸ h)
  simpa [Net.setFd, Net.fill] using hstep

theorem step_sent_handled (hfd : fd.msb = false) {res : BitVec 32} (hres : res ≠ 0) :
    Step pf (net.setFd fd [.posted ⟨makeRequestData fd .readResponse, res, []⟩] link)
      ((net.enter (.recv fd (makeRequestData fd .testResponse))).setFd fd
        [.pending (.recv fd (makeRequestData fd .testResponse))] link) := by
  have hops : (net.setFd fd [.posted ⟨makeRequestData fd .readResponse, res, []⟩] link).ops fd =
      [] ++ .posted ⟨makeRequestData fd .readResponse, res, []⟩ :: [] := Function.update_self _ _ _
  have hstep : Step pf _ _ := .handle ⟨⟨[], CString.nil_noNul⟩, 0⟩ hops
    ((step_sent hfd _ _ _ _).trans (if_pos hres))
  simpa [Net.setFd, perform, Net.addOp, Net.enter] using hstep

theorem step_deliver {f : List UInt8} (isOpen : link.isOpen = true) (out : link.toClient = [f])
    (fits : f.length ≤ 4096) (waits : Waiting link.client) :
    Step pf (net.setFd fd ops link)
      (net.setFd fd ops { link with toClient := [], client := receive f link.client }) := by
  have hon : (net.setFd fd ops link).links fd = some link := Function.update_self _ _ _
  have hstep : Step pf _ _ := .deliver hon isOpen (out.trans (List.append_nil _).symm) (by simp)
    (by simpa using fits) waits
  simpa [Net.setFd] using hstep

theorem step_answer {g : List UInt8} {cl : Client} (isOpen : link.isOpen = true)
    (phase : link.client.phase = .receiving)
    (turn : clientTurn pf.codec stamp link.client = some (cl, [(.server, g)])) :
    Step pf (net.setFd fd ops link)
      (net.setFd fd ops { link with toServer := link.toServer ++ [g], client := cl }) := by
  have hon : (net.setFd fd ops link).links fd = some link := Function.update_self _ _ _
  have hstep : Step pf _ _ := .clientTurn stamp hon isOpen phase turn
  simpa [Net.setFd, framesToServer] using hstep

end SetFd

/-- Steps on one socket number that print no root: what they leave alone, and how many
requests they submit. -/
structure Beside (fd : Fd) (n : ℕ) (net net' : Net) : Prop where
  ops : ∀ fd' ≠ fd, net'.ops fd' = net.ops fd'
  links : ∀ fd' ≠ fd, net'.links fd' = net.links fd'
  buffers : ∀ fd' ≠ fd, net'.buffers fd' = net.buffers fd'
  counters : ∀ fd' ≠ fd, net'.server.befferSendedN fd' = net.server.befferSendedN fd'
  accepts : net'.accepts = net.accepts
  roots : net'.roots = net.roots
  entries : ∃ es, net'.entries = net.entries ++ es ∧ es.length = n

theorem Beside.refl (fd : Fd) (net : Net) : Beside fd 0 net net :=
  ⟨fun _ _ => rfl, fun _ _ => rfl, fun _ _ => rfl, fun _ _ => rfl, rfl, rfl, [], by simp, rfl⟩

theorem Beside.trans {n m : ℕ} {net₁ net₂ net₃ : Net} (h : Beside fd n net₁ net₂)
    (h' : Beside fd m net₂ net₃) : Beside fd (n + m) net₁ net₃ where
  ops := fun fd' hne => (h'.ops fd' hne).trans (h.ops fd' hne)
  links := fun fd' hne => (h'.links fd' hne).trans (h.links fd' hne)
  buffers := fun fd' hne => (h'.buffers fd' hne).trans (h.buffers fd' hne)
  counters := fun fd' hne => (h'.counters fd' hne).trans (h.counters fd' hne)
  accepts := h'.accepts.trans h.accepts
  roots := h'.roots.trans h.roots
  entries := by
    obtain ⟨es, hes, hlen⟩ := h.entries
    obtain ⟨es', hes', hlen'⟩ := h'.entries
    exact ⟨es ++ es', by rw [hes', hes, List.append_assoc], by rw [List.length_append, hlen, hlen']⟩

/-- The client's answer `g` has been received. -/
structure Arrived (net : Net) (fd : Fd) (g : List UInt8) (cl : Client) : Prop where
  ops : net.ops fd = [.posted ⟨makeRequestData fd .testResponse, .ofNat 32 g.length, g⟩]
  link : net.links fd = some ⟨true, [], [], cl⟩

/-- A frame is carried to the client and its answer back; the server submits a receive. -/
theorem carry (net : Net) (hfd : fd.msb = false) {f g : List UInt8} {cl cl' : Client} (waits : Waiting cl)
    (hf : f ≠ []) (hfl : f.length ≤ 4096) (hgl : g.length ≤ 4096)
    (turn : clientTurn pf.codec stamp (receive f cl) = some (cl', [(.server, g)])) :
    ∃ net', Relation.ReflTransGen (Step pf)
        (net.setFd fd [.pending (.send fd f (makeRequestData fd .readResponse))] ⟨true, [f], [], cl⟩)
        net' ∧ Arrived net' fd g cl' ∧ net'.server = net.server ∧ Beside fd 1 net net' := by
  have hsent := ofNat_toInt hfl
  have h : Completes (some ⟨true, [], [g], cl'⟩) (.recv fd (makeRequestData fd .testResponse))
      ⟨makeRequestData fd .testResponse, .ofNat 32 g.length, [g].flatten⟩
      (some ⟨true, [], [], cl'⟩) :=
    .received rfl (by simp) (by simpa using hgl) (by simpa using ofNat_toInt hgl)
  rw [List.flatten_singleton] at h
  refine ⟨_, .head (step_post (.sent rfl hsent)) (.head (step_sent_handled hfd (toInt_ne_zero hsent hf))
    (.head (step_deliver rfl rfl hfl waits) (.head (step_answer rfl waits.phase turn)
      (.single (step_post h))))), ⟨Function.update_self _ _ _, Function.update_self _ _ _⟩, rfl, ?_⟩
  exact ⟨fun fd' hne => Function.update_of_ne hne _ _, fun fd' hne => Function.update_of_ne hne _ _,
    fun fd' hne => (Net.fill_of_ne _ hne g).trans (net.fill_of_ne hne []), fun _ _ => rfl, rfl, rfl,
    _, rfl, rfl⟩

theorem status_handled (hfit : FitsBuffers pf.codec stamp) (hfd : fd.msb = false) (status : Status)
    (hn : status.Named) (s : Server) :
    eventLoopStep pf stamp ⟨makeRequestData fd .testResponse,
        .ofNat 32 (sendOnlyStatusCode pf.codec stamp status).length,
        sendOnlyStatusCode pf.codec stamp status⟩ s = handleStatus pf stamp fd s status := by
  have hres := ofNat_toInt (hfit.status status hn)
  have hlen := List.length_pos_iff.mpr (sendOnlyStatusCode_ne_nil pf.codec stamp status)
  exact step_status hfd stamp (by omega) stamp status hn s

/-- A turn of the server that sends `frame`, alone or as the message of a slot. -/
inductive Sends (fd : Fd) (frame : List UInt8) : List Effect → Prop
  | status : Sends fd frame [.submit (.send fd frame (makeRequestData fd .readResponse))]
  | message (j : ℕ) (m : SignedMessage) : Sends fd frame
      [.serve fd j m, .submit (.send fd frame (makeRequestData fd .readResponse))]

/-- The server has sent `f` to a client that holds `k` messages. -/
structure Posed (pf : Platform) (net : Net) (fd : Fd) (f : List UInt8) (k : ℕ) (cl : Client) :
    Prop where
  sound : Sound pf net
  sign : fd.msb = false
  ops : net.ops fd = [.pending (.send fd f (makeRequestData fd .readResponse))]
  link : net.links fd = some ⟨true, [f], [], cl⟩
  waits : Waiting cl
  part : Partway net.server.cbuf k cl

/-- The frame stands in the client's buffer and in the entry submitted last. -/
structure LastSent (net : Net) (fd : Fd) (f : List UInt8) : Prop where
  front : (net.buffers fd).take f.length = f
  entry : ∃ es, net.entries = es ++ [.send fd f (makeRequestData fd .readResponse)]

theorem Sends.foldl_perform {frame : List UInt8} {effects : List Effect} (h : Sends fd frame effects)
    (net : Net) : ∃ buffers, (∀ fd' ≠ fd, buffers fd' = net.buffers fd') ∧
      effects.foldl perform net = perform { net with buffers := buffers }
        (.submit (.send fd frame (makeRequestData fd .readResponse))) := by
  cases h with
  | status => exact ⟨net.buffers, fun _ _ => rfl, rfl⟩
  | message j m => exact ⟨(net.clear fd).buffers, fun _ hne => Function.update_of_ne hne _ _, rfl⟩

/-- The server answers with another frame. -/
theorem Arrived.question {g frame : List UInt8} {cl : Client} {k : ℕ} {server : Server}
    {effects : List Effect} (hs : Sound pf net) (h : Arrived net fd g cl) (sign : fd.msb = false)
    (waits : Waiting cl) (part : Partway server.cbuf k cl)
    (turn : eventLoopStep pf stamp ⟨makeRequestData fd .testResponse, .ofNat 32 g.length, g⟩
      net.server = some (server, effects))
    (hcount : ∀ fd' ≠ fd, server.befferSendedN fd' = net.server.befferSendedN fd')
    (sends : Sends fd frame effects) :
    ∃ net', Step pf net net' ∧ Posed pf net' fd frame k cl ∧ net'.server = server ∧
      LastSent net' fd frame ∧ Beside fd 1 net net' := by
  have hops : net.ops fd = [] ++ .posted _ :: [] := h.ops
  have hstep : Step pf net _ := .handle stamp hops turn
  have hsound := step_sound hs hstep
  obtain ⟨buffers, hbuffers, heff⟩ := sends.foldl_perform
    { net with server := server, ops := Function.update net.ops fd ([] ++ []) }
  rw [heff] at hstep hsound
  refine ⟨_, hstep, ⟨hsound, sign, ?_, ?_, waits, part⟩, rfl, ⟨Net.take_fill _ fd frame, net.entries, rfl⟩,
    ⟨fun fd' hne => ?_, fun fd' hne => Function.update_of_ne hne _ _, fun fd' hne => ?_, hcount, rfl, rfl,
      _, rfl, rfl⟩⟩
  · simp [perform, Net.addOp, Net.enter, Net.fill, Net.onLink]
  · simp [perform, Net.addOp, Net.enter, Net.fill, Net.onLink, h.link, Link.push]
  · simp [perform, Net.addOp, Net.enter, Net.fill, Net.onLink, Function.update_of_ne hne]
  · exact (Net.fill_of_ne _ hne frame).trans (hbuffers fd' hne)

theorem Posed.carry {f g : List UInt8} {k : ℕ} {cl cl' : Client} (h : Posed pf net fd f k cl)
    (hf : f ≠ []) (hfl : f.length ≤ 4096) (hgl : g.length ≤ 4096)
    (turn : clientTurn pf.codec stamp (receive f cl) = some (cl', [(.server, g)])) :
    ∃ net', Relation.ReflTransGen (Step pf) net net' ∧ Sound pf net' ∧ Arrived net' fd g cl' ∧
      net'.server = net.server ∧ Beside fd 1 net net' := by
  obtain ⟨net', hrun, harrived, hserver, hbeside⟩ :=
    Transfer.carry net h.sign h.waits hf hfl hgl turn
  rw [Net.setFd_self h.ops h.link] at hrun
  exact ⟨net', hrun, steps_sound h.sound hrun, harrived, hserver, hbeside⟩

/-- The client asks for the next message and is served it. -/
theorem Posed.offer {k : ℕ} {cl : Client} (hfit : FitsBuffers pf.codec stamp)
    (h : Posed pf net fd (sendOnlyStatusCode pf.codec stamp .askNeedMsg) k cl)
    (hb : net.server.befferSendedN fd = k) :
    ∃ net' m cl', Relation.ReflTransGen (Step pf) net net' ∧
      Posed pf net' fd (serializeDataV2 pf.codec stamp m) k cl' ∧
      LastSent net' fd (serializeDataV2 pf.codec stamp m) ∧ slotMsg net'.server.cbuf k = some m ∧
      net'.server.befferSendedN fd = k + 1 ∧ Beside fd 2 net net' := by
  have hfa := hfit.status .askNeedMsg (by simp [Status.Named])
  have hfn := hfit.status .needMore (by simp [Status.Named])
  obtain ⟨cl', hturn, hwait, hcount, hstored, harr⟩ := clientTurn_ask (h.waits.receive hfa) stamp
    (readOnlyStatusResponse_send pf.codec stamp (by simp [Status.Named]))
  obtain ⟨net₁, hrun, hs₁, harrived, hserver, hbeside₁⟩ :=
    h.carry (sendOnlyStatusCode_ne_nil _ _ _) hfa hfn hturn
  obtain ⟨cbuf, m, hneed, hslot, -, hgrow, -⟩ := handleResponseNeedMoreMsg_serves pf h.sound.ready
    stamp (hb.trans_lt h.part.lt)
  rw [← hserver] at hneed hb hslot
  obtain ⟨net', hstep, hposed, hserver', hlast, hbeside'⟩ := harrived.question hs₁ h.sign hwait
    ⟨h.part.lt, hcount.trans h.part.count, (h.part.taken.congr hstored harr).grow hgrow⟩
    ((status_handled hfit h.sign .needMore (by simp [Status.Named]) net₁.server).trans hneed)
    (fun fd' hne => Function.update_of_ne hne _ _) (.message _ m)
  rw [hb] at hslot
  refine ⟨net', m, cl', hrun.tail hstep, hposed, hlast, ?_, ?_, hbeside₁.trans hbeside'⟩
  · rw [hserver']
    exact hslot
  · rw [hserver', ← hb]
    exact Function.update_self _ _ _

/-- The client stores a message that is not the last and is asked again. -/
theorem Posed.acknowledge {k : ℕ} {cl : Client} {m : SignedMessage}
    (hfit : FitsBuffers pf.codec stamp)
    (h : Posed pf net fd (serializeDataV2 pf.codec stamp m) k cl) (hk : k < 511)
    (hslot : slotMsg net.server.cbuf k = some m) :
    ∃ net' cl', Relation.ReflTransGen (Step pf) net net' ∧
      Posed pf net' fd (sendOnlyStatusCode pf.codec stamp .askNeedMsg) (k + 1) cl' ∧
      net'.server = net.server ∧ Beside fd 2 net net' := by
  have hm := h.sound.ready.length_le hslot
  have hfm := hfit.message m hm
  have hfa := hfit.status .acknOk (by simp [Status.Named])
  obtain ⟨cl', slot, hturn, hwait, hcount, hstored, harr, hsame, hroom⟩ :=
    clientTurn_message (h.waits.receive hfm) stamp rfl hm (h.part.count.trans_lt hk)
      h.part.taken.length h.part.taken.room
  obtain ⟨net₁, hrun, hs₁, harrived, hserver, hbeside₁⟩ :=
    h.carry (serializeDataV2_ne_nil _ _ _) hfm hfa hturn
  have htaken := h.part.taken.store hstored (harr.trans (by rw [← h.part.count]; rfl)) h.part.lt hslot
    hsame hroom
  obtain ⟨net', hstep, hposed, hserver', -, hbeside'⟩ := harrived.question (k := k + 1) hs₁ h.sign hwait
    ⟨by omega, hcount.trans (by rw [← h.part.count]; rfl), hserver ▸ htaken⟩
    (status_handled hfit h.sign .acknOk (by simp [Status.Named]) net₁.server) (fun _ _ => rfl) .status
  exact ⟨net', cl', hrun.tail hstep, hposed, hserver'.trans hserver, hbeside₁.trans hbeside'⟩

/-- The client stores the last message, and its `ENOUGH` arrives. -/
theorem Posed.enough {cl : Client} {m : SignedMessage} (hfit : FitsBuffers pf.codec stamp)
    (h : Posed pf net fd (serializeDataV2 pf.codec stamp m) 511 cl)
    (hslot : slotMsg net.server.cbuf 511 = some m) :
    ∃ net' cl', Relation.ReflTransGen (Step pf) net net' ∧ Sound pf net' ∧
      Arrived net' fd (sendOnlyStatusCode pf.codec stamp .enough) cl' ∧
      Taken net'.server.cbuf 512 cl' ∧ Beside fd 1 net net' := by
  have hm := h.sound.ready.length_le hslot
  have hfm := hfit.message m hm
  have hfe := hfit.status .enough (by simp [Status.Named])
  obtain ⟨cl', slot, hturn, hphase, -, hstored, harr, hsame, hroom⟩ :=
    clientTurn_last (h.waits.receive hfm) stamp rfl hm h.part.count h.part.taken.length
      h.part.taken.room
  obtain ⟨net', hrun, hs', harrived, hserver, hbeside⟩ :=
    h.carry (serializeDataV2_ne_nil _ _ _) hfm hfe hturn
  have htaken := h.part.taken.store hstored (harr.trans (by rw [← h.part.count]; rfl)) h.part.lt hslot
    hsame hroom
  exact ⟨net', cl', hrun, hs', harrived, hserver ▸ htaken, hbeside⟩

theorem Posed.rounds (hfit : FitsBuffers pf.codec stamp) (n : ℕ) :
    ∀ {net : Net} {k : ℕ} {cl : Client},
      Posed pf net fd (sendOnlyStatusCode pf.codec stamp .askNeedMsg) k cl →
      net.server.befferSendedN fd = k → k + n < 512 →
      ∃ net' cl', Relation.ReflTransGen (Step pf) net net' ∧
        Posed pf net' fd (sendOnlyStatusCode pf.codec stamp .askNeedMsg) (k + n) cl' ∧
        net'.server.befferSendedN fd = k + n ∧ Beside fd (4 * n) net net' := by
  induction n with
  | zero =>
    intro net k cl h hb _
    exact ⟨net, cl, .refl, h, hb, .refl fd net⟩
  | succ n ih =>
    intro net k cl h hb hk
    obtain ⟨net₁, m, cl₁, hrun₁, h₁, -, hslot, hb₁, hbeside₁⟩ := h.offer hfit hb
    obtain ⟨net₂, cl₂, hrun₂, h₂, hserver, hbeside₂⟩ := h₁.acknowledge hfit (by omega) hslot
    obtain ⟨net', cl', hrun', h', hb', hbeside'⟩ := ih h₂ (by rw [hserver]; exact hb₁) (by omega)
    have hbeside := (hbeside₁.trans hbeside₂).trans hbeside'
    refine ⟨net', cl', (hrun₁.trans hrun₂).trans hrun', ?_, ?_, ?_⟩
    · rwa [show k + (n + 1) = k + 1 + n by omega]
    · rw [hb']
      omega
    · rwa [show 4 * (n + 1) = 2 + 2 + 4 * n by omega]

/-- Every client that is asked can be served until its `ENOUGH` arrives: four requests for
each message, less the one that asked. -/
theorem Posed.served {k : ℕ} {cl : Client} (hfit : FitsBuffers pf.codec stamp)
    (h : Posed pf net fd (sendOnlyStatusCode pf.codec stamp .askNeedMsg) k cl)
    (hb : net.server.befferSendedN fd = k) :
    ∃ net' cl', Relation.ReflTransGen (Step pf) net net' ∧ Sound pf net' ∧
      Arrived net' fd (sendOnlyStatusCode pf.codec stamp .enough) cl' ∧
      Taken net'.server.cbuf 512 cl' ∧ Beside fd (4 * (512 - k) - 1) net net' := by
  have hk := h.part.lt
  obtain ⟨net₁, cl₁, hrun₁, h₁, hb₁, hbeside₁⟩ := Posed.rounds hfit (511 - k) h hb (by omega)
  rw [show k + (511 - k) = 511 by omega] at h₁ hb₁
  obtain ⟨net₂, m, cl₂, hrun₂, h₂, -, hslot, -, hbeside₂⟩ := h₁.offer hfit hb₁
  obtain ⟨net', cl', hrun', hs', harrived, htaken, hbeside'⟩ := h₂.enough hfit hslot
  have hbeside := (hbeside₁.trans hbeside₂).trans hbeside'
  refine ⟨net', cl', (hrun₁.trans hrun₂).trans hrun', hs', harrived, htaken, ?_⟩
  rwa [show 4 * (512 - k) - 1 = 4 * (511 - k) + 2 + 1 by omega]

theorem connect (hs : Sound pf net) (stamp : Stamp) {n : ℕ} (outstanding : net.accepts = n + 1)
    (sign : fd.msb = false) (unused : net.links fd = none) :
    ∃ net', Step pf net net' ∧
      Posed pf net' fd (sendOnlyStatusCode pf.codec stamp .askNeedMsg) 0 connectedClient ∧
      net'.server.befferSendedN fd = 0 ∧ Beside fd 2 net net' := by
  have hstep : Step pf net _ := .accepted stamp outstanding sign unused (step_accepted _ _ _ _)
  have hok := hs.fd fd
  rw [Net.Ok, unused] at hok
  cases hok with
  | refused sign' => simp [sign] at sign'
  | unused _ idle counter =>
    refine ⟨_, hstep, ⟨step_sound hs hstep, sign, ?_, ?_, ⟨rfl, rfl⟩, connectedClient_partway _⟩,
      counter, ⟨fun fd' hne => Function.update_of_ne hne _ _, fun fd' hne => ?_,
        fun fd' hne => Function.update_of_ne hne _ _, fun _ _ => rfl, outstanding.symm, rfl, ?_⟩⟩
    · simp [perform, addAcceptRequest, Net.addOp, Net.enter, Net.fill, Net.onLink, idle]
    · simp [perform, addAcceptRequest, Net.addOp, Net.enter, Net.fill, Net.onLink, Link.push]
    · simp [perform, addAcceptRequest, Net.addOp, Net.enter, Net.fill, Net.onLink, hne]
    · exact ⟨_, List.append_assoc _ _ _, rfl⟩

theorem exists_asked (hfit : FitsBuffers pf.codec stamp) {fd : Fd} (sign : fd.msb = false) {k : ℕ}
    (hk : k < 512) : ∃ start net cl, initial pf = some start ∧
      Relation.ReflTransGen (Step pf) start net ∧
      Posed pf net fd (sendOnlyStatusCode pf.codec stamp .askNeedMsg) k cl ∧
      net.server.befferSendedN fd = k ∧ Beside fd (2 + 4 * k) start net := by
  obtain ⟨cbuf, hinit, -⟩ := initial_spec pf
  obtain ⟨net₁, hstep, h₁, hb₁, hbeside₁⟩ := connect (initial_sound hinit) stamp rfl sign rfl
  obtain ⟨net, cl, hrun, h, hb, hbeside⟩ := Posed.rounds hfit k h₁ hb₁ (by omega)
  rw [zero_add] at h hb
  exact ⟨_, net, cl, hinit, hrun.head hstep, h, hb, hbeside₁.trans hbeside⟩

/-- Frames of the wire format fit the buffers unless the date string is very long. -/
theorem wireCodec_fits {stamp : Stamp} (hdate : stamp.date.bytes.length ≤ 1024) :
    FitsBuffers wireCodec stamp := by
  have htime : (WireFormat.putVarint stamp.epochNs.toNat).length ≤ 9 + 1 :=
    WireFormat.length_putVarint_le (stamp.epochNs.toNat_lt.trans (by norm_num))
  have hlen : (WireFormat.putVarint stamp.date.bytes.length).length ≤ 1 + 1 :=
    WireFormat.length_putVarint_le (by omega)
  have hcode : ∀ s : Status, s.Named → s.code < 128 := by
    intro s hs
    cases s with
    | unnamed n => exact absurd rfl (hs n)
    | _ => decide
  constructor
  · intro s hs
    have hs := hcode s hs
    have h : (sendOnlyStatusCode wireCodec stamp s).length =
        (WireFormat.putVarint stamp.date.bytes.length).length + stamp.date.bytes.length +
          (WireFormat.putVarint stamp.epochNs.toNat).length + 4 := by
      simp [sendOnlyStatusCode, wireCodec, WireCodec.fields, WireFormat.putFields,
        WireFormat.putField, WireFormat.putVarint_small, hs]
      omega
    omega
  · intro m hm
    have htx : (WireFormat.putVarint m.length).length ≤ 1 + 1 :=
      WireFormat.length_putVarint_le (by omega)
    have h : (serializeDataV2 wireCodec stamp m).length =
        (WireFormat.putVarint m.length).length + m.length +
        (WireFormat.putVarint stamp.date.bytes.length).length + stamp.date.bytes.length +
          (WireFormat.putVarint stamp.epochNs.toNat).length + 39 := by
      simp [serializeDataV2, wireCodec, WireCodec.fields, WireFormat.putFields,
        WireFormat.putField, WireFormat.putVarint_small, hcode .messageSended (by simp [Status.Named])]
      omega
    omega

end CBlockchain.Transfer
