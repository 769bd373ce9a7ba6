import CBlockchain.RingDelivery
import CBlockchain.P2pDelivery

/-! What a listening peer takes for a block. In every run of the two peers it receives at
most one block, and that is the one served, but for the bytes behind its date. With the
transfer before it: whatever block a peer gets from a client commits to the root the message
server printed. -/
namespace CBlockchain.P2pReceipt
open BlockData BlockProcess ClientLoop MessageService P2pDelivery P2pEventLoop P2pExchange
open P2pListen P2pSerdes
open Transfer (Op singleton_split singleton_front)
variable {codec : P2pCodec} {block : Block} {socks : Sockets} {p p' : Pair}

/-- The block as the receiver copies it, with `behind` in memory after the date. -/
def copied (block : Block) (behind : ℕ → UInt8) : Block :=
  { block with date := copyDate (.ofBuffer ((blockBytes block).drop 15)) behind }

theorem checksAgainst_copied {H : GenericHash} {top : Digest} {behind : ℕ → UInt8} :
    ChecksAgainst H top (copied block behind) ↔ ChecksAgainst H top block := by
  unfold ChecksAgainst copied
  simp only

/-- What the server sends in a conversation. -/
def Said (st : P2pStatus) : Prop :=
  st = .ping ∨ st = .ok ∨ st = .blockNotReady ∨ st = .block ∨ st = .finish

/-- Bytes that decode to something the server sends, and if to a block, then to this one. -/
def Faithful (codec : P2pCodec) (block : Block) (data : List UInt8) : Prop :=
  ∃ st, p2pDeserializeStatus codec data = some st ∧ Said st ∧
    (st = .block → ∀ behind, deserializeBlock codec behind data = some (some (copied block behind)))

theorem faithful_block : Faithful codec block (p2pSerializeBlockToSock codec block) :=
  ⟨.block, deserializeStatus_block, by simp [Said],
    fun _ behind => deserialize_serialize block behind⟩

theorem faithful_of_status {data : List UInt8} {st : P2pStatus}
    (hst : p2pDeserializeStatus codec data = some st) (hsaid : Said st) (hne : st ≠ .block) :
    Faithful codec block data :=
  ⟨st, hst, hsaid, fun heq => absurd heq hne⟩

/-- What completes on the listener's side: a send, or a receive of such bytes. -/
def Heard (codec : P2pCodec) (block : Block) (cqe : Cqe) : Prop :=
  P2pListen.requestDataEventType cqe.userData = some .readResponse ∨
    P2pListen.requestDataEventType cqe.userData = some .processResponse ∧
      Faithful codec block cqe.data

/-- A turn of the listener takes the block and asks for nothing, or leaves the blocks as they
are. -/
theorem turn_received {l l' : Listener} {sqes : List Sqe} {cqe : Cqe} {date : CString}
    {behind : ℕ → UInt8} {s : Fd} (heard : Heard codec block cqe)
    (turn : setupP2pListeningStep codec date behind s cqe l = some (l', sqes)) :
    l'.received = l.received ∨ sqes = [] ∧ l'.received = l.received ++ [copied block behind] := by
  unfold setupP2pListeningStep at turn
  rcases heard with htag | ⟨htag, st, hst, -, hblock⟩
  · rw [htag] at turn
    cases turn
    exact .inl rfl
  · rw [htag] at turn
    simp only [hst, Option.bind_eq_bind, Option.bind_some] at turn
    unfold processResponse at turn
    split at turn
    · cases turn
      exact .inl rfl
    · cases turn
      exact .inl rfl
    · rw [hblock rfl behind] at turn
      cases turn
      exact .inr ⟨rfl, rfl⟩
    · split at turn
      · cases turn
        exact .inl rfl
      · cases turn
        exact .inl rfl
    · cases turn
      exact .inl rfl

/-- The blocks received so far, and what the listener may still make of a completion. -/
structure Receipt (codec : P2pCodec) (block : Block) (p : Pair) : Prop where
  received : p.listener.received = [] ∨ p.startOps = [] ∧ p.listenerOps = [] ∧
    ∃ behind, p.listener.received = [copied block behind]
  posted : ∀ cqe, .posted cqe ∈ p.listenerOps → Heard codec block cqe

section Steps
variable {l₁ l₂ : List Op} {sqe : Sqe} {cqe : Cqe} {rest : List (List UInt8)}

theorem heard_waiting {s : Fd} (hs : s.msb = false) {ops : List Op}
    {frames : List (List UInt8)} (listener : ListenerWaits s ops)
    (hops : ops = l₁ ++ .pending sqe :: l₂) (hc : Completes frames sqe cqe rest)
    (hframes : ∀ gs, frames = gs ++ rest → gs ≠ [] → Faithful codec block gs.flatten) :
    Heard codec block cqe := by
  rcases listener.post hops hc with ⟨-, hwaits, -⟩ | ⟨gs, res, -, harrived, hgs, hne⟩
  · generalize hnew : l₁ ++ .posted cqe :: l₂ = new at hwaits
    cases hwaits with
    | sending => cases (singleton_split hnew.symm).2.1
    | receiving => cases (singleton_split hnew.symm).2.1
    | sent =>
      injection (singleton_split hnew.symm).2.1 with hcqe
      rw [← hcqe]
      exact .inl (P2pListen.requestDataEventType_make hs _)
  · injection (singleton_split harrived.symm).2.1 with hcqe
    rw [← hcqe]
    exact .inr ⟨P2pListen.requestDataEventType_make hs _, hframes gs hgs hne⟩

/-- Whatever the listener's receive returns, it is a status, the block, or the block with the
finish behind it. -/
theorem heard_listenerPost (h : Exchange codec block socks p)
    (hops : p.listenerOps = l₁ ++ .pending sqe :: l₂)
    (hc : Completes p.toListener sqe cqe rest) : Heard codec block cqe := by
  have hidle : ListenerWaits socks.s p.listenerOps → p.toListener = [] →
      Heard codec block cqe := by
    intro listener outgoing
    refine heard_waiting socks.s_sign listener hops hc fun gs hgs hne => ?_
    rw [outgoing] at hgs
    exact absurd (List.append_eq_nil_iff.mp hgs.symm).1 hne
  cases h with
  | @offered date st server listener offer outgoing incoming idle =>
    refine heard_waiting socks.s_sign listener hops hc fun gs hgs hne => ?_
    obtain ⟨rfl, -⟩ := singleton_front (outgoing ▸ hgs) hne
    rw [List.flatten_singleton]
    have hnamed : st.Named := by rcases offer with rfl | rfl | rfl <;> intro n <;> simp
    refine faithful_of_status (deserializeStatus_sendStatus hnamed) ?_ ?_
    · rcases offer with rfl | rfl | rfl <;> simp [Said]
    · rcases offer with rfl | rfl | rfl <;> simp
  | read server arrived offer outgoing incoming idle =>
    rw [arrived] at hops
    cases (singleton_split hops).2.1
  | answered server listener answer outgoing incoming idle => exact hidle listener outgoing
  | asked arrived positive listener answer outgoing incoming idle =>
    exact hidle listener outgoing
  | blockSent server listener outgoing incoming =>
    refine heard_waiting socks.s_sign listener hops hc fun gs hgs hne => ?_
    obtain ⟨rfl, -⟩ := singleton_front (outgoing ▸ hgs) hne
    rw [List.flatten_singleton]
    exact faithful_block
  | @finishSent date server listener outgoing incoming =>
    refine heard_waiting socks.s_sign listener hops hc fun gs hgs hne => ?_
    rcases front_of_block (outgoing ▸ hgs) hne with rfl | rfl
    · rw [List.flatten_singleton]
      exact faithful_block
    · rw [List.flatten_cons, List.flatten_singleton]
      exact faithful_of_status (@deserializeStatus_block_finish codec block date)
        (by simp [Said]) (by simp)
  | taken server listener incoming idle =>
    rcases listener with hnil | ⟨posted, hposted, -⟩
    · simp [hnil] at hops
    · rw [hposted] at hops
      cases (singleton_split hops).2.1

/-- The listener has one request at a time. -/
theorem listenerOps_length_le (h : Exchange codec block socks p) : p.listenerOps.length ≤ 1 := by
  have hwaits : ListenerWaits socks.s p.listenerOps → p.listenerOps.length ≤ 1 := by
    intro listener
    generalize p.listenerOps = ops at listener
    cases listener <;> simp
  cases h with
  | offered server listener => exact hwaits listener
  | read server arrived => simp [arrived]
  | answered server listener => exact hwaits listener
  | asked arrived positive listener => exact hwaits listener
  | blockSent server listener => exact hwaits listener
  | finishSent server listener => exact hwaits listener
  | taken server listener =>
    rcases listener with hnil | ⟨posted, hposted, -⟩
    · simp [hnil]
    · simp [hposted]

theorem receipt_listenerTurn {date : CString} {behind : ℕ → UInt8} {l : Listener}
    {sqes : List Sqe} (hexchange : Exchange codec block socks p) (h : Receipt codec block p)
    (started : p.startOps = []) (hops : p.listenerOps = l₁ ++ .posted cqe :: l₂)
    (turn : setupP2pListeningStep codec date behind socks.s cqe p.listener = some (l, sqes)) :
    Receipt codec block
      (sqes.foldl request { p with listener := l, listenerOps := l₁ ++ l₂ }) := by
  have hnone : p.listener.received = [] := by
    rcases h.received with hnone | ⟨-, hnil, -⟩
    · exact hnone
    · simp [hnil] at hops
  obtain ⟨hlistener, -, hposted⟩ := foldl_request sqes (step_prepares turn)
    { p with listener := l, listenerOps := l₁ ++ l₂ }
  constructor
  · rw [hlistener]
    rcases turn_received (h.posted cqe (by simp [hops])) turn with hsame | ⟨rfl, hl⟩
    · exact .inl (hsame.trans hnone)
    · have hlen := listenerOps_length_le hexchange
      rw [hops, List.length_append, List.length_cons] at hlen
      refine .inr ⟨started, List.eq_nil_of_length_eq_zero ?_, behind, ?_⟩
      · rw [List.foldl_nil, List.length_append]
        omega
      · rw [hl, hnone, List.nil_append]
  · intro cqe' hmem
    have hbefore := hposted cqe' hmem
    refine h.posted cqe' ?_
    rw [hops]
    rcases List.mem_append.mp hbefore with hleft | hright
    · exact List.mem_append_left _ hleft
    · exact List.mem_append_right _ (List.mem_cons_of_mem _ hright)

theorem receipt_listenerPost (hexchange : Exchange codec block socks p)
    (h : Receipt codec block p) (hops : p.listenerOps = l₁ ++ .pending sqe :: l₂)
    (hc : Completes p.toListener sqe cqe rest) :
    Receipt codec block { p with
      listenerOps := l₁ ++ .posted cqe :: l₂
      toListener := rest
      awaiting := p.awaiting && !isRecv sqe } := by
  constructor
  · rcases h.received with hnone | ⟨-, hnil, -⟩
    · exact .inl hnone
    · simp [hnil] at hops
  · intro cqe' hmem
    rcases List.mem_append.mp hmem with hleft | hright
    · exact h.posted cqe' (hops ▸ List.mem_append_left _ hleft)
    · rcases List.mem_cons.mp hright with heq | hright
      · cases heq
        exact heard_listenerPost hexchange hops hc
      · exact h.posted cqe'
          (hops ▸ List.mem_append_right _ (List.mem_cons_of_mem _ hright))

/-- What the server does, the listener does not notice. -/
theorem Receipt.of_eq (h : Receipt codec block p) (hlistener : p'.listener = p.listener)
    (hstart : p'.startOps = p.startOps) (hops : p'.listenerOps = p.listenerOps) :
    Receipt codec block p' := by
  constructor
  · rw [hlistener, hstart, hops]
    exact h.received
  · rw [hops]
    exact h.posted

/-- Before the zeroed entry has been handled, nothing has been received. -/
theorem Receipt.of_start (h : Receipt codec block p) (hstart : p.startOps ≠ []) (ops : List Op) :
    Receipt codec block { p with startOps := ops } := by
  constructor
  · rcases h.received with hnone | ⟨hnil, -⟩
    · exact .inl hnone
    · exact absurd hnil hstart
  · exact h.posted

theorem receipt_initial {date : CString} :
    Receipt codec block (initial codec date socks.fd socks.s) := by
  constructor
  · exact .inl rfl
  · intro cqe hmem
    have hops : (initial codec date socks.fd socks.s).listenerOps =
        [.pending (.recv socks.s (P2pListen.makeRequestData socks.s .processResponse))] := rfl
    rw [hops, List.mem_singleton] at hmem
    cases hmem

theorem step_receipt (starts : Starts p.startOps) (hexchange : Exchange codec block socks p) (h : Receipt codec block p)
    (hstep : Step codec block socks.s p p') : Receipt codec block p' := by
  cases hstep with
  | serverPost outstanding completes => exact h.of_eq rfl rfl rfl
  | serverTurn date sh ready waiting turn =>
    obtain ⟨hlistener, hstart, hops⟩ := foldl_serve _ _
    exact h.of_eq hlistener hstart hops
  | listenerPost outstanding completes =>
    exact receipt_listenerPost hexchange h outstanding completes
  | startPost outstanding completes => exact h.of_start (by simp [outstanding]) _
  | startTurn date behind waiting turn =>
    obtain ⟨-, -, rfl, rfl⟩ := starts.turn waiting turn
    exact h.of_start (by simp [waiting]) _
  | listenerTurn date behind started waiting turn =>
    exact receipt_listenerTurn hexchange h started waiting turn

theorem reaches_receipt (h : Reaches codec block socks p) : Receipt codec block p := by
  obtain ⟨date, hrun⟩ := h
  induction hrun with
  | refl => exact receipt_initial
  | tail hbefore hstep ih =>
    exact step_receipt (reaches_starts ⟨date, hbefore⟩) (reaches_exchange ⟨date, hbefore⟩) ih hstep

end Steps

/-- In every run the listener receives at most one block, and that is the served one: its
fields are those of the block but for the bytes behind its date, and nothing is requested
afterwards. -/
theorem listener_receives_once (h : Reaches codec block socks p) :
    p.listener.received = [] ∨ p.startOps = [] ∧ p.listenerOps = [] ∧
      ∃ behind, p.listener.received = [copied block behind] :=
  (reaches_receipt h).received

section Received

/-- The listener can receive the block before the finish is sent. -/
theorem reaches_received {date : CString} {sh : Shared} (published : Published codec block sh)
    (hfits : ∀ st : P2pStatus, st.Named → (p2pSendStatus codec date st).length ≤ 4096)
    (hblock : (p2pSerializeBlockToSock codec block).length ≤ 4096) :
    ∃ p, Reaches codec block socks p ∧ p.listener.received = [copied block fun _ => 0] := by
  obtain ⟨date', hrun⟩ := @reaches_block codec block socks date sh published hfits
  have hpost := @Step.listenerPost codec block socks.s (sending socks
    (p2pSerializeBlockToSock codec block) .flagBlockSended
      [p2pSerializeBlockToSock codec block] true) [] [] _ _ _ rfl (completes_received hblock)
  have hturn := @step_processResponse codec date (fun _ => 0) socks.s
    (.ofNat 32 (p2pSerializeBlockToSock codec block).length) (p2pSerializeBlockToSock codec block)
    ⟨false, []⟩ socks.s_sign
  rw [deserializeStatus_block, Option.bind_some, processResponse, deserialize_serialize] at hturn
  exact ⟨_, ⟨date', .tail (.tail hrun hpost)
    (@Step.listenerTurn codec block socks.s _ [] [] _ _ _ date _ rfl rfl hturn)⟩, rfl⟩

/-- Block messages of the wire format fit a receive. -/
theorem wireBlock_fits : (p2pSerializeBlockToSock p2pWireCodec block).length ≤ 4096 := by
  have hword : ∀ x : UInt64, (WireFormat.putVarint x.toNat).length ≤ 9 + 1 := fun x =>
    WireFormat.length_putVarint_le (x.toNat_lt.trans (by norm_num))
  have hdate : (CString.ofBuffer ((blockBytes block).drop 15)).bytes.length ≤ 123 := by
    have htake := (List.takeWhile_sublist (l := (blockBytes block).drop 15)
      fun x : UInt8 => decide (x ≠ 0)).length_le
    rw [List.length_drop, length_blockBytes] at htake
    exact htake
  have hbegin := hword block.timestampBegin
  have hend := hword block.timestampEnd
  have hdifficulty := hword block.difficulty
  unfold p2pSerializeBlockToSock
  generalize CString.ofBuffer ((blockBytes block).drop 15) = date at hdate
  have hlength : (WireFormat.putVarint date.bytes.length).length ≤ 0 + 1 :=
    WireFormat.length_putVarint_le (by omega)
  simp [p2pWireCodec, P2pWireCodec.fields, WireFormat.presentFields, P2pWireCodec.numbers,
    P2pWireCodec.fieldValue, WireFormat.putFields, WireFormat.putField,
    WireFormat.putVarint_small, P2pStatus.code]
  omega

end Received

theorem listener_receives_once_newYear : ∃ p, Reaches p2pWireCodec newYearBlock newYearSockets p ∧
    p.startOps = [] ∧ p.listenerOps = [] ∧
    ∃ behind, p.listener.received = [copied newYearBlock behind] := by
  obtain ⟨p, hreach, hreceived⟩ := @reaches_received p2pWireCodec newYearBlock newYearSockets
    newYearDate _ published_publishedShared newYearStatus_fits wireBlock_fits
  refine ⟨p, hreach, ?_⟩
  rcases listener_receives_once hreach with hnone | honce
  · simp [hreceived] at hnone
  · exact honce

section Source
variable {pf : Platform} {net : Transfer.Net} {fd : Fd} {link : Transfer.Link}

/-- From the message source to the peer: every block a peer receives from a client with a
block commits to the root the message server printed, and its nonce solves the puzzle. -/
theorem peer_receives_source_root (h : Transfer.RingReaches pf Transfer.HarmlessFinish net)
    (on : net.links fd = some link) (filled : link.client.phase = .filled)
    (hblock : link.client.block = some block)
    (hp : Reaches codec block socks p) :
    ∀ b ∈ p.listener.received, ChecksAgainst pf.H (blockRoot pf) b := by
  intro b hb
  obtain ⟨-, -, block', hblock', hcheck⟩ := h.filled_block on filled
  obtain rfl := Option.some.inj (hblock'.symm.trans hblock)
  rcases (reaches_receipt hp).received with hnone | ⟨-, -, behind, honce⟩
  · simp [hnone] at hb
  · rw [honce, List.mem_singleton] at hb
    rw [hb]
    exact checksAgainst_copied.mpr hcheck

theorem peer_receives_source_root_newYear : ∃ net link block p b,
    Transfer.RingReaches Transfer.signingPlatform Transfer.HarmlessFinish net ∧
    net.links 5 = some link ∧
    link.client.block = some block ∧ Reaches p2pWireCodec block newYearSockets p ∧
    p.listener.received = [b] ∧
    ChecksAgainst Transfer.signingPlatform.H (blockRoot Transfer.signingPlatform) b := by
  obtain ⟨net, link, hreach, on, filled⟩ := Transfer.signingPlatform_filled
  obtain ⟨-, -, block, hblock, -⟩ := hreach.filled_block on filled
  obtain ⟨p, hp, hreceived⟩ := @reaches_received p2pWireCodec block newYearSockets
    newYearDate _ published_publishedShared newYearStatus_fits wireBlock_fits
  have hcheck := peer_receives_source_root hreach on filled hblock hp
  refine ⟨net, link, block, p, copied block fun _ => 0, hreach, on, hblock, hp, hreceived, ?_⟩
  exact hcheck _ (by rw [hreceived]; exact List.mem_singleton_self _)

end Source
end CBlockchain.P2pReceipt
