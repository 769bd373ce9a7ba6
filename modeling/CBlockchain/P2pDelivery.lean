import CBlockchain.P2pExchange

/-! Whether the block arrives. The server sends its finish when the send of the block has
completed, not when the listener has received it: if one receive returns both frames, the
status that is decoded is that of the finish. -/
namespace CBlockchain.P2pDelivery
open ClientLoop P2pEventLoop P2pExchange P2pListen P2pSerdes
open Transfer (Op ofNat_toInt singleton_split singleton_front)
variable (codec : P2pCodec)

/-- The listener's receive completes, as `cqe`, with the frames `gs`. -/
structure Receives (p : Pair) (gs : List (List UInt8)) (cqe : Cqe) : Prop where
  outstanding : ∃ l₁ l₂ fd, p.listenerOps = l₁ ++ .pending (.recv fd cqe.userData) :: l₂
  next : ∃ rest, p.toListener = gs ++ rest
  nonempty : gs ≠ []
  fits : gs.flatten.length ≤ 4096
  data : cqe.data = gs.flatten
  res : cqe.res.toInt = gs.flatten.length

/-- The completion is decoded with status `BLOCK` and handed to `deserialize_block`, which
yields the fields of `block` other than the date. -/
def Delivers (block : Block) (s : Fd) (cqe : Cqe) : Prop :=
  p2pDeserializeStatus codec cqe.data = some .block ∧
  ∀ date behind l, ∃ b', deserializeBlock codec behind cqe.data = some (some b') ∧
    setupP2pListeningStep codec date behind s cqe l =
      some ({ l with received := l.received ++ [b'] }, []) ∧
    b'.nonce = block.nonce ∧ b'.merkleRoot = block.merkleRoot ∧
    b'.previousBlock = block.previousBlock ∧ b'.timestampBegin = block.timestampBegin ∧
    b'.timestampEnd = block.timestampEnd ∧ b'.difficulty = block.difficulty

section Delivery
variable {codec} {block : Block} {socks : Sockets} {p : Pair} {gs : List (List UInt8)} {cqe : Cqe}

theorem delivers_block {s : Fd} (hs : s.msb = false)
    (htag : cqe.userData = P2pListen.makeRequestData s .processResponse)
    (hdata : cqe.data = p2pSerializeBlockToSock codec block) : Delivers codec block s cqe := by
  obtain ⟨userData, res, data⟩ := cqe
  obtain rfl := htag
  obtain rfl := hdata
  refine ⟨deserializeStatus_block, ?_⟩
  intro date behind l
  have hdes := @deserialize_serialize codec block behind
  refine ⟨_, hdes, ?_, rfl, rfl, rfl, rfl, rfl, rfl⟩
  rw [step_processResponse hs, deserializeStatus_block, Option.bind_some, processResponse, hdes]
  rfl

/-- The listener's receive is the one that is handled as a response. -/
theorem userData_of_receives {s : Fd} (h : ListenerWaits s p.listenerOps)
    (hr : Receives p gs cqe) : cqe.userData = P2pListen.makeRequestData s .processResponse := by
  obtain ⟨l₁, l₂, fd, hops⟩ := hr.outstanding
  generalize p.listenerOps = ops at h hops
  cases h with
  | sending => cases (singleton_split hops).2.1
  | sent => cases (singleton_split hops).2.1
  | receiving =>
    injection (singleton_split hops).2.1 with hsqe
    injection hsqe with _ hd
    exact hd.symm

end Delivery

section Run
variable {codec} {block : Block} {socks : Sockets} {date : CString} {l : Listener}
  {serverOps listenerOps : List Op} {toListener toServer : List (List UInt8)} {awaiting : Bool}
  {fd s : Fd} {d : BitVec 64} {res : BitVec 32} {frame : List UInt8} {flag : StateP2p}

theorem step_serverSent (hfits : frame.length ≤ 4096) :
    Step codec block s
      ⟨[.pending (.send fd frame d)], l, [], listenerOps, toListener, toServer, awaiting⟩
      ⟨[.posted ⟨d, .ofNat 32 frame.length, []⟩], l, [], listenerOps, toListener, toServer,
        awaiting⟩ :=
  @Step.serverPost codec block s _ [] [] _ _ _ rfl (.sent (ofNat_toInt hfits))

theorem completes_received (hfits : frame.length ≤ 4096) :
    Completes [frame] (.recv fd d) ⟨d, .ofNat 32 frame.length, frame⟩ [] := by
  have hc : Completes [frame] (.recv fd d) ⟨d, .ofNat 32 frame.length, [frame].flatten⟩ [] :=
    .received rfl (by simp) (by simpa using hfits) (by simpa using ofNat_toInt hfits)
  rwa [List.flatten_singleton] at hc

theorem step_serverReceived (hfits : frame.length ≤ 4096) :
    Step codec block s ⟨[.pending (.recv fd d)], l, [], listenerOps, toListener, [frame], awaiting⟩
      ⟨[.posted ⟨d, .ofNat 32 frame.length, frame⟩], l, [], listenerOps, toListener, [], awaiting⟩ :=
  @Step.serverPost codec block s _ [] [] _ _ _ rfl (completes_received hfits)

/-- While the block is collected. -/
def collecting : Shared := ⟨[], 0, true⟩

theorem step_serverRead (hfd : fd.msb = false)
    (hflag : flag = .flagWaitPong ∨ flag = .flagReadResponse) :
    Step codec block s
      ⟨[.posted ⟨P2pEventLoop.makeRequestData fd flag, res, []⟩], l, [], listenerOps, toListener,
        toServer, awaiting⟩
      ⟨[.pending (.recv fd (P2pEventLoop.makeRequestData fd .flagTestResponse))], l, [], listenerOps,
        toListener, toServer, awaiting⟩ := by
  have hread : eventLoopP2pStep codec ⟨[], CString.nil_noNul⟩ collecting
      ⟨P2pEventLoop.makeRequestData fd flag, res, []⟩ = some (p2pReadStatusResponse fd) := by
    rcases hflag with rfl | rfl
    · exact step_waitPong hfd
    · exact P2pEventLoop.step_readResponse hfd
  exact @Step.serverTurn codec block s _ [] [] _ _ _ collecting (.inl rfl) rfl hread

theorem step_listenerReceived (hfits : frame.length ≤ 4096) :
    Step codec block s ⟨serverOps, l, [], [.pending (.recv fd d)], [frame], toServer, false⟩
      ⟨serverOps, l, [], [.posted ⟨d, .ofNat 32 frame.length, frame⟩], [], toServer, false⟩ :=
  @Step.listenerPost codec block s _ [] [] _ _ _ rfl (completes_received hfits)

theorem step_listenerAnswers (hs : s.msb = false) {st answer : P2pStatus}
    (hst : p2pDeserializeStatus codec frame = some st)
    (turn : processResponse codec date (fun _ => 0) s frame l st =
      some (l, [clP2pSendStatus codec date s answer .readResponse])) :
    Step codec block s
      ⟨serverOps, l, [], [.posted ⟨P2pListen.makeRequestData s .processResponse, res, frame⟩],
        toListener, [], awaiting⟩
      ⟨serverOps, l, [], [.pending (clP2pSendStatus codec date s answer .readResponse)], toListener,
        [p2pSendStatus codec date answer], awaiting⟩ := by
  have hturn := @step_processResponse codec date (fun _ => 0) s res frame l hs
  rw [hst, Option.bind_some, turn] at hturn
  let p : Pair := ⟨serverOps, l, [], [.posted ⟨P2pListen.makeRequestData s .processResponse, res,
    frame⟩], toListener, [], awaiting⟩
  exact @Step.listenerTurn codec block s p [] [] _ _ _ date (fun _ => 0) rfl rfl hturn

theorem step_listenerSent (hfits : frame.length ≤ 4096) :
    Step codec block s ⟨serverOps, l, [], [.pending (.send fd frame d)], toListener, toServer, false⟩
      ⟨serverOps, l, [], [.posted ⟨d, .ofNat 32 frame.length, []⟩], toListener, toServer, false⟩ :=
  @Step.listenerPost codec block s _ [] [] _ _ _ rfl (.sent (ofNat_toInt hfits))

theorem step_listenerRead (hs : s.msb = false) :
    Step codec block s
      ⟨serverOps, l, [], [.posted ⟨P2pListen.makeRequestData s .readResponse, res, []⟩], toListener,
        toServer, awaiting⟩
      ⟨serverOps, l, [], [.pending (clP2pReadStatusResponse s .processResponse)], toListener,
        toServer, awaiting⟩ :=
  @Step.listenerTurn codec block s _ [] [] _ _ _ ⟨[], CString.nil_noNul⟩ (fun _ => 0) rfl rfl
    (P2pListen.step_readResponse hs)

/-- The server has sent `frame`, which it tags with `flag`; the listener waits, with `frames`
under way to it. -/
def sending (socks : Sockets) (frame : List UInt8) (flag : StateP2p) (frames : List (List UInt8))
    (awaiting : Bool) : Pair :=
  ⟨[.pending (.send socks.fd frame (P2pEventLoop.makeRequestData socks.fd flag))], ⟨false, []⟩,
    [], [.pending (clP2pReadStatusResponse socks.s .processResponse)], frames, [], awaiting⟩

/-- The server has received `frame` from the listener, which waits again. -/
def receiving (socks : Sockets) (frame : List UInt8) : Pair :=
  ⟨[.posted ⟨P2pEventLoop.makeRequestData socks.fd .flagTestResponse, .ofNat 32 frame.length,
    frame⟩], ⟨false, []⟩, [], [.pending (clP2pReadStatusResponse socks.s .processResponse)], [],
    [], false⟩

/-- The ping is under way, and the listener has handled its zeroed entry. -/
theorem reaches_started : Reaches codec block socks
    (sending socks (p2pSendStatus codec date .ping) .flagWaitPong
      [p2pSendStatus codec date .ping] false) := by
  have hpost := @Step.startPost codec block socks.s (initial codec date socks.fd socks.s) [] [] _ _
    rfl .zeroed
  have hturn := @Step.startTurn codec block socks.s
    { initial codec date socks.fd socks.s with startOps := [.posted ⟨0, 0, []⟩] } [] [] _ _ _ date
    (fun _ => 0) rfl step_zeroed
  exact ⟨date, .tail (.single hpost) hturn⟩

/-- A status goes out and its answer comes back. -/
theorem round_trip {st answer : P2pStatus} (hst : st.Named)
    (hflag : flag = .flagWaitPong ∨ flag = .flagReadResponse)
    (hfits : (p2pSendStatus codec date st).length ≤ 4096)
    (hfits' : (p2pSendStatus codec date answer).length ≤ 4096)
    (turn : processResponse codec date (fun _ => 0) socks.s (p2pSendStatus codec date st)
      ⟨false, []⟩ st =
        some (⟨false, []⟩, [clP2pSendStatus codec date socks.s answer .readResponse])) :
    Relation.ReflTransGen (Step codec block socks.s)
      (sending socks (p2pSendStatus codec date st) flag [p2pSendStatus codec date st] false)
      (receiving socks (p2pSendStatus codec date answer)) := by
  refine .head (step_serverSent hfits) ?_
  refine .head (step_serverRead socks.fd_sign hflag) ?_
  refine .head (step_listenerReceived hfits) ?_
  refine .head (step_listenerAnswers socks.s_sign (deserializeStatus_sendStatus hst) turn) ?_
  refine .head (step_listenerSent hfits') ?_
  refine .head (step_listenerRead socks.s_sign) ?_
  exact .single (step_serverReceived hfits')

/-- The server's turn on an answer. -/
theorem step_answered {answer : P2pStatus} (hanswer : answer.Named) {sh : Shared}
    (ready : sh.mtxHeld = true ∨ Published codec block sh)
    (hfits : (p2pSendStatus codec date answer).length ≤ 4096) :
    Step codec block socks.s (receiving socks (p2pSendStatus codec date answer))
      ((handleStatus codec date sh (!sh.mtxHeld) socks.fd answer).foldl serve
        { receiving socks (p2pSendStatus codec date answer) with serverOps := [] }) := by
  have hpos : 0 < (BitVec.ofNat 32 (p2pSendStatus codec date answer).length).toInt := by
    rw [ofNat_toInt hfits]
    exact_mod_cast List.length_pos_of_ne_nil (codec.pack_ne_nil _)
  refine @Step.serverTurn codec block _ _ [] [] _ _ date sh ready rfl ?_
  rw [step_testResponse socks.fd_sign, if_pos hpos, deserializeStatus_sendStatus hanswer,
    Option.map_some]

/-- The peers reach the state in which the block has just been sent. -/
theorem reaches_block {sh : Shared} (published : Published codec block sh)
    (hfits : ∀ st : P2pStatus, st.Named → (p2pSendStatus codec date st).length ≤ 4096) :
    Reaches codec block socks (sending socks (p2pSerializeBlockToSock codec block)
      .flagBlockSended [p2pSerializeBlockToSock codec block] true) := by
  have hping : P2pStatus.ping.Named := by intro n; simp
  have hpong : P2pStatus.pong.Named := by intro n; simp
  have hok : P2pStatus.ok.Named := by intro n; simp
  have hask : P2pStatus.askIfBlockReady.Named := by intro n; simp
  have hanswered := @step_answered codec block socks date _ hpong collecting (.inl rfl)
    (hfits _ hpong)
  have hsend := @step_answered codec block socks date _ hask sh (.inr published) (hfits _ hask)
  simp only [handleStatus, published.free, Bool.not_false, if_true, p2pserSendBlock,
    published.data, List.foldl_cons, List.foldl_nil, serve] at hsend
  obtain ⟨date', hrun⟩ := @reaches_started codec block socks date
  refine ⟨date', hrun.trans ?_⟩
  refine .trans (round_trip hping (.inl rfl) (hfits _ hping) (hfits _ hpong) rfl) ?_
  refine .head hanswered ?_
  refine .trans (round_trip hok (.inr rfl) (hfits _ hok) (hfits _ hask) rfl) ?_
  exact .single hsend

/-- The finish follows although the listener has not received the block. -/
theorem reaches_finish {sh : Shared} (published : Published codec block sh)
    (hfits : ∀ st : P2pStatus, st.Named → (p2pSendStatus codec date st).length ≤ 4096)
    (hblock : (p2pSerializeBlockToSock codec block).length ≤ 4096) :
    Reaches codec block socks (sending socks (p2pSendStatus codec date .finish) .flagWaitPong
      [p2pSerializeBlockToSock codec block, p2pSendStatus codec date .finish] true) := by
  obtain ⟨date', hrun⟩ := @reaches_block codec block socks date sh published hfits
  have hturn := @step_blockSended codec date collecting (.ofNat 32
    (p2pSerializeBlockToSock codec block).length) [] socks.fd socks.fd_sign
  refine ⟨date', .tail (.tail hrun (step_serverSent hblock)) ?_⟩
  exact @Step.serverTurn codec block _ _ [] [] _ _ date collecting (.inl rfl) rfl hturn

theorem receives_sending {gs rest : List (List UInt8)} (hne : gs ≠ [])
    (hfits : gs.flatten.length ≤ 4096) :
    Receives (sending socks frame flag (gs ++ rest) awaiting) gs
      ⟨P2pListen.makeRequestData socks.s .processResponse, .ofNat 32 gs.flatten.length,
        gs.flatten⟩ where
  outstanding := ⟨[], [], socks.s, rfl⟩
  next := ⟨rest, rfl⟩
  nonempty := hne
  fits := hfits
  data := rfl
  res := ofNat_toInt hfits

/-- The buffer as the client leaves it when it has filled a block. -/
def publishedShared (codec : P2pCodec) (block : Block) : Shared :=
  ⟨p2pSerializeBlockToSock codec block, (p2pSerializeBlockToSock codec block).length, false⟩

theorem published_publishedShared : Published codec block (publishedShared codec block) where
  free := rfl
  data := List.take_length

end Run

theorem newYearStatus_fits (st : P2pStatus) (hst : st.Named) :
    (p2pSendStatus p2pWireCodec newYearDate st).length ≤ 4096 := by
  rw [length_newYearStatus hst]
  norm_num

def newYearSockets : Sockets := ⟨5, 6, rfl, rfl⟩

/-- In every state two peers reach after `P2Pser_send_block`, the next receive of the
listening peer delivers the block exactly if it returns one frame: the finish that the
server sends without waiting must not have come with it. -/
theorem block_delivered_iff (codec : P2pCodec) (block : Block) (socks : Sockets) (p : Pair)
    (h : Reaches codec block socks p) (awaiting : p.awaiting = true) (gs : List (List UInt8))
    (cqe : Cqe) (hr : Receives p gs cqe) :
    Delivers codec block socks.s cqe ↔ gs.length = 1 := by
  obtain ⟨rest, hnext⟩ := hr.next
  have hdata := hr.data
  cases reaches_exchange h with
  | offered _ _ _ _ _ idle => simp [idle] at awaiting
  | read _ _ _ _ _ idle => simp [idle] at awaiting
  | answered _ _ _ _ _ idle => simp [idle] at awaiting
  | asked _ _ _ _ _ _ idle => simp [idle] at awaiting
  | taken _ _ _ idle => simp [idle] at awaiting
  | blockSent server listener outgoing incoming =>
    obtain ⟨rfl, -⟩ := singleton_front (outgoing ▸ hnext) hr.nonempty
    rw [List.flatten_singleton] at hdata
    have hdel := delivers_block socks.s_sign (userData_of_receives listener hr) hdata
    exact ⟨fun _ => rfl, fun _ => hdel⟩
  | @finishSent date server listener outgoing incoming =>
    rcases front_of_block (outgoing ▸ hnext) hr.nonempty with rfl | rfl
    · rw [List.flatten_singleton] at hdata
      have hdel := delivers_block socks.s_sign (userData_of_receives listener hr) hdata
      exact ⟨fun _ => rfl, fun _ => hdel⟩
    · constructor
      · intro hdel
        have hstatus := hdel.1
        rw [hdata, List.flatten_cons, List.flatten_singleton,
          deserializeStatus_block_finish] at hstatus
        cases hstatus
      · intro hlen
        cases hlen

/-- The listener receives before the finish is sent. -/
theorem block_delivered_alone : ∃ p cqe,
    Reaches p2pWireCodec newYearBlock newYearSockets p ∧ p.awaiting = true ∧
    Receives p [p2pSerializeBlockToSock p2pWireCodec newYearBlock] cqe ∧
    Delivers p2pWireCodec newYearBlock newYearSockets.s cqe := by
  have hreach := @reaches_block p2pWireCodec newYearBlock newYearSockets newYearDate _
    published_publishedShared newYearStatus_fits
  have hr := @receives_sending newYearSockets true
    (p2pSerializeBlockToSock p2pWireCodec newYearBlock) .flagBlockSended
    [p2pSerializeBlockToSock p2pWireCodec newYearBlock] [] (by simp)
    (by simp [length_newYearBlock])
  exact ⟨_, _, hreach, rfl, hr, (block_delivered_iff _ _ _ _ hreach rfl _ _ hr).mpr rfl⟩

/-- The server's finish is under way before the listener receives: one receive returns both
frames, they decode with status `FINISH`, and the block is not delivered. -/
theorem block_lost_behind_finish : ∃ p cqe,
    Reaches p2pWireCodec newYearBlock newYearSockets p ∧ p.awaiting = true ∧
    Receives p [p2pSerializeBlockToSock p2pWireCodec newYearBlock,
      p2pSendStatus p2pWireCodec newYearDate .finish] cqe ∧
    p2pDeserializeStatus p2pWireCodec cqe.data = some .finish ∧
    ¬ Delivers p2pWireCodec newYearBlock newYearSockets.s cqe := by
  have hfinish : P2pStatus.finish.Named := by intro n; simp
  have hreach := @reaches_finish p2pWireCodec newYearBlock newYearSockets newYearDate _
    published_publishedShared newYearStatus_fits (by simp [length_newYearBlock])
  have hr := @receives_sending newYearSockets true
    (p2pSendStatus p2pWireCodec newYearDate .finish) .flagWaitPong
    [p2pSerializeBlockToSock p2pWireCodec newYearBlock,
      p2pSendStatus p2pWireCodec newYearDate .finish] [] (by simp)
    (by simp [length_newYearBlock, length_newYearStatus hfinish])
  refine ⟨_, _, hreach, rfl, hr, ?_⟩
  have hstatus := @deserializeStatus_block_finish p2pWireCodec newYearBlock newYearDate
  rw [List.flatten_cons, List.flatten_singleton]
  refine ⟨hstatus, fun hdel => ?_⟩
  have hcontra := hdel.1
  rw [hstatus] at hcontra
  cases hcontra

end CBlockchain.P2pDelivery
