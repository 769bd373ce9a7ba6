import CBlockchain.P2pEventLoop
import CBlockchain.P2pListen
import CBlockchain.Transfer

/-! A peer that serves a finished block and a peer that listens for it, over one connection.
Requests complete and completions are handled in any order on both sides; a stream keeps no
frame boundaries, so a receive may return several frames run together. Of the server's
requests only those on this connection are followed, and the mutex may be held or free at
each of its turns. -/
namespace CBlockchain.P2pExchange
open ClientLoop P2pEventLoop P2pListen P2pSerdes
open Transfer (Op singleton_split singleton_front)
variable (codec : P2pCodec)

/-- The block is ready: the mutex is free and the shared buffer holds the block. -/
structure Published (block : Block) (sh : Shared) : Prop where
  free : sh.mtxHeld = false
  data : sh.blockData.take sh.blockWrittenSize = p2pSerializeBlockToSock codec block

/-- The requests of both peers, the frames under way, and whether `P2Pser_send_block` has
been called and the listening peer has received nothing since. The zeroed entry with which
the listener starts is kept apart from its sends and receives. -/
structure Pair where
  serverOps : List Op
  listener : Listener
  startOps : List Op
  listenerOps : List Op
  toListener : List (List UInt8)
  toServer : List (List UInt8)
  awaiting : Bool

def serve (p : Pair) : P2pEffect → Pair
  | .submit (.send fd data d) =>
    { p with
      serverOps := p.serverOps ++ [.pending (.send fd data d)]
      toListener := p.toListener ++ [data] }
  | .submit sqe => { p with serverOps := p.serverOps ++ [.pending sqe] }
  | .write _ => p
  | .sendBlock _ => { p with awaiting := true }

def request (p : Pair) : Sqe → Pair
  | .send fd data d =>
    { p with
      listenerOps := p.listenerOps ++ [.pending (.send fd data d)]
      toServer := p.toServer ++ [data] }
  | .unprepared d => { p with startOps := p.startOps ++ [.pending (.unprepared d)] }
  | sqe => { p with listenerOps := p.listenerOps ++ [.pending sqe] }

/-- How a request completes, given the frames on their way to its peer. A zeroed entry is a
no-op. -/
inductive Completes (incoming : List (List UInt8)) : Sqe → Cqe → List (List UInt8) → Prop
  | sent {fd : Fd} {data : List UInt8} {d : BitVec 64} {res : BitVec 32}
      (hres : res.toInt = data.length) :
      Completes incoming (.send fd data d) ⟨d, res, []⟩ incoming
  | received {fd : Fd} {d : BitVec 64} {res : BitVec 32} {gs rest : List (List UInt8)}
      (next : incoming = gs ++ rest) (hne : gs ≠ []) (fits : gs.flatten.length ≤ 4096)
      (hres : res.toInt = gs.flatten.length) :
      Completes incoming (.recv fd d) ⟨d, res, gs.flatten⟩ rest
  | zeroed : Completes incoming (.unprepared 0) ⟨0, 0, []⟩ incoming

def isRecv : Sqe → Bool
  | .recv _ _ => true
  | _ => false

/-- `s` is the listener's socket. Completions are handled in the order in which they were
posted, so that of the zeroed entry comes first. -/
inductive Step (block : Block) (s : Fd) : Pair → Pair → Prop
  | serverPost {p : Pair} {l₁ l₂ : List Op} {sqe : Sqe} {cqe : Cqe} {rest : List (List UInt8)}
      (outstanding : p.serverOps = l₁ ++ .pending sqe :: l₂)
      (completes : Completes p.toServer sqe cqe rest) :
      Step block s p { p with serverOps := l₁ ++ .posted cqe :: l₂, toServer := rest }
  | serverTurn {p : Pair} {l₁ l₂ : List Op} {cqe : Cqe} {effects : List P2pEffect} (date : CString)
      (sh : Shared) (ready : sh.mtxHeld = true ∨ Published codec block sh)
      (waiting : p.serverOps = l₁ ++ .posted cqe :: l₂)
      (turn : eventLoopP2pStep codec date sh cqe = some effects) :
      Step block s p (effects.foldl serve { p with serverOps := l₁ ++ l₂ })
  | listenerPost {p : Pair} {l₁ l₂ : List Op} {sqe : Sqe} {cqe : Cqe} {rest : List (List UInt8)}
      (outstanding : p.listenerOps = l₁ ++ .pending sqe :: l₂)
      (completes : Completes p.toListener sqe cqe rest) :
      Step block s p { p with
        listenerOps := l₁ ++ .posted cqe :: l₂
        toListener := rest
        awaiting := p.awaiting && !isRecv sqe }
  | startPost {p : Pair} {l₁ l₂ : List Op} {sqe : Sqe} {cqe : Cqe}
      (outstanding : p.startOps = l₁ ++ .pending sqe :: l₂)
      (completes : Completes p.toListener sqe cqe p.toListener) :
      Step block s p { p with startOps := l₁ ++ .posted cqe :: l₂ }
  | startTurn {p : Pair} {l₁ l₂ : List Op} {cqe : Cqe} {l : Listener} {sqes : List Sqe}
      (date : CString) (behind : ℕ → UInt8)
      (waiting : p.startOps = l₁ ++ .posted cqe :: l₂)
      (turn : setupP2pListeningStep codec date behind s cqe p.listener = some (l, sqes)) :
      Step block s p (sqes.foldl request { p with listener := l, startOps := l₁ ++ l₂ })
  | listenerTurn {p : Pair} {l₁ l₂ : List Op} {cqe : Cqe} {l : Listener} {sqes : List Sqe}
      (date : CString) (behind : ℕ → UInt8) (started : p.startOps = [])
      (waiting : p.listenerOps = l₁ ++ .posted cqe :: l₂)
      (turn : setupP2pListeningStep codec date behind s cqe p.listener = some (l, sqes)) :
      Step block s p (sqes.foldl request { p with listener := l, listenerOps := l₁ ++ l₂ })

/-- The server has accepted the connection and pings; the listener has asked for a first
receive. -/
def initial (date : CString) (fd s : Fd) : Pair :=
  (setupP2pListeningStart s).2.foldl request
    ((p2pSendPing codec date fd).foldl serve
      ⟨[], (setupP2pListeningStart s).1, [], [], [], [], false⟩)

/-- The connection has nonnegative socket numbers at both ends. -/
structure Sockets where
  fd : Fd
  s : Fd
  fd_sign : fd.msb = false
  s_sign : s.msb = false

def Reaches (block : Block) (socks : Sockets) (p : Pair) : Prop :=
  ∃ date, Relation.ReflTransGen (Step codec block socks.s) (initial codec date socks.fd socks.s) p

/-- The server has sent a status and goes on to receive the answer. -/
inductive ServerWaits (fd : Fd) : List Op → Prop
  | sending {data : List UInt8} {flag : StateP2p}
      (hflag : flag = .flagWaitPong ∨ flag = .flagReadResponse) :
      ServerWaits fd [.pending (.send fd data (P2pEventLoop.makeRequestData fd flag))]
  | sent {res : BitVec 32} {flag : StateP2p}
      (hflag : flag = .flagWaitPong ∨ flag = .flagReadResponse) :
      ServerWaits fd [.posted ⟨P2pEventLoop.makeRequestData fd flag, res, []⟩]
  | receiving :
      ServerWaits fd [.pending (.recv fd (P2pEventLoop.makeRequestData fd .flagTestResponse))]

inductive SendsBlock (fd : Fd) : List Op → Prop
  | sending {data : List UInt8} :
      SendsBlock fd [.pending (.send fd data (P2pEventLoop.makeRequestData fd .flagBlockSended))]
  | sent {res : BitVec 32} :
      SendsBlock fd [.posted ⟨P2pEventLoop.makeRequestData fd .flagBlockSended, res, []⟩]

/-- The listener has answered and goes on to receive. -/
inductive ListenerWaits (s : Fd) : List Op → Prop
  | sending {data : List UInt8} :
      ListenerWaits s [.pending (.send s data (P2pListen.makeRequestData s .readResponse))]
  | sent {res : BitVec 32} :
      ListenerWaits s [.posted ⟨P2pListen.makeRequestData s .readResponse, res, []⟩]
  | receiving :
      ListenerWaits s [.pending (.recv s (P2pListen.makeRequestData s .processResponse))]

/-- The listener starts with a zeroed entry. -/
inductive Starts : List Op → Prop
  | submitted : Starts [.pending (.unprepared 0)]
  | completed : Starts [.posted ⟨0, 0, []⟩]
  | started : Starts []

/-- The listener's turn on this completion requests nothing. -/
def Silent (s : Fd) (cqe : Cqe) : Prop :=
  ∀ date behind l l' sqes, setupP2pListeningStep codec date behind s cqe l = some (l', sqes) →
    sqes = []

/-- Where the two peers stand: the server offers a status, the listener answers it, and
once the block is sent the finish may follow before the block is received. -/
inductive Exchange (block : Block) (socks : Sockets) (p : Pair) : Prop
  | offered {date : CString} {st : P2pStatus} (server : ServerWaits socks.fd p.serverOps)
      (listener : ListenerWaits socks.s p.listenerOps)
      (offer : st = .ping ∨ st = .ok ∨ st = .blockNotReady)
      (outgoing : p.toListener = [p2pSendStatus codec date st]) (incoming : p.toServer = [])
      (idle : p.awaiting = false)
  | read {date : CString} {st : P2pStatus} {res : BitVec 32}
      (server : ServerWaits socks.fd p.serverOps)
      (arrived : p.listenerOps = [.posted ⟨P2pListen.makeRequestData socks.s .processResponse, res,
        p2pSendStatus codec date st⟩])
      (offer : st = .ping ∨ st = .ok ∨ st = .blockNotReady)
      (outgoing : p.toListener = []) (incoming : p.toServer = []) (idle : p.awaiting = false)
  | answered {date : CString} {st : P2pStatus} (server : ServerWaits socks.fd p.serverOps)
      (listener : ListenerWaits socks.s p.listenerOps)
      (answer : st = .pong ∨ st = .askIfBlockReady) (outgoing : p.toListener = [])
      (incoming : p.toServer = [p2pSendStatus codec date st]) (idle : p.awaiting = false)
  | asked {date : CString} {st : P2pStatus} {res : BitVec 32}
      (arrived : p.serverOps = [.posted ⟨P2pEventLoop.makeRequestData socks.fd .flagTestResponse,
        res, p2pSendStatus codec date st⟩]) (positive : 0 < res.toInt)
      (listener : ListenerWaits socks.s p.listenerOps)
      (answer : st = .pong ∨ st = .askIfBlockReady) (outgoing : p.toListener = [])
      (incoming : p.toServer = []) (idle : p.awaiting = false)
  | blockSent (server : SendsBlock socks.fd p.serverOps)
      (listener : ListenerWaits socks.s p.listenerOps)
      (outgoing : p.toListener = [p2pSerializeBlockToSock codec block])
      (incoming : p.toServer = [])
  | finishSent {date : CString} (server : ServerWaits socks.fd p.serverOps)
      (listener : ListenerWaits socks.s p.listenerOps)
      (outgoing : p.toListener =
        [p2pSerializeBlockToSock codec block, p2pSendStatus codec date .finish])
      (incoming : p.toServer = [])
  | taken (server : SendsBlock socks.fd p.serverOps ∨ ServerWaits socks.fd p.serverOps)
      (listener : p.listenerOps = [] ∨
        ∃ cqe, p.listenerOps = [.posted cqe] ∧ Silent codec socks.s cqe)
      (incoming : p.toServer = []) (idle : p.awaiting = false)

section Frames
variable {codec} {block : Block} {date : CString}

/-- The finish run together with the block hides it. -/
theorem deserializeStatus_block_finish :
    p2pDeserializeStatus codec
      (p2pSerializeBlockToSock codec block ++ p2pSendStatus codec date .finish) = some .finish := by
  obtain ⟨m, hm, hblock⟩ : ∃ m : P2pIpcMessage, m.statusCode.Named ∧
      p2pSerializeBlockToSock codec block = codec.pack m := ⟨_, by intro n; simp, rfl⟩
  have hfinish : (statusMessage date .finish).statusCode.Named := by
    intro n
    simp [statusMessage]
  have h := codec.unpack_packs m [statusMessage date .finish]
    (List.forall_mem_cons.mpr ⟨hm, by simpa using hfinish⟩)
  simp only [List.flatMap_cons, List.flatMap_nil, List.append_nil] at h
  rw [p2pDeserializeStatus_eq, hblock, p2pSendStatus, h]
  rfl

end Frames

section Waiting
variable {codec} {fd s : Fd} {ops l₁ l₂ : List Op} {sqe : Sqe} {cqe : Cqe}
  {frames rest : List (List UInt8)} {date : CString}

theorem ServerWaits.post (h : ServerWaits fd ops) (hops : ops = l₁ ++ .pending sqe :: l₂)
    (hc : Completes frames sqe cqe rest) :
    (ServerWaits fd (l₁ ++ .posted cqe :: l₂) ∧ rest = frames) ∨
      ∃ gs res, l₁ ++ .posted cqe :: l₂ =
        [.posted ⟨P2pEventLoop.makeRequestData fd .flagTestResponse, res, gs.flatten⟩] ∧
        frames = gs ++ rest ∧ gs ≠ [] ∧ res.toInt = gs.flatten.length := by
  cases h with
  | sending hflag =>
    obtain ⟨rfl, heq, rfl⟩ := singleton_split hops
    cases heq
    cases hc
    exact .inl ⟨.sent hflag, rfl⟩
  | sent => cases (singleton_split hops).2.1
  | receiving =>
    obtain ⟨rfl, heq, rfl⟩ := singleton_split hops
    cases heq
    cases hc with
    | received next hne fits hres => exact .inr ⟨_, _, rfl, next, hne, hres⟩

/-- With nothing under way to it, the server cannot receive. -/
theorem ServerWaits.post_nil (h : ServerWaits fd ops) (hops : ops = l₁ ++ .pending sqe :: l₂)
    (hc : Completes [] sqe cqe rest) :
    ServerWaits fd (l₁ ++ .posted cqe :: l₂) ∧ rest = [] := by
  rcases h.post hops hc with hsent | ⟨gs, res, -, hgs, hne, -⟩
  · exact hsent
  · exact absurd (List.append_eq_nil_iff.mp hgs.symm).1 hne

theorem ServerWaits.turn (hfd : fd.msb = false) {sh : Shared} {effects : List P2pEffect}
    (h : ServerWaits fd ops) (hops : ops = l₁ ++ .posted cqe :: l₂)
    (turn : eventLoopP2pStep codec date sh cqe = some effects) :
    l₁ ++ l₂ = [] ∧ effects = p2pReadStatusResponse fd := by
  cases h with
  | sending => cases (singleton_split hops).2.1
  | receiving => cases (singleton_split hops).2.1
  | sent hflag =>
    obtain ⟨rfl, heq, rfl⟩ := singleton_split hops
    cases heq
    rcases hflag with rfl | rfl
    · rw [step_waitPong hfd, Option.some.injEq] at turn
      exact ⟨rfl, turn.symm⟩
    · rw [P2pEventLoop.step_readResponse hfd, Option.some.injEq] at turn
      exact ⟨rfl, turn.symm⟩

theorem SendsBlock.post (h : SendsBlock fd ops) (hops : ops = l₁ ++ .pending sqe :: l₂)
    (hc : Completes frames sqe cqe rest) :
    SendsBlock fd (l₁ ++ .posted cqe :: l₂) ∧ rest = frames := by
  cases h with
  | sending =>
    obtain ⟨rfl, heq, rfl⟩ := singleton_split hops
    cases heq
    cases hc
    exact ⟨.sent, rfl⟩
  | sent => cases (singleton_split hops).2.1

theorem SendsBlock.turn (hfd : fd.msb = false) {sh : Shared} {effects : List P2pEffect}
    (h : SendsBlock fd ops) (hops : ops = l₁ ++ .posted cqe :: l₂)
    (turn : eventLoopP2pStep codec date sh cqe = some effects) :
    l₁ ++ l₂ = [] ∧ effects = p2pserSendStatus codec date fd .finish .flagWaitPong := by
  cases h with
  | sending => cases (singleton_split hops).2.1
  | sent =>
    obtain ⟨rfl, heq, rfl⟩ := singleton_split hops
    cases heq
    rw [step_blockSended hfd, Option.some.injEq] at turn
    exact ⟨rfl, turn.symm⟩

theorem ListenerWaits.post (h : ListenerWaits s ops) (hops : ops = l₁ ++ .pending sqe :: l₂)
    (hc : Completes frames sqe cqe rest) :
    (isRecv sqe = false ∧ ListenerWaits s (l₁ ++ .posted cqe :: l₂) ∧ rest = frames) ∨
      ∃ gs res, isRecv sqe = true ∧ l₁ ++ .posted cqe :: l₂ =
        [.posted ⟨P2pListen.makeRequestData s .processResponse, res, gs.flatten⟩] ∧
        frames = gs ++ rest ∧ gs ≠ [] := by
  cases h with
  | sending =>
    obtain ⟨rfl, heq, rfl⟩ := singleton_split hops
    cases heq
    cases hc
    exact .inl ⟨rfl, .sent, rfl⟩
  | sent => cases (singleton_split hops).2.1
  | receiving =>
    obtain ⟨rfl, heq, rfl⟩ := singleton_split hops
    cases heq
    cases hc with
    | received next hne fits hres => exact .inr ⟨_, _, rfl, rfl, next, hne⟩

theorem ListenerWaits.turn (hs : s.msb = false) {behind : ℕ → UInt8} {l l' : Listener}
    {sqes : List Sqe} (h : ListenerWaits s ops) (hops : ops = l₁ ++ .posted cqe :: l₂)
    (turn : setupP2pListeningStep codec date behind s cqe l = some (l', sqes)) :
    l₁ ++ l₂ = [] ∧ sqes = [clP2pReadStatusResponse s .processResponse] := by
  cases h with
  | sending => cases (singleton_split hops).2.1
  | receiving => cases (singleton_split hops).2.1
  | sent =>
    obtain ⟨rfl, heq, rfl⟩ := singleton_split hops
    cases heq
    rw [P2pListen.step_readResponse hs, Option.some.injEq, Prod.mk.injEq] at turn
    exact ⟨rfl, turn.2.symm⟩

/-- With nothing under way to it, the listener cannot receive. -/
theorem ListenerWaits.post_nil (h : ListenerWaits s ops) (hops : ops = l₁ ++ .pending sqe :: l₂)
    (hc : Completes [] sqe cqe rest) :
    ListenerWaits s (l₁ ++ .posted cqe :: l₂) ∧ rest = [] := by
  rcases h.post hops hc with ⟨-, hsent⟩ | ⟨gs, res, -, -, hgs, hne⟩
  · exact hsent
  · exact absurd (List.append_eq_nil_iff.mp hgs.symm).1 hne

theorem Starts.post (h : Starts ops) (hops : ops = l₁ ++ .pending sqe :: l₂)
    (hc : Completes frames sqe cqe rest) :
    ops = [.pending (.unprepared 0)] ∧ l₁ ++ .posted cqe :: l₂ = [.posted ⟨0, 0, []⟩] := by
  cases h with
  | submitted =>
    obtain ⟨rfl, heq, rfl⟩ := singleton_split hops
    cases heq
    cases hc
    exact ⟨rfl, rfl⟩
  | completed => cases (singleton_split hops).2.1
  | started => simp at hops

theorem Starts.turn {behind : ℕ → UInt8} {l l' : Listener} {sqes : List Sqe} (h : Starts ops)
    (hops : ops = l₁ ++ .posted cqe :: l₂)
    (turn : setupP2pListeningStep codec date behind s cqe l = some (l', sqes)) :
    ops = [.posted ⟨0, 0, []⟩] ∧ l₁ ++ l₂ = [] ∧ l' = l ∧ sqes = [] := by
  cases h with
  | submitted => cases (singleton_split hops).2.1
  | completed =>
    obtain ⟨rfl, heq, rfl⟩ := singleton_split hops
    cases heq
    rw [step_zeroed, Option.some.injEq, Prod.mk.injEq] at turn
    exact ⟨rfl, rfl, turn.1.symm, turn.2.symm⟩
  | started => simp at hops

theorem silent_of_status (hs : s.msb = false) {st : P2pStatus} {data : List UInt8}
    (res : BitVec 32) (hdata : p2pDeserializeStatus codec data = some st)
    (hst : st = .block ∨ st = .finish) :
    Silent codec s ⟨P2pListen.makeRequestData s .processResponse, res, data⟩ := by
  intro date behind l l' sqes turn
  rw [step_processResponse hs, hdata, Option.bind_some] at turn
  rcases hst with rfl | rfl
  · obtain ⟨b, -, hb⟩ := Option.bind_eq_some_iff.mp turn
    exact (Prod.mk.inj (Option.some.inj hb)).2.symm
  · exact (Prod.mk.inj (Option.some.inj turn)).2.symm

end Waiting

section Steps
variable {codec} {block : Block} {socks : Sockets} {p p' : Pair} {l₁ l₂ : List Op} {sqe : Sqe}
  {cqe : Cqe} {rest : List (List UInt8)} {date : CString}

theorem exchange_serverPost (h : Exchange codec block socks p)
    (hops : p.serverOps = l₁ ++ .pending sqe :: l₂) (hc : Completes p.toServer sqe cqe rest) :
    Exchange codec block socks
      { p with serverOps := l₁ ++ .posted cqe :: l₂, toServer := rest } := by
  cases h with
  | offered server listener offer outgoing incoming idle =>
    rw [incoming] at hc
    obtain ⟨hserver, hrest⟩ := server.post_nil hops hc
    exact .offered hserver listener offer outgoing hrest idle
  | read server arrived offer outgoing incoming idle =>
    rw [incoming] at hc
    obtain ⟨hserver, hrest⟩ := server.post_nil hops hc
    exact .read hserver arrived offer outgoing hrest idle
  | answered server listener answer outgoing incoming idle =>
    rw [incoming] at hc
    rcases server.post hops hc with ⟨hserver, hrest⟩ | ⟨gs, res, harrived, hgs, hne, hres⟩
    · exact .answered hserver listener answer outgoing hrest idle
    · obtain ⟨rfl, rfl⟩ := singleton_front hgs hne
      rw [List.flatten_singleton] at harrived hres
      have hpos : 0 < res.toInt := by
        rw [hres]
        exact_mod_cast List.length_pos_of_ne_nil (codec.pack_ne_nil _)
      exact .asked harrived hpos listener answer outgoing rfl idle
  | asked arrived positive listener answer outgoing incoming idle =>
    rw [arrived] at hops
    cases (singleton_split hops).2.1
  | blockSent server listener outgoing incoming =>
    rw [incoming] at hc
    obtain ⟨hserver, hrest⟩ := server.post hops hc
    exact .blockSent hserver listener outgoing hrest
  | finishSent server listener outgoing incoming =>
    rw [incoming] at hc
    obtain ⟨hserver, hrest⟩ := server.post_nil hops hc
    exact .finishSent hserver listener outgoing hrest
  | taken server listener incoming idle =>
    rw [incoming] at hc
    rcases server with server | server
    · obtain ⟨hserver, hrest⟩ := server.post hops hc
      exact .taken (.inl hserver) listener hrest idle
    · obtain ⟨hserver, hrest⟩ := server.post_nil hops hc
      exact .taken (.inr hserver) listener hrest idle

/-- The server answers what it has been asked with a status, or with the block. -/
theorem exchange_handleStatus {st : P2pStatus} {sh : Shared}
    (ready : sh.mtxHeld = true ∨ Published codec block sh)
    (hst : st = .pong ∨ st = .askIfBlockReady) (hops : p.serverOps = [])
    (listener : ListenerWaits socks.s p.listenerOps) (outgoing : p.toListener = [])
    (incoming : p.toServer = []) (idle : p.awaiting = false) :
    Exchange codec block socks
      ((handleStatus codec date sh (!sh.mtxHeld) socks.fd st).foldl serve p) := by
  have hstatus : ∀ st, st = P2pStatus.ping ∨ st = .ok ∨ st = .blockNotReady →
      Exchange codec block socks
        ((p2pserSendStatus codec date socks.fd st .flagReadResponse).foldl serve p) := by
    intro st hoffer
    simp only [p2pserSendStatus, List.foldl_cons, List.foldl_nil, serve, hops, outgoing,
      List.nil_append]
    exact .offered (.sending (.inr rfl)) listener hoffer rfl incoming idle
  rcases hst with rfl | rfl
  · exact hstatus .ok (by simp)
  · rcases ready with held | published
    · rw [handleStatus, held]
      exact hstatus .blockNotReady (by simp)
    · simp only [handleStatus, published.free, Bool.not_false, if_true, p2pserSendBlock,
        published.data, List.foldl_cons, List.foldl_nil, serve, hops, outgoing, List.nil_append]
      exact .blockSent .sending listener rfl incoming

theorem exchange_serverTurn {sh : Shared} {effects : List P2pEffect}
    (ready : sh.mtxHeld = true ∨ Published codec block sh) (h : Exchange codec block socks p)
    (hops : p.serverOps = l₁ ++ .posted cqe :: l₂)
    (turn : eventLoopP2pStep codec date sh cqe = some effects) :
    Exchange codec block socks (effects.foldl serve { p with serverOps := l₁ ++ l₂ }) := by
  cases h with
  | offered server listener offer outgoing incoming idle =>
    obtain ⟨hnil, rfl⟩ := server.turn socks.fd_sign hops turn
    rw [hnil]
    exact .offered .receiving listener offer outgoing incoming idle
  | read server arrived offer outgoing incoming idle =>
    obtain ⟨hnil, rfl⟩ := server.turn socks.fd_sign hops turn
    rw [hnil]
    exact .read .receiving arrived offer outgoing incoming idle
  | answered server listener answer outgoing incoming idle =>
    obtain ⟨hnil, rfl⟩ := server.turn socks.fd_sign hops turn
    rw [hnil]
    exact .answered .receiving listener answer outgoing incoming idle
  | @asked _ st res arrived positive listener answer outgoing incoming idle =>
    rw [arrived] at hops
    obtain ⟨rfl, heq, rfl⟩ := singleton_split hops
    cases heq
    have hnamed : st.Named := by rcases answer with rfl | rfl <;> intro n <;> simp
    rw [step_testResponse socks.fd_sign, if_pos positive, deserializeStatus_sendStatus hnamed,
      Option.map_some, Option.some.injEq] at turn
    subst turn
    exact exchange_handleStatus ready answer rfl listener outgoing incoming idle
  | blockSent server listener outgoing incoming =>
    obtain ⟨hnil, rfl⟩ := server.turn socks.fd_sign hops turn
    simp only [p2pserSendStatus, List.foldl_cons, List.foldl_nil, serve, hnil, outgoing,
      List.nil_append, List.singleton_append]
    exact .finishSent (.sending (.inl rfl)) listener rfl incoming
  | finishSent server listener outgoing incoming =>
    obtain ⟨hnil, rfl⟩ := server.turn socks.fd_sign hops turn
    rw [hnil]
    exact .finishSent .receiving listener outgoing incoming
  | taken server listener incoming idle =>
    rcases server with server | server
    · obtain ⟨hnil, rfl⟩ := server.turn socks.fd_sign hops turn
      rw [hnil]
      exact .taken (.inr (.sending (.inl rfl))) listener incoming idle
    · obtain ⟨hnil, rfl⟩ := server.turn socks.fd_sign hops turn
      rw [hnil]
      exact .taken (.inr .receiving) listener incoming idle

/-- What a receive returns once the block is sent: the block, alone or with the finish
behind it. -/
theorem front_of_block {gs : List (List UInt8)}
    (hgs : [p2pSerializeBlockToSock codec block, p2pSendStatus codec date .finish] = gs ++ rest)
    (hne : gs ≠ []) :
    gs = [p2pSerializeBlockToSock codec block] ∨
      gs = [p2pSerializeBlockToSock codec block, p2pSendStatus codec date .finish] := by
  obtain ⟨g, gs, rfl⟩ := List.exists_cons_of_ne_nil hne
  rw [List.cons_append, List.cons.injEq] at hgs
  obtain ⟨rfl, hgs⟩ := hgs
  cases gs with
  | nil => exact .inl rfl
  | cons f gs =>
    obtain ⟨hf, -⟩ := singleton_front hgs (List.cons_ne_nil f gs)
    rw [hf]
    exact .inr rfl

theorem exchange_listenerPost (h : Exchange codec block socks p)
    (hops : p.listenerOps = l₁ ++ .pending sqe :: l₂) (hc : Completes p.toListener sqe cqe rest) :
    Exchange codec block socks { p with
      listenerOps := l₁ ++ .posted cqe :: l₂
      toListener := rest
      awaiting := p.awaiting && !isRecv sqe } := by
  have hidle : p.awaiting = false → (p.awaiting && !isRecv sqe) = false := by
    intro idle
    rw [idle, Bool.false_and]
  have hreceived : isRecv sqe = true → (p.awaiting && !isRecv sqe) = false := by
    intro recv
    rw [recv, Bool.not_true, Bool.and_false]
  cases h with
  | offered server listener offer outgoing incoming idle =>
    rw [outgoing] at hc
    rcases listener.post hops hc with ⟨-, hlistener, hrest⟩ | ⟨gs, res, -, harrived, hgs, hne⟩
    · exact .offered server hlistener offer hrest incoming (hidle idle)
    · obtain ⟨rfl, rfl⟩ := singleton_front hgs hne
      rw [List.flatten_singleton] at harrived
      exact .read server harrived offer rfl incoming (hidle idle)
  | read server arrived offer outgoing incoming idle =>
    rw [arrived] at hops
    cases (singleton_split hops).2.1
  | answered server listener answer outgoing incoming idle =>
    rw [outgoing] at hc
    obtain ⟨hlistener, hrest⟩ := listener.post_nil hops hc
    exact .answered server hlistener answer hrest incoming (hidle idle)
  | asked arrived positive listener answer outgoing incoming idle =>
    rw [outgoing] at hc
    obtain ⟨hlistener, hrest⟩ := listener.post_nil hops hc
    exact .asked arrived positive hlistener answer hrest incoming (hidle idle)
  | blockSent server listener outgoing incoming =>
    rw [outgoing] at hc
    rcases listener.post hops hc with ⟨-, hlistener, hrest⟩ | ⟨gs, res, recv, harrived, hgs, hne⟩
    · exact .blockSent server hlistener hrest incoming
    · obtain ⟨rfl, rfl⟩ := singleton_front hgs hne
      rw [List.flatten_singleton] at harrived
      have hsilent := silent_of_status socks.s_sign res
        (@deserializeStatus_block codec block) (.inl rfl)
      exact .taken (.inl server) (.inr ⟨_, harrived, hsilent⟩) incoming (hreceived recv)
  | @finishSent date server listener outgoing incoming =>
    rw [outgoing] at hc
    rcases listener.post hops hc with ⟨-, hlistener, hrest⟩ | ⟨gs, res, recv, harrived, hgs, hne⟩
    · exact .finishSent server hlistener hrest incoming
    · rcases front_of_block hgs hne with rfl | rfl
      · rw [List.flatten_singleton] at harrived
        have hsilent := silent_of_status socks.s_sign res
          (@deserializeStatus_block codec block) (.inl rfl)
        exact .taken (.inr server) (.inr ⟨_, harrived, hsilent⟩) incoming (hreceived recv)
      · rw [List.flatten_cons, List.flatten_singleton] at harrived
        have hsilent := silent_of_status socks.s_sign res
          (@deserializeStatus_block_finish codec block date) (.inr rfl)
        exact .taken (.inr server) (.inr ⟨_, harrived, hsilent⟩) incoming (hreceived recv)
  | taken server listener incoming idle =>
    rcases listener with hnil | ⟨cqe, hposted, -⟩
    · simp [hnil] at hops
    · rw [hposted] at hops
      cases (singleton_split hops).2.1

/-- The listener answers every offer. -/
theorem exchange_processResponse {behind : ℕ → UInt8} {buffer : List UInt8} {l : Listener}
    {sqes : List Sqe} {st : P2pStatus} (hst : st = .ping ∨ st = .ok ∨ st = .blockNotReady)
    (hops : p.listenerOps = []) (server : ServerWaits socks.fd p.serverOps)
    (outgoing : p.toListener = []) (incoming : p.toServer = []) (idle : p.awaiting = false)
    (turn : processResponse codec date behind socks.s buffer p.listener st = some (l, sqes)) :
    Exchange codec block socks (sqes.foldl request { p with listener := l }) := by
  have hanswer : ∀ st, st = P2pStatus.pong ∨ st = .askIfBlockReady →
      Exchange codec block socks
        ([clP2pSendStatus codec date socks.s st .readResponse].foldl request
          { p with listener := l }) := by
    intro st hanswer
    simp only [clP2pSendStatus, List.foldl_cons, List.foldl_nil, request, hops, incoming,
      List.nil_append]
    exact .answered server .sending hanswer outgoing rfl idle
  rcases hst with rfl | rfl | rfl
  · obtain ⟨rfl, rfl⟩ := Prod.mk.inj (Option.some.inj turn)
    exact hanswer .pong (by simp)
  · obtain ⟨rfl, rfl⟩ := Prod.mk.inj (Option.some.inj turn)
    exact hanswer .askIfBlockReady (by simp)
  · rw [processResponse] at turn
    split at turn
    · obtain ⟨rfl, rfl⟩ := Prod.mk.inj (Option.some.inj turn)
      exact hanswer .askIfBlockReady (by simp)
    · obtain ⟨rfl, rfl⟩ := Prod.mk.inj (Option.some.inj turn)
      exact hanswer .askIfBlockReady (by simp)

theorem exchange_listenerTurn {behind : ℕ → UInt8} {l : Listener} {sqes : List Sqe}
    (h : Exchange codec block socks p) (hops : p.listenerOps = l₁ ++ .posted cqe :: l₂)
    (turn : setupP2pListeningStep codec date behind socks.s cqe p.listener = some (l, sqes)) :
    Exchange codec block socks
      (sqes.foldl request { p with listener := l, listenerOps := l₁ ++ l₂ }) := by
  cases h with
  | offered server listener offer outgoing incoming idle =>
    obtain ⟨hnil, rfl⟩ := listener.turn socks.s_sign hops turn
    rw [hnil]
    exact .offered server .receiving offer outgoing incoming idle
  | @read _ st _ server arrived offer outgoing incoming idle =>
    rw [arrived] at hops
    obtain ⟨rfl, heq, rfl⟩ := singleton_split hops
    cases heq
    have hnamed : st.Named := by rcases offer with rfl | rfl | rfl <;> intro n <;> simp
    rw [step_processResponse socks.s_sign, deserializeStatus_sendStatus hnamed,
      Option.bind_some] at turn
    exact exchange_processResponse (p := { p with listenerOps := [] }) offer rfl server outgoing
      incoming idle turn
  | answered server listener answer outgoing incoming idle =>
    obtain ⟨hnil, rfl⟩ := listener.turn socks.s_sign hops turn
    rw [hnil]
    exact .answered server .receiving answer outgoing incoming idle
  | asked arrived positive listener answer outgoing incoming idle =>
    obtain ⟨hnil, rfl⟩ := listener.turn socks.s_sign hops turn
    rw [hnil]
    exact .asked arrived positive .receiving answer outgoing incoming idle
  | blockSent server listener outgoing incoming =>
    obtain ⟨hnil, rfl⟩ := listener.turn socks.s_sign hops turn
    rw [hnil]
    exact .blockSent server .receiving outgoing incoming
  | finishSent server listener outgoing incoming =>
    obtain ⟨hnil, rfl⟩ := listener.turn socks.s_sign hops turn
    rw [hnil]
    exact .finishSent server .receiving outgoing incoming
  | taken server listener incoming idle =>
    rcases listener with hnil | ⟨cqe, hposted, silent⟩
    · simp [hnil] at hops
    · rw [hposted] at hops
      obtain ⟨rfl, heq, rfl⟩ := singleton_split hops
      cases heq
      obtain rfl := silent _ _ _ _ _ turn
      exact .taken server (.inl rfl) incoming idle

/-- The zeroed entry takes no part in the exchange. -/
theorem Exchange.of_start (h : Exchange codec block socks p) (ops : List Op) :
    Exchange codec block socks { p with startOps := ops } := by
  cases h with
  | offered server listener offer outgoing incoming idle =>
    exact .offered server listener offer outgoing incoming idle
  | read server arrived offer outgoing incoming idle =>
    exact .read server arrived offer outgoing incoming idle
  | answered server listener answer outgoing incoming idle =>
    exact .answered server listener answer outgoing incoming idle
  | asked arrived positive listener answer outgoing incoming idle =>
    exact .asked arrived positive listener answer outgoing incoming idle
  | blockSent server listener outgoing incoming =>
    exact .blockSent server listener outgoing incoming
  | finishSent server listener outgoing incoming =>
    exact .finishSent server listener outgoing incoming
  | taken server listener incoming idle => exact .taken server listener incoming idle

theorem foldl_serve (effects : List P2pEffect) : ∀ p : Pair,
    (effects.foldl serve p).listener = p.listener ∧
      (effects.foldl serve p).startOps = p.startOps ∧
      (effects.foldl serve p).listenerOps = p.listenerOps := by
  induction effects with
  | nil => exact fun _ => ⟨rfl, rfl, rfl⟩
  | cons e effects ih =>
    intro p
    rw [List.foldl_cons, (ih _).1, (ih _).2.1, (ih _).2.2]
    unfold serve
    split <;> exact ⟨rfl, rfl, rfl⟩

theorem foldl_request (sqes : List Sqe) (hsqes : ∀ d, .unprepared d ∉ sqes) : ∀ p : Pair,
    (sqes.foldl request p).listener = p.listener ∧
      (sqes.foldl request p).startOps = p.startOps ∧
      ∀ cqe, .posted cqe ∈ (sqes.foldl request p).listenerOps → .posted cqe ∈ p.listenerOps := by
  induction sqes with
  | nil => exact fun _ => ⟨rfl, rfl, fun _ h => h⟩
  | cons sqe sqes ih =>
    intro p
    have hrest := ih (fun d hd => hsqes d (List.mem_cons_of_mem _ hd)) (request p sqe)
    have hone : (request p sqe).listener = p.listener ∧ (request p sqe).startOps = p.startOps ∧
        (request p sqe).listenerOps = p.listenerOps ++ [.pending sqe] := by
      cases sqe with
      | unprepared d => exact absurd List.mem_cons_self (hsqes d)
      | _ => exact ⟨rfl, rfl, rfl⟩
    refine ⟨hrest.1.trans hone.1, hrest.2.1.trans hone.2.1, fun cqe hmem => ?_⟩
    have hbefore := hrest.2.2 cqe hmem
    rw [hone.2.2] at hbefore
    simpa using hbefore

theorem exchange_initial : Exchange codec block socks (initial codec date socks.fd socks.s) :=
  .offered (.sending (.inl rfl)) .receiving (.inl rfl) rfl rfl rfl

theorem starts_initial : Starts (initial codec date socks.fd socks.s).startOps := .submitted

theorem step_starts (h : Starts p.startOps) (hstep : Step codec block socks.s p p') :
    Starts p'.startOps := by
  cases hstep with
  | serverPost outstanding completes => exact h
  | serverTurn date sh ready waiting turn =>
    rw [(foldl_serve _ _).2.1]
    exact h
  | listenerPost outstanding completes => exact h
  | startPost outstanding completes =>
    rw [(h.post outstanding completes).2]
    exact .completed
  | startTurn date behind waiting turn =>
    obtain ⟨-, hnil, -, rfl⟩ := h.turn waiting turn
    rw [List.foldl_nil, hnil]
    exact .started
  | listenerTurn date behind started waiting turn =>
    rw [(foldl_request _ (step_prepares turn) _).2.1]
    exact h

theorem step_exchange (starts : Starts p.startOps) (h : Exchange codec block socks p)
    (hstep : Step codec block socks.s p p') : Exchange codec block socks p' := by
  cases hstep with
  | serverPost outstanding completes => exact exchange_serverPost h outstanding completes
  | serverTurn date sh ready waiting turn => exact exchange_serverTurn ready h waiting turn
  | listenerPost outstanding completes => exact exchange_listenerPost h outstanding completes
  | startPost outstanding completes => exact h.of_start _
  | startTurn date behind waiting turn =>
    obtain ⟨-, -, rfl, rfl⟩ := starts.turn waiting turn
    exact h.of_start _
  | listenerTurn date behind started waiting turn => exact exchange_listenerTurn h waiting turn

theorem reaches_starts (h : Reaches codec block socks p) : Starts p.startOps := by
  obtain ⟨date, hrun⟩ := h
  induction hrun with
  | refl => exact starts_initial
  | tail _ hstep ih => exact step_starts ih hstep

theorem reaches_exchange (h : Reaches codec block socks p) : Exchange codec block socks p := by
  obtain ⟨date, hrun⟩ := h
  induction hrun with
  | refl => exact exchange_initial
  | tail hbefore hstep ih => exact step_exchange (reaches_starts ⟨date, hbefore⟩) ih hstep

end Steps

end CBlockchain.P2pExchange
