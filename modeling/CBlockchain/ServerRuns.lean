import CBlockchain.EventLoop

/-! The message server with arbitrary clients. Any outstanding request may complete next,
with any result and any received bytes; an accept may return any socket number that is
not open. Connections are numbered in the order their accept completed, also when the
accept failed, and every request remembers the connection it acts for. -/
namespace CBlockchain.ServerRuns
open ConnectionHandlers DataHandlers EventLoop RequestData Serdes
variable (pf : Platform)

/-- The result of one accept; a failed one is never open. -/
structure Conn where
  fd : Fd
  isOpen : Bool
  deriving DecidableEq

structure Request where
  conn : Option ℕ
  sqe : Sqe

/-- One call of `shutdown` and `close`: the connection whose completion was handled, the
socket passed, and the connection that socket belonged to. -/
structure CloseRecord where
  finisher : Option ℕ
  socket : Fd
  victim : Option ℕ

/-- The server, the kernel's view of its sockets and requests, and the history. -/
structure System where
  server : Server
  conns : List Conn
  requests : Multiset Request
  served : List (Option ℕ × ℕ)
  finished : List (Option ℕ)
  closes : List CloseRecord

def ownerOf (conns : List Conn) (fd : Fd) : Option ℕ := conns.findIdx? (· == ⟨fd, true⟩)

def closeConn (conns : List Conn) (fd : Fd) : List Conn :=
  match ownerOf conns fd with
  | none => conns
  | some v => conns.set v ⟨fd, false⟩

/-- A send or receive acts for the connection its socket number stands for when it is
submitted, the request of `FINISH_SENDING` for the client being handled. -/
def connOf (conns : List Conn) (handled : Option ℕ) : Sqe → Option ℕ
  | .accept _ => none
  | .send fd _ _ => ownerOf conns fd
  | .recv fd _ => ownerOf conns fd
  | .unprepared _ => handled

/-- Carry out one effect of handling a completion of connection `handled`. -/
def perform (handled : Option ℕ) (sys : System) : Effect → System
  | .submit sqe => { sys with requests := ⟨connOf sys.conns handled sqe, sqe⟩ ::ₘ sys.requests }
  | .serve fd slot _ => { sys with served := sys.served ++ [(ownerOf sys.conns fd, slot)] }
  | .merkleRoot _ _ => { sys with finished := sys.finished ++ [handled] }
  | .shutdownClose fd => { sys with
      conns := closeConn sys.conns fd
      closes := sys.closes ++ [⟨handled, fd, ownerOf sys.conns fd⟩] }

/-- What the machine supplies with a completion. -/
structure Outcome where
  stamp : Stamp
  res : BitVec 32
  data : List UInt8

def isAccept : Sqe → Bool
  | .accept _ => true
  | _ => false

def isRecv : Sqe → Bool
  | .recv _ _ => true
  | _ => false

/-- The loop takes the completion of one outstanding request `r`. An accept that succeeds
returns a number no open connection has; a receive that succeeds returns its byte count. -/
inductive Turn : System → Request → System → Prop
  | accepted {sys : System} {r : Request} {rest : Multiset Request} {server : Server}
      {effects : List Effect} (o : Outcome) (pending : sys.requests = r ::ₘ rest)
      (accept : isAccept r.sqe = true) (unused : ownerOf sys.conns o.res = none)
      (step : eventLoopStep pf o.stamp ⟨r.sqe.userData, o.res, o.data⟩ sys.server =
        some (server, effects)) :
      Turn sys r (effects.foldl (perform (some sys.conns.length))
        { sys with server, conns := sys.conns ++ [⟨o.res, !o.res.msb⟩], requests := rest })
  | completed {sys : System} {r : Request} {rest : Multiset Request} {server : Server}
      {effects : List Effect} (o : Outcome) (pending : sys.requests = r ::ₘ rest)
      (accept : isAccept r.sqe = false)
      (count : isRecv r.sqe = true → 0 < o.res.toInt → (o.data.length : ℤ) = o.res.toInt)
      (step : eventLoopStep pf o.stamp ⟨r.sqe.userData, o.res, o.data⟩ sys.server =
        some (server, effects)) :
      Turn sys r (effects.foldl (perform r.conn) { sys with server, requests := rest })

def initial : Option System := do
  let (server, effects) ← eventLoopStart pf
  some (effects.foldl (perform none) ⟨server, [], 0, [], [], []⟩)

/-- A run in which every turn meets `P`, a condition on the state and the completed request. -/
def Runs (P : System → Request → Prop) (sys : System) : Prop :=
  ∃ start, initial pf = some start ∧
    Relation.ReflTransGen (fun a b => ∃ r, P a r ∧ Turn pf a r b) start sys

/-- The closing turn belongs to the connection accepted last: no accept, successful or
not, has completed since its own. -/
def ClosesLastAccepted (sys : System) (r : Request) : Prop :=
  ∀ d, r.sqe = .unprepared d → ∃ c, r.conn = some c ∧ c + 1 = sys.conns.length

section Owner
variable {conns : List Conn} {fd : Fd} {c : ℕ}

theorem ownerOf_eq_none : ownerOf conns fd = none ↔ ∀ d : ℕ, conns[d]? ≠ some ⟨fd, true⟩ := by
  rw [ownerOf, List.findIdx?_eq_none_iff]
  constructor
  · intro h d hd
    simpa using h _ (List.mem_of_getElem? hd)
  · intro h x hx
    obtain ⟨d, hd⟩ := List.mem_iff_getElem?.mp hx
    rw [beq_eq_false_iff_ne]
    exact fun he => h d (he ▸ hd)

theorem getElem?_of_ownerOf (h : ownerOf conns fd = some c) : conns[c]? = some ⟨fd, true⟩ := by
  rw [ownerOf, List.findIdx?_eq_some_iff_getElem] at h
  obtain ⟨hlt, heq, -⟩ := h
  rw [List.getElem?_eq_getElem hlt, eq_of_beq heq]

def DistinctFds (conns : List Conn) : Prop :=
  ∀ (c d : ℕ) (fd : Fd), conns[c]? = some ⟨fd, true⟩ → conns[d]? = some ⟨fd, true⟩ → c = d

theorem ownerOf_eq_some (hd : DistinctFds conns) (h : conns[c]? = some ⟨fd, true⟩) :
    ownerOf conns fd = some c := by
  cases ho : ownerOf conns fd with
  | none => exact absurd h (ownerOf_eq_none.mp ho c)
  | some d => rw [hd c d fd h (getElem?_of_ownerOf ho)]

end Owner

/-- Slots served on connection `c`, in order. -/
def slotsOf (sys : System) (c : ℕ) : List ℕ :=
  (sys.served.filter fun e => e.1 = some c).map Prod.snd

/-- Connection `c` is open on `fd`, and its counter is the number of slots served on it. -/
structure Counted (sys : System) (c : ℕ) (fd : Fd) : Prop where
  isOpen : sys.conns[c]? = some ⟨fd, true⟩
  counter : sys.server.befferSendedN fd = (slotsOf sys c).length

/-- The requests that occur: their tags, and the connections they act for. -/
inductive RequestOk (sys : System) : Request → Prop
  | accept : RequestOk sys ⟨none, .accept (makeRequestData 0 .flagAccept)⟩
  | ignored {fd : Fd} {data : List UInt8} (hfd : fd.msb = true) :
      RequestOk sys ⟨none, .send fd data (makeRequestData fd .readResponse)⟩
  | send {c : ℕ} {fd : Fd} {data : List UInt8} (h : Counted sys c fd) :
      RequestOk sys ⟨some c, .send fd data (makeRequestData fd .readResponse)⟩
  | recv {c : ℕ} {fd : Fd} (h : Counted sys c fd) :
      RequestOk sys ⟨some c, .recv fd (makeRequestData fd .testResponse)⟩
  | close {c : ℕ} {fd : Fd} (h : sys.conns[c]? = some ⟨fd, true⟩) (hf : some c ∈ sys.finished) :
      RequestOk sys ⟨some c, .unprepared (makeRequestData fd .flagCloseConnection)⟩

/-- A close that did what it should: the socket was that of the connection that had
finished, and it still belonged to it. -/
def CloseRecord.Right (sys : System) (rec : CloseRecord) : Prop :=
  ∃ c, rec.finisher = some c ∧ rec.victim = some c ∧ some c ∈ sys.finished ∧
    sys.conns[c]? = some ⟨rec.socket, false⟩

/-- Every close was right, and every accepted connection that is no longer open was
closed on its own finish. -/
structure ClosesRight (sys : System) : Prop where
  right : ∀ rec ∈ sys.closes, rec.Right sys
  onlyFinished : ∀ (c : ℕ) (fd : Fd), sys.conns[c]? = some ⟨fd, false⟩ → fd.msb = false →
    ∃ rec ∈ sys.closes, rec.finisher = some c

/-- Every message went to a connection, and each connection was served slots 0, 1, 2, … -/
structure ServesInOrder (sys : System) : Prop where
  owned : ∀ e ∈ sys.served, ∃ c < sys.conns.length, e.1 = some c
  slots : ∀ c, slotsOf sys c = List.range (slotsOf sys c).length

/-- The invariant of runs in which only the connection accepted last is closed. -/
structure Orderly (sys : System) : Prop where
  current : ∀ conn, sys.conns.getLast? = some conn → conn.fd = sys.server.currentClientFd
  sign : ∀ (c : ℕ) (fd : Fd), sys.conns[c]? = some ⟨fd, true⟩ → fd.msb = false
  distinct : DistinctFds sys.conns
  later : ∀ (c d : ℕ) (fd : Fd) (conn : Conn), sys.conns[c]? = some ⟨fd, true⟩ → c < d →
    sys.conns[d]? = some conn → conn.fd ≠ fd
  requests : ∀ r ∈ sys.requests, RequestOk sys r
  single : (sys.requests.filterMap Request.conn).Nodup
  idle : ∀ fd, (∀ c : ℕ, sys.conns[c]? ≠ some ⟨fd, true⟩) → sys.server.befferSendedN fd = 0
  serves : ServesInOrder sys
  closes : ClosesRight sys

section Frames
variable {sys sys' : System} {r r' : Request} {rest : Multiset Request} {c : ℕ} {fd : Fd}

/-- A request stays in order while its own connection, its counter and its slots stay. -/
theorem RequestOk.frame (h : RequestOk sys r) (hfin : ∀ x ∈ sys.finished, x ∈ sys'.finished)
    (hconn : ∀ d fd, r.conn = some d → sys.conns[d]? = some ⟨fd, true⟩ →
      sys'.conns[d]? = some ⟨fd, true⟩ ∧
      sys'.server.befferSendedN fd = sys.server.befferSendedN fd ∧
      slotsOf sys' d = slotsOf sys d) : RequestOk sys' r := by
  cases h with
  | accept => exact .accept
  | ignored hfd => exact .ignored hfd
  | send h =>
    obtain ⟨hopen, hcount, hslots⟩ := hconn _ _ rfl h.isOpen
    exact .send ⟨hopen, by rw [hcount, hslots, h.counter]⟩
  | recv h =>
    obtain ⟨hopen, hcount, hslots⟩ := hconn _ _ rfl h.isOpen
    exact .recv ⟨hopen, by rw [hcount, hslots, h.counter]⟩
  | close h hf => exact .close (hconn _ _ rfl h).1 (hfin _ hf)

theorem RequestOk.conn_lt (h : RequestOk sys r) (hc : r.conn = some c) : c < sys.conns.length := by
  cases h with
  | accept => cases hc
  | ignored => cases hc
  | send h => exact Option.some.inj hc ▸ (List.getElem?_eq_some_iff.mp h.isOpen).1
  | recv h => exact Option.some.inj hc ▸ (List.getElem?_eq_some_iff.mp h.isOpen).1
  | close h => exact Option.some.inj hc ▸ (List.getElem?_eq_some_iff.mp h).1

theorem Orderly.rest_ne (ho : Orderly sys) (hp : sys.requests = r ::ₘ rest) (hr : r.conn = some c)
    {x : Request} (hx : x ∈ rest) : x.conn ≠ some c := by
  have hnd := ho.single
  rw [hp, Multiset.filterMap_cons_some _ _ _ hr, Multiset.nodup_cons] at hnd
  exact fun hc => hnd.1 ((Multiset.mem_filterMap _ _).mpr ⟨x, hx, hc⟩)

theorem Orderly.withRequests (ho : Orderly sys) {rs : Multiset Request}
    (hok : ∀ x ∈ rs, RequestOk sys x) (hnd : (rs.filterMap Request.conn).Nodup) :
    Orderly { sys with requests := rs } where
  current := ho.current
  sign := ho.sign
  distinct := ho.distinct
  later := ho.later
  requests := fun x hx => (hok x hx).frame (fun _ h => h) (fun _ _ _ h => ⟨h, rfl, rfl⟩)
  single := hnd
  idle := ho.idle
  serves := ⟨ho.serves.owned, ho.serves.slots⟩
  closes := ⟨ho.closes.right, ho.closes.onlyFinished⟩

theorem Orderly.dropRequest (ho : Orderly sys) (hp : sys.requests = r ::ₘ rest) :
    Orderly { sys with requests := rest } := by
  refine ho.withRequests (fun x hx => ho.requests x (hp ▸ Multiset.mem_cons_of_mem hx)) ?_
  have hnd := ho.single
  rw [hp] at hnd
  exact Multiset.nodup_of_le (Multiset.filterMap_le_filterMap _ (Multiset.le_cons_self _ _)) hnd

theorem Orderly.addRequest (ho : Orderly sys) (hok : RequestOk sys r)
    (hnew : ∀ d, r.conn = some d → ∀ x ∈ sys.requests, x.conn ≠ some d) :
    Orderly { sys with requests := r ::ₘ sys.requests } := by
  refine ho.withRequests (fun x hx => ?_) ?_
  · rcases Multiset.mem_cons.mp hx with rfl | hx
    · exact hok
    · exact ho.requests x hx
  · cases hr : r.conn with
    | none =>
      rw [Multiset.filterMap_cons_none _ _ hr]
      exact ho.single
    | some d =>
      rw [Multiset.filterMap_cons_some _ _ _ hr, Multiset.nodup_cons]
      refine ⟨fun hmem => ?_, ho.single⟩
      obtain ⟨x, hx, hxd⟩ := (Multiset.mem_filterMap _ _).mp hmem
      exact hnew d hr x hx hxd

theorem Orderly.setCounter (ho : Orderly sys) (hc : sys.conns[c]? = some ⟨fd, true⟩)
    (hno : ∀ x ∈ sys.requests, x.conn ≠ some c) (cbuf : CircBuf) (n : ℕ) :
    Orderly { sys with server := { sys.server with
      cbuf := cbuf, befferSendedN := Function.update sys.server.befferSendedN fd n } } where
  current := ho.current
  sign := ho.sign
  distinct := ho.distinct
  later := ho.later
  requests := by
    intro x hx
    refine (ho.requests x hx).frame (fun _ h => h) fun d fd' hd hopen => ⟨hopen, ?_, rfl⟩
    refine Function.update_of_ne ?_ _ _
    rintro rfl
    exact hno x hx (ho.distinct d c fd' hopen hc ▸ hd)
  single := ho.single
  idle := by
    intro fd' hfd'
    have hne : fd' ≠ fd := fun h => hfd' c (h ▸ hc)
    exact (Function.update_of_ne hne _ _).trans (ho.idle fd' hfd')
  serves := ⟨ho.serves.owned, ho.serves.slots⟩
  closes := ⟨ho.closes.right, ho.closes.onlyFinished⟩

theorem slotsOf_append (sys : System) (c d slot : ℕ) :
    slotsOf { sys with served := sys.served ++ [(some c, slot)] } d =
      if d = c then slotsOf sys d ++ [slot] else slotsOf sys d := by
  by_cases h : d = c
  · subst h
    simp [slotsOf]
  · have hcd : c ≠ d := Ne.symm h
    simp [slotsOf, h, hcd]

theorem Orderly.appendServed (ho : Orderly sys) (hc : sys.conns[c]? = some ⟨fd, true⟩)
    (hno : ∀ x ∈ sys.requests, x.conn ≠ some c) {slot : ℕ} (hslot : slot = (slotsOf sys c).length) :
    Orderly { sys with served := sys.served ++ [(some c, slot)] } where
  current := ho.current
  sign := ho.sign
  distinct := ho.distinct
  later := ho.later
  requests := by
    intro x hx
    refine (ho.requests x hx).frame (fun _ h => h) fun d fd' hd hopen => ⟨hopen, rfl, ?_⟩
    rw [slotsOf_append, if_neg]
    rintro rfl
    exact hno x hx hd
  single := ho.single
  idle := ho.idle
  serves := by
    refine ⟨fun e he => ?_, fun d => ?_⟩
    · rcases List.mem_append.mp he with he | he
      · exact ho.serves.owned e he
      · rw [List.mem_singleton] at he
        exact ⟨c, (List.getElem?_eq_some_iff.mp hc).1, by rw [he]⟩
    · rw [slotsOf_append]
      split
      · rename_i h
        subst h
        rw [List.length_append, List.length_singleton, List.range_succ, ← ho.serves.slots d, hslot]
      · exact ho.serves.slots d
  closes := ⟨ho.closes.right, ho.closes.onlyFinished⟩

theorem Orderly.appendFinished (ho : Orderly sys) (x : Option ℕ) :
    Orderly { sys with finished := sys.finished ++ [x] } where
  current := ho.current
  sign := ho.sign
  distinct := ho.distinct
  later := ho.later
  requests := fun x hx => (ho.requests x hx).frame
    (fun _ h => List.mem_append_left _ h) (fun _ _ _ h => ⟨h, rfl, rfl⟩)
  single := ho.single
  idle := ho.idle
  serves := ⟨ho.serves.owned, ho.serves.slots⟩
  closes := by
    refine ⟨fun rec hrec => ?_, ho.closes.onlyFinished⟩
    obtain ⟨c, hc, hv, hf, hconn⟩ := ho.closes.right rec hrec
    exact ⟨c, hc, hv, List.mem_append_left _ hf, hconn⟩

/-- The open connections after connection `c` has been closed. -/
theorem open_closed_iff {conns : List Conn} (hlt : c < conns.length) (d : ℕ) (fd' : Fd) :
    (conns.set c ⟨fd, false⟩)[d]? = some ⟨fd', true⟩ ↔
      d ≠ c ∧ conns[d]? = some ⟨fd', true⟩ := by
  by_cases h : d = c
  · subst h
    simp [hlt]
  · simp [List.getElem?_set_ne (Ne.symm h), h]

theorem Orderly.closeFinished (ho : Orderly sys) (hc : sys.conns[c]? = some ⟨fd, true⟩)
    (hno : ∀ x ∈ sys.requests, x.conn ≠ some c) (hf : some c ∈ sys.finished) :
    Orderly { sys with
      server := { sys.server with
        befferSendedN := Function.update sys.server.befferSendedN fd 0 }
      conns := sys.conns.set c ⟨fd, false⟩
      closes := sys.closes ++ [⟨some c, fd, some c⟩] } := by
  have hlt : c < sys.conns.length := (List.getElem?_eq_some_iff.mp hc).1
  exact {
    current := by
      intro conn hconn
      rw [List.getLast?_eq_getElem?, List.length_set] at hconn
      by_cases h : sys.conns.length - 1 = c
      · rw [h, List.getElem?_set_self hlt, Option.some.injEq] at hconn
        have hcur := ho.current ⟨fd, true⟩ (by rw [List.getLast?_eq_getElem?, h, hc])
        rw [← hconn]
        exact hcur
      · rw [List.getElem?_set_ne (Ne.symm h), ← List.getLast?_eq_getElem?] at hconn
        exact ho.current conn hconn
    sign := by
      intro d fd' hd
      exact ho.sign d fd' ((open_closed_iff hlt d fd').mp hd).2
    distinct := by
      intro d e fd' hd he
      exact ho.distinct d e fd' ((open_closed_iff hlt d fd').mp hd).2
        ((open_closed_iff hlt e fd').mp he).2
    later := by
      intro d e fd' conn hd hde he
      have hd' := ((open_closed_iff hlt d fd').mp hd).2
      by_cases h : e = c
      · subst h
        rw [List.getElem?_set_self hlt, Option.some.injEq] at he
        rw [← he]
        exact ho.later d e fd' ⟨fd, true⟩ hd' hde hc
      · rw [List.getElem?_set_ne (Ne.symm h)] at he
        exact ho.later d e fd' conn hd' hde he
    requests := by
      intro x hx
      refine (ho.requests x hx).frame (fun _ h => h) fun d fd' hd hd' => ?_
      have hdc : d ≠ c := by
        rintro rfl
        exact hno x hx hd
      refine ⟨(open_closed_iff hlt d fd').mpr ⟨hdc, hd'⟩, Function.update_of_ne ?_ _ _, rfl⟩
      rintro rfl
      exact hdc (ho.distinct d c fd' hd' hc)
    single := ho.single
    idle := by
      intro fd' hfd'
      by_cases h : fd' = fd
      · subst h
        exact Function.update_self _ _ _
      · refine (Function.update_of_ne h _ _).trans (ho.idle fd' fun d hd => ?_)
        refine hfd' d ((open_closed_iff hlt d fd').mpr ⟨?_, hd⟩)
        rintro rfl
        rw [hc, Option.some.injEq, Conn.mk.injEq] at hd
        exact h hd.1.symm
    serves := by
      refine ⟨fun e he => ?_, ho.serves.slots⟩
      rw [List.length_set]
      exact ho.serves.owned e he
    closes := by
      constructor
      · intro rec hrec
        rcases List.mem_append.mp hrec with hrec | hrec
        · obtain ⟨d, hd, hv, hfin, hconn⟩ := ho.closes.right rec hrec
          refine ⟨d, hd, hv, hfin, ?_⟩
          rw [List.getElem?_set_ne]
          · exact hconn
          · rintro rfl
            rw [hc] at hconn
            simp at hconn
        · rw [List.mem_singleton] at hrec
          subst hrec
          exact ⟨c, rfl, rfl, hf, List.getElem?_set_self hlt⟩
      · intro d fd' hd hs
        by_cases h : d = c
        · subst h
          exact ⟨_, List.mem_append_right _ (List.mem_singleton_self _), rfl⟩
        · rw [List.getElem?_set_ne (Ne.symm h)] at hd
          obtain ⟨rec, hrec, hfin⟩ := ho.closes.onlyFinished d fd' hd hs
          exact ⟨rec, List.mem_append_left _ hrec, hfin⟩ }

/-- The connections after one more has been accepted. -/
theorem getElem?_accepted {conns : List Conn} {new conn : Conn} {d : ℕ}
    (hd : (conns ++ [new])[d]? = some conn) :
    conns[d]? = some conn ∨ d = conns.length ∧ conn = new := by
  rcases Nat.lt_or_ge d conns.length with h | h
  · exact Or.inl (List.getElem?_append_left h ▸ hd)
  · rw [List.getElem?_append_right h, List.getElem?_singleton] at hd
    split at hd
    · exact Or.inr ⟨by omega, (Option.some.inj hd).symm⟩
    · cases hd

theorem Orderly.acceptConn (ho : Orderly sys) (res : Fd) (hres : ownerOf sys.conns res = none) :
    Orderly { sys with
      server := { sys.server with currentClientFd := res }
      conns := sys.conns ++ [⟨res, !res.msb⟩] } := by
  have hold : ∀ (d : ℕ) (conn : Conn), sys.conns[d]? = some conn →
      (sys.conns ++ [⟨res, !res.msb⟩])[d]? = some conn := fun d conn hd =>
    (List.getElem?_append_left (List.getElem?_eq_some_iff.mp hd).1).trans hd
  have hfree := ownerOf_eq_none.mp hres
  exact {
    current := by
      intro conn hconn
      rw [List.getLast?_append_of_ne_nil _ (by simp), List.getLast?_singleton] at hconn
      rw [← Option.some.inj hconn]
    sign := by
      intro d fd' hd
      rcases getElem?_accepted hd with hd | ⟨-, he⟩
      · exact ho.sign d fd' hd
      · rw [Conn.mk.injEq] at he
        rw [he.1]
        simpa using he.2
    distinct := by
      intro d e fd' hd he
      rcases getElem?_accepted hd with hd' | ⟨hdl, hd'⟩
      · rcases getElem?_accepted he with he' | ⟨hel, he'⟩
        · exact ho.distinct d e fd' hd' he'
        · rw [Conn.mk.injEq] at he'
          exact absurd (he'.1 ▸ hd') (hfree d)
      · rcases getElem?_accepted he with he' | ⟨hel, he'⟩
        · rw [Conn.mk.injEq] at hd'
          exact absurd (hd'.1 ▸ he') (hfree e)
        · rw [hdl, hel]
    later := by
      intro d e fd' conn hd hde he
      have hlt := (List.getElem?_eq_some_iff.mp he).1
      rw [List.length_append, List.length_singleton] at hlt
      rcases getElem?_accepted hd with hd | ⟨hdl, -⟩
      · rcases getElem?_accepted he with he | ⟨-, rfl⟩
        · exact ho.later d e fd' conn hd hde he
        · rintro rfl
          exact hfree d hd
      · omega
    requests := by
      intro x hx
      exact (ho.requests x hx).frame (fun _ h => h) fun d fd' _ hd => ⟨hold d _ hd, rfl, rfl⟩
    single := ho.single
    idle := by
      intro fd' hfd'
      exact ho.idle fd' fun d hd => hfd' d (hold d _ hd)
    serves := by
      refine ⟨fun e he => ?_, ho.serves.slots⟩
      obtain ⟨c, hc, hec⟩ := ho.serves.owned e he
      exact ⟨c, by rw [List.length_append]; omega, hec⟩
    closes := by
      constructor
      · intro rec hrec
        obtain ⟨c, hc, hv, hf, hconn⟩ := ho.closes.right rec hrec
        exact ⟨c, hc, hv, hf, hold c _ hconn⟩
      · intro d fd' hd hs
        rcases getElem?_accepted hd with hd | ⟨-, he⟩
        · exact ho.closes.onlyFinished d fd' hd hs
        · rw [Conn.mk.injEq] at he
          rw [he.1] at hs
          simp [hs] at he }

end Frames

section Turns
variable {pf} {sys sys' : System} {r : Request}

/-- The closing turn of connection `c` acts on its own socket exactly when `c` was
accepted last. -/
theorem Orderly.current_eq_iff {c : ℕ} {fd : Fd} (ho : Orderly sys)
    (hc : sys.conns[c]? = some ⟨fd, true⟩) :
    sys.server.currentClientFd = fd ↔ c + 1 = sys.conns.length := by
  have hlt := (List.getElem?_eq_some_iff.mp hc).1
  obtain ⟨conn, hlast⟩ : ∃ conn, sys.conns[sys.conns.length - 1]? = some conn :=
    ⟨_, List.getElem?_eq_getElem (by omega)⟩
  have hcur := ho.current conn (by rw [List.getLast?_eq_getElem?, hlast])
  constructor
  · intro h
    by_contra hne
    exact ho.later c _ fd conn hc (by omega) hlast (hcur.trans h)
  · intro h
    rw [show sys.conns.length - 1 = c by omega, hc, Option.some.injEq] at hlast
    rw [← hcur, ← hlast]

theorem Orderly.submit {c : ℕ} (ho : Orderly sys) (hno : ∀ x ∈ sys.requests, x.conn ≠ some c)
    {sqe : Sqe} (hown : connOf sys.conns (some c) sqe = some c)
    (hok : RequestOk sys ⟨some c, sqe⟩) : Orderly (perform (some c) sys (.submit sqe)) := by
  have hadd := ho.addRequest hok fun d hd x hx => Option.some.inj hd ▸ hno x hx
  rw [← hown] at hadd
  simpa only [perform] using hadd

theorem accepted_orderly {rest : Multiset Request} {server : Server} {effects : List Effect}
    (ho : Orderly sys) (o : Outcome) (hp : sys.requests = r ::ₘ rest)
    (hr : isAccept r.sqe = true) (hunused : ownerOf sys.conns o.res = none)
    (hstep : eventLoopStep pf o.stamp ⟨r.sqe.userData, o.res, o.data⟩ sys.server =
      some (server, effects)) :
    Orderly (effects.foldl (perform (some sys.conns.length))
      { sys with server, conns := sys.conns ++ [⟨o.res, !o.res.msb⟩], requests := rest }) := by
  have hrest := ho.dropRequest hp
  have hok := ho.requests r (hp ▸ Multiset.mem_cons_self r rest)
  cases hok with
  | accept =>
    simp only [Sqe.userData, step_accepted, Option.some.injEq, Prod.mk.injEq] at hstep
    obtain ⟨rfl, rfl⟩ := hstep
    have hacc := (hrest.acceptConn o.res hunused).addRequest .accept (by simp)
    have hfresh : ∀ x ∈ rest, x.conn ≠ some sys.conns.length := fun x hx hc =>
      absurd ((hrest.requests x hx).conn_lt hc) (Nat.lt_irrefl _)
    have hlen : slotsOf sys sys.conns.length = [] := by
      rw [slotsOf, List.map_eq_nil_iff, List.filter_eq_nil_iff]
      intro e he hc
      obtain ⟨c, hlt, hec⟩ := ho.serves.owned e he
      rw [hec, decide_eq_true_eq, Option.some.injEq] at hc
      omega
    have hnew : (sys.conns ++ [⟨o.res, !o.res.msb⟩])[sys.conns.length]? =
        some (⟨o.res, !o.res.msb⟩ : Conn) := by simp
    cases hsign : o.res.msb with
    | false =>
      rw [hsign] at hacc hnew
      refine hacc.submit ?_ (ownerOf_eq_some hacc.distinct hnew) (.send ⟨hnew, ?_⟩)
      · intro x hx
        rcases Multiset.mem_cons.mp hx with rfl | hx
        · exact fun hc => by cases hc
        · exact hfresh x hx
      · exact (ho.idle o.res (ownerOf_eq_none.mp hunused)).trans (congrArg List.length hlen).symm
    | true =>
      have hown : ownerOf (sys.conns ++ [⟨o.res, !true⟩]) o.res = none := by
        rw [hsign] at hacc
        refine ownerOf_eq_none.mpr fun d hd => ?_
        exact absurd (hacc.sign d o.res hd) (by simp [hsign])
      have hadd := hacc.addRequest
        (r := ⟨none, .send o.res (sendOnlyStatusCode pf.codec o.stamp .askNeedMsg)
          (makeRequestData o.res .readResponse)⟩) (.ignored hsign) (by simp)
      rw [hsign] at hadd
      simpa only [List.foldl_cons, List.foldl_nil, perform, addAcceptRequest, connOf, hown] using hadd
  | _ => cases hr

theorem turn_orderly (ho : Orderly sys) (hlast : ClosesLastAccepted sys r)
    (ht : Turn pf sys r sys') : Orderly sys' := by
  cases ht with
  | accepted o hp hr hunused hstep => exact accepted_orderly ho o hp hr hunused hstep
  | @completed rest _ _ o hp hr hcount hstep =>
    have hrest := ho.dropRequest hp
    cases ho.requests r (hp ▸ Multiset.mem_cons_self r rest) with
    | accept => cases hr
    | ignored hfd =>
      simp only [Sqe.userData, step_negative hfd, Option.some.injEq, Prod.mk.injEq] at hstep
      obtain ⟨rfl, rfl⟩ := hstep
      exact hrest
    | @send c fd sent h =>
      have hno : ∀ x ∈ rest, x.conn ≠ some c := fun x hx => ho.rest_ne hp rfl hx
      have hown := ownerOf_eq_some ho.distinct h.isOpen
      simp only [Sqe.userData, step_sent (ho.sign c fd h.isOpen)] at hstep
      split at hstep
      · simp only [readStatusResponse, Option.some.injEq, Prod.mk.injEq] at hstep
        obtain ⟨rfl, rfl⟩ := hstep
        exact hrest.submit hno hown (.recv ⟨h.isOpen, h.counter⟩)
      · simp only [Option.some.injEq, Prod.mk.injEq] at hstep
        obtain ⟨rfl, rfl⟩ := hstep
        exact hrest
    | @recv c fd h =>
      have hno : ∀ x ∈ rest, x.conn ≠ some c := fun x hx => ho.rest_ne hp rfl hx
      have hown := ownerOf_eq_some ho.distinct h.isOpen
      cases received_responds (ho.sign c fd h.isOpen) hstep with
      | nothing => exact hrest
      | status frame => exact hrest.submit hno hown (.send ⟨h.isOpen, h.counter⟩)
      | serves cbuf m frame hlt =>
        have hset := hrest.setCounter h.isOpen hno cbuf (sys.server.befferSendedN fd + 1)
        have hserved := hset.appendServed h.isOpen hno h.counter
        have hlen := congrArg List.length (slotsOf_append sys c c (sys.server.befferSendedN fd))
        rw [if_pos rfl, List.length_append, List.length_singleton, ← h.counter] at hlen
        simp only [List.foldl_cons, List.foldl_nil, perform, hown]
        exact hserved.submit hno hown
          (.send ⟨h.isOpen, (Function.update_self _ _ _).trans hlen.symm⟩)
      | finishes cbuf hash =>
        have hfin := (hrest.setCounter h.isOpen hno cbuf 0).appendFinished (some c)
        exact hfin.submit hno rfl (.close h.isOpen (by simp))
    | @close c fd h hf =>
      have hno : ∀ x ∈ rest, x.conn ≠ some c := fun x hx => ho.rest_ne hp rfl hx
      have hown := ownerOf_eq_some ho.distinct h
      obtain ⟨d, hd, hdl⟩ := hlast _ rfl
      obtain rfl := Option.some.inj hd
      have hcur := (ho.current_eq_iff h).mpr hdl
      simp only [Sqe.userData, step_close (ho.sign c fd h), Option.some.injEq,
        Prod.mk.injEq] at hstep
      obtain ⟨rfl, rfl⟩ := hstep
      have hclose := hrest.closeFinished h hno hf
      simpa only [List.foldl_cons, List.foldl_nil, perform, hcur, closeConn, hown] using hclose

theorem initial_spec (pf : Platform) : ∃ cbuf, Ready cbuf ∧ initial pf =
    some ⟨⟨cbuf, fun _ => 0, -1⟩, [], {⟨none, .accept (makeRequestData 0 .flagAccept)⟩},
      [], [], []⟩ := by
  obtain ⟨cbuf, hstart, hready, -⟩ := eventLoopStart_spec pf
  refine ⟨cbuf, hready, ?_⟩
  simp only [initial, hstart, Option.bind_eq_bind, Option.bind_some, List.foldl_cons,
    List.foldl_nil, perform, addAcceptRequest, connOf]
  rfl

theorem initial_orderly {start : System} (h : initial pf = some start) : Orderly start := by
  obtain ⟨cbuf, -, hinit⟩ := initial_spec pf
  rw [hinit, Option.some.injEq] at h
  subst h
  refine ⟨by simp, by simp, fun c d fd hc => by simp at hc, fun c d fd conn hc => by simp at hc,
    ?_, ?_, by simp, ⟨by simp, ?_⟩, ⟨by simp, by simp⟩⟩
  · intro r hr
    rw [Multiset.mem_singleton] at hr
    subst hr
    exact .accept
  · rw [← Multiset.cons_zero, Multiset.filterMap_cons_none _ _ rfl]
    exact Multiset.nodup_zero
  · intro c
    simp [slotsOf]

theorem runs_orderly (h : Runs pf ClosesLastAccepted sys) : Orderly sys := by
  obtain ⟨start, hstart, hrun⟩ := h
  induction hrun with
  | refl => exact initial_orderly hstart
  | tail _ hstep ih =>
    obtain ⟨r, hlast, ht⟩ := hstep
    exact turn_orderly ih hlast ht

end Turns
end CBlockchain.ServerRuns
