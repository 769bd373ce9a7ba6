import CBlockchain.RingTransfer
import CBlockchain.TransferBound

/-! How a net over the ring and a net of the protocol compare: server, roots and clients are
the same, a closing request may stand for an operation executed again, and the frames of a
connection may differ once an operation has been executed again on it. -/
namespace CBlockchain.Transfer
open ConnectionHandlers DataHandlers EventLoop ReceiveLoop RequestData Serdes
variable {pf : Platform} {net net' ideal ideal' : Net} {fd : Fd}

def Closes (d : BitVec 64) : Prop := requestDataEventType d = some .flagCloseConnection

theorem closes_make (sign : fd.msb = false) :
    Closes (makeRequestData fd .flagCloseConnection) := requestDataEventType_make sign _

theorem not_closes_make {flag : FlagState} (hflag : flag ≠ .flagCloseConnection) :
    ¬ Closes (makeRequestData fd flag) := by
  rw [Closes]
  cases sign : fd.msb with
  | false => simpa [requestDataEventType_make sign] using hflag
  | true => simp [requestDataEventType_neg sign]

/-- An operation has been executed again on this socket. -/
def Net.RanAgain (net : Net) (s : Fd) : Prop :=
  ∃ sqe ∈ net.entries, Closes sqe.userData ∧ socketOf sqe = some s

inductive OpMirrors (entries : List Sqe) : Op → Op → Prop
  | same (op : Op) : OpMirrors entries op op
  | pending {sqe : Sqe} (closes : Closes sqe.userData) (mem : sqe ∈ entries) :
      OpMirrors entries (.pending sqe) (.pending (.unprepared sqe.userData))
  | posted {cqe : Cqe} (closes : Closes cqe.userData) (res : BitVec 32) :
      OpMirrors entries (.posted cqe) (.posted ⟨cqe.userData, res, []⟩)

/-- `n` bounds the frames that were sent again; a frame may have been received for another
request. -/
structure Shadows (n : ℕ) (again : Prop) (link ideal : Link) : Prop where
  isOpen : link.isOpen = ideal.isOpen
  client : link.client = ideal.client
  same : ¬ again → link.toClient = ideal.toClient ∧ link.toServer = ideal.toServer
  kept : ideal.toClient.Sublist link.toClient
  extra : link.toClient.length ≤ ideal.toClient.length + n
  back : link.toServer = ideal.toServer ∨ link.toServer = []

/-- A client may be connected that the server has not heard of. -/
inductive LinkMirrors (fd : Fd) (n : ℕ) (again : Prop) : Option Link → Option Link → Prop
  | unused : LinkMirrors fd n again none none
  | stray (sign : fd.msb = false) (isOpen : Bool) :
      LinkMirrors fd n again (some ⟨isOpen, [], [], connectedClient⟩) none
  | shadowed {link ideal : Link} (h : Shadows n again link ideal) :
      LinkMirrors fd n again (some link) (some ideal)

/-- The server knows this socket: it has a connection or is the code of a failed accept. -/
def Known (net : Net) (s : Fd) : Prop := s.msb = true ∨ net.links s ≠ none

structure Mirrors (net ideal : Net) : Prop where
  server : net.server = ideal.server
  accepts : net.accepts = ideal.accepts
  roots : net.roots = ideal.roots
  ops : ∀ fd, List.Forall₂ (OpMirrors net.entries) (net.ops fd) (ideal.ops fd)
  links : ∀ fd, LinkMirrors fd net.roots.length (net.RanAgain fd) (net.links fd) (ideal.links fd)
  known : ∀ sqe s, sqe ∈ net.entries → socketOf sqe = some s → Known ideal s
  idle : ∀ s link, net.RanAgain s → net.links s = some link → link.Idle

section Links
variable {n m : ℕ} {again again' : Prop} {link il : Link} {l l' : Option Link}

theorem Shadows.mono (h : Shadows n again link il) (hn : n ≤ m) (ha : again → again') :
    Shadows m again' link il :=
  ⟨h.isOpen, h.client, fun hna => h.same fun ha' => hna (ha ha'), h.kept, by have := h.extra; omega,
    h.back⟩

theorem Shadows.refl (link : Link) : Shadows n again link link :=
  ⟨rfl, rfl, fun _ => ⟨rfl, rfl⟩, .refl _, Nat.le_add_right _ _, .inl rfl⟩

theorem LinkMirrors.mono (h : LinkMirrors fd n again l l') (hn : n ≤ m) (ha : again → again') :
    LinkMirrors fd m again' l l' := by
  cases h with
  | unused => exact .unused
  | stray sign isOpen => exact .stray sign isOpen
  | shadowed h => exact .shadowed (h.mono hn ha)

theorem Shadows.push (h : Shadows n again link il) (frame : List UInt8) :
    Shadows n again (link.push frame) (il.push frame) := by
  cases hopen : il.isOpen with
  | false =>
    rw [Link.push, if_neg (by rw [h.isOpen, hopen]; decide), Link.push, if_neg (by rw [hopen]; decide)]
    exact h
  | true =>
    rw [Link.push, if_pos (by rw [h.isOpen, hopen]), Link.push, if_pos hopen]
    refine ⟨h.isOpen, h.client, fun hna => ?_, h.kept.append_right _, ?_, h.back⟩
    · exact ⟨congrArg (· ++ [frame]) (h.same hna).1, (h.same hna).2⟩
    · have := h.extra
      simp only [List.length_append, List.length_singleton]
      omega

/-- A frame that only the ring sends. -/
theorem Shadows.push_again (h : Shadows n again link il) (frame : List UInt8) (ha : again') :
    Shadows (n + 1) again' (link.push frame) il := by
  have hextra := h.extra
  rw [Link.push]
  split
  · refine ⟨h.isOpen, h.client, fun hna => absurd ha hna, ?_, ?_, h.back⟩
    · exact h.kept.trans (List.sublist_append_left _ _)
    · simp only [List.length_append, List.length_singleton]
      omega
  · exact ⟨h.isOpen, h.client, fun hna => absurd ha hna, h.kept, by omega, h.back⟩

theorem Shadows.shut (h : Shadows n again link il) : Shadows n again link.shut il.shut :=
  ⟨rfl, h.client, h.same, h.kept, h.extra, h.back⟩

theorem LinkMirrors.shut (h : LinkMirrors fd n again l l') :
    LinkMirrors fd n again (l.map Link.shut) (l'.map Link.shut) := by
  cases h with
  | unused => exact .unused
  | stray sign isOpen => exact .stray sign false
  | shadowed h => exact .shadowed h.shut

theorem LinkMirrors.push (h : LinkMirrors fd n again l l') (frame : List UInt8)
    (known : fd.msb = true ∨ l' ≠ none) :
    LinkMirrors fd n again (l.map (Link.push frame)) (l'.map (Link.push frame)) := by
  cases h with
  | unused => exact .unused
  | stray sign isOpen => simp [sign] at known
  | shadowed h => exact .shadowed (h.push frame)

theorem LinkMirrors.push_again (h : LinkMirrors fd n again l l') (frame : List UInt8)
    (known : fd.msb = true ∨ l' ≠ none) (ha : again') :
    LinkMirrors fd (n + 1) again' (l.map (Link.push frame)) l' := by
  cases h with
  | unused => exact .unused
  | stray sign isOpen => simp [sign] at known
  | shadowed h => exact .shadowed (h.push_again frame ha)

theorem LinkMirrors.ne_none (h : LinkMirrors fd n again l l') (hne : l' ≠ none) : l ≠ none := by
  cases h with
  | unused => exact absurd rfl hne
  | stray => exact absurd rfl hne
  | shadowed => exact Option.some_ne_none _

theorem LinkMirrors.exists_ideal (h : LinkMirrors fd n again (some link) l')
    (known : fd.msb = true ∨ l' ≠ none) : ∃ il, l' = some il ∧ Shadows n again link il := by
  cases h with
  | stray sign isOpen => simp [sign] at known
  | shadowed h => exact ⟨_, rfl, h⟩

theorem Link.Idle.push (h : link.Idle) (frame : List UInt8) : (link.push frame).Idle := by
  rw [Link.push]
  split
  · exact h
  · exact h

theorem Link.shut_idle (link : Link) : link.shut.Idle := .inl rfl

end Links

theorem OpMirrors.mono {entries entries' : List Sqe} {op op' : Op} (h : OpMirrors entries op op')
    (hsub : entries ⊆ entries') : OpMirrors entries' op op' := by
  cases h with
  | same => exact .same op
  | pending closes mem => exact .pending closes (hsub mem)
  | posted closes res => exact .posted closes res

theorem ranAgain_enter {es : List Sqe} (hentries : net'.entries = net.entries ++ es)
    (fresh : ∀ sqe ∈ es, ¬ Closes sqe.userData) (s : Fd) : net'.RanAgain s ↔ net.RanAgain s := by
  constructor
  · rintro ⟨sqe, hmem, hcloses, hsock⟩
    rw [hentries] at hmem
    rcases List.mem_append.mp hmem with hmem | hmem
    · exact ⟨sqe, hmem, hcloses, hsock⟩
    · exact absurd hcloses (fresh sqe hmem)
  · rintro ⟨sqe, hmem, hcloses, hsock⟩
    exact ⟨sqe, by rw [hentries]; exact List.mem_append_left _ hmem, hcloses, hsock⟩

/-- A step on both sides that touches one socket number and executes nothing again. -/
theorem Mirrors.at_fd (h : Mirrors net ideal) (fd₀ : Fd) (es : List Sqe)
    (server : net'.server = ideal'.server) (accepts : net'.accepts = ideal'.accepts)
    (roots : net'.roots = net.roots ∧ ideal'.roots = ideal.roots)
    (entries : net'.entries = net.entries ++ es) (fresh : ∀ sqe ∈ es, ¬ Closes sqe.userData)
    (sockets : ∀ sqe s, sqe ∈ es → socketOf sqe = some s → Known ideal' s)
    (ops : ∀ fd ≠ fd₀, net'.ops fd = net.ops fd ∧ ideal'.ops fd = ideal.ops fd)
    (links : ∀ fd ≠ fd₀, net'.links fd = net.links fd ∧ ideal'.links fd = ideal.links fd)
    (keep : ideal.links fd₀ ≠ none → ideal'.links fd₀ ≠ none)
    (opsAt : List.Forall₂ (OpMirrors net.entries) (net'.ops fd₀) (ideal'.ops fd₀))
    (linkAt : LinkMirrors fd₀ net.roots.length (net.RanAgain fd₀) (net'.links fd₀) (ideal'.links fd₀))
    (idleAt : ∀ link, net.RanAgain fd₀ → net'.links fd₀ = some link → link.Idle) :
    Mirrors net' ideal' := by
  have hsub : net.entries ⊆ net'.entries := by
    rw [entries]
    exact List.subset_append_left _ _
  have hagain := fun s => ranAgain_enter entries fresh s
  refine ⟨server, accepts, by rw [roots.1, roots.2, h.roots], fun fd => ?_, fun fd => ?_,
    fun sqe s hmem hsock => ?_, fun s link ha on => ?_⟩
  · by_cases hfd : fd = fd₀
    · rw [hfd]
      exact opsAt.imp fun _ _ hop => hop.mono hsub
    · rw [(ops fd hfd).1, (ops fd hfd).2]
      exact (h.ops fd).imp fun _ _ hop => hop.mono hsub
  · rw [roots.1]
    by_cases hfd : fd = fd₀
    · rw [hfd]
      exact linkAt.mono le_rfl (hagain fd₀).mpr
    · rw [(links fd hfd).1, (links fd hfd).2]
      exact (h.links fd).mono le_rfl (hagain fd).mpr
  · rw [entries] at hmem
    rcases List.mem_append.mp hmem with hmem | hmem
    · rcases h.known sqe s hmem hsock with hneg | hne
      · exact .inl hneg
      · refine .inr ?_
        by_cases hs : s = fd₀
        · rw [hs] at hne ⊢
          exact keep hne
        · rw [(links s hs).2]
          exact hne
    · exact sockets sqe s hmem hsock
  · by_cases hs : s = fd₀
    · subst hs
      exact idleAt link ((hagain s).mp ha) on
    · rw [(links s hs).1] at on
      exact h.idle s link ((hagain s).mp ha) on

section Changes
variable {l il : Option Link}

/-- One connection changes on both sides. -/
theorem Mirrors.link_at (h : Mirrors net ideal) (fd : Fd)
    (keep : ideal.links fd ≠ none → il ≠ none)
    (linkAt : LinkMirrors fd net.roots.length (net.RanAgain fd) l il)
    (idleAt : net.RanAgain fd → ∀ link, l = some link → link.Idle) :
    Mirrors { net with links := Function.update net.links fd l }
      { ideal with links := Function.update ideal.links fd il } := by
  refine h.at_fd fd [] h.server h.accepts ⟨rfl, rfl⟩ (List.append_nil _).symm (List.forall_mem_nil _)
    (fun _ _ hmem => absurd hmem List.not_mem_nil) (fun _ _ => ⟨rfl, rfl⟩)
    (fun _ hne => ⟨Function.update_of_ne hne _ _, Function.update_of_ne hne _ _⟩) (fun hne => ?_)
    (h.ops fd) ?_ fun link ha on => idleAt ha link ?_
  · simpa using keep hne
  · simpa using linkAt
  · simpa using on

/-- One connection changes over the ring only. -/
theorem Mirrors.link_again (h : Mirrors net ideal) (fd : Fd)
    (linkAt : LinkMirrors fd net.roots.length (net.RanAgain fd) l (ideal.links fd))
    (idleAt : net.RanAgain fd → ∀ link, l = some link → link.Idle) :
    Mirrors { net with links := Function.update net.links fd l } ideal := by
  have hlinks := h.link_at fd id linkAt idleAt
  rwa [Function.update_eq_self] at hlinks

theorem Mirrors.shut (h : Mirrors net ideal) (fd : Fd) :
    Mirrors (net.onLink fd Link.shut) (ideal.onLink fd Link.shut) := by
  refine h.link_at fd (by simp) (h.links fd).shut fun _ link on => ?_
  obtain ⟨old, -, rfl⟩ := Option.map_eq_some_iff.mp on
  exact old.shut_idle

/-- The server has executed nothing again on a number that is not in use. -/
theorem Mirrors.not_again (h : Mirrors net ideal) (sign : fd.msb = false)
    (unused : ideal.links fd = none) : ¬ net.RanAgain fd := by
  rintro ⟨sqe, hmem, -, hs⟩
  rcases h.known sqe fd hmem hs with hneg | hne
  · simp [sign] at hneg
  · exact hne unused

end Changes

end CBlockchain.Transfer
