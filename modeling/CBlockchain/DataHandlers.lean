import CBlockchain.Layering

/-! The server's message buffer (`data_handlers.c`) and the signed messages it is
filled with. Slots are filled on demand and, as long as the buffer never wraps
around, written once. -/
namespace CBlockchain

structure UserKeys where
  sk : Vector UInt8 64
  pk : Vector UInt8 32

/-- Where new messages come from: the key pair and the random text of the `n`-th one,
and the signature that `crypto_sign` puts in front of a text. -/
structure MessageSource where
  keys : ℕ → UserKeys
  text : ℕ → Vector UInt8 100
  signature : Vector UInt8 64 → List UInt8 → Vector UInt8 64

namespace MessageSource

def signAMessage (src : MessageSource) (testmsg : List UInt8) (k : UserKeys) : SignedMessage where
  message := (src.signature k.sk testmsg).toList ++ testmsg
  length := 64 + testmsg.length
  publicKey := k.pk
  length_le := by simp

/-- `ls_get_a_signed_msg`, called for the `n`-th time. -/
def lsGetASignedMsg (src : MessageSource) (n : ℕ) : SignedMessage :=
  src.signAMessage (src.text n).toList (src.keys n)

@[simp] theorem lsGetASignedMsg_length (src : MessageSource) (n : ℕ) :
    (src.lsGetASignedMsg n).length = 164 := by
  simp [lsGetASignedMsg, signAMessage]

end MessageSource

/-- `circ_buf_t` and the messages behind its slots. -/
structure CircBuf where
  buffer : List Ptr
  fillSize : ℕ
  maxlen : ℕ
  msgs : Heap SignedMessage

namespace DataHandlers
open Layering
variable (src : MessageSource)

/-- `create_circ_buf` on the zeroed `ring_data_buf`. -/
def createCircBuf : CircBuf where
  buffer := List.replicate 512 none
  fillSize := 0
  maxlen := 512
  msgs := .empty

/-- Reading the message field of a released message faults. -/
def destroySignedMessage (msgs : Heap SignedMessage) (p : Ptr) : Option (Heap SignedMessage) :=
  (msgs.read p).map fun _ => msgs.free p

/-- The slots keep their pointers. -/
def cleanCircBuf (cbuf : CircBuf) : Option CircBuf := do
  let msgs ← cbuf.buffer.foldlM
    (fun msgs p => if p = none then some msgs else destroySignedMessage msgs p) cbuf.msgs
  some { cbuf with msgs := msgs }

/-- One message is generated on every call, also when the buffer is full. -/
def pushMsgCircBuf (cbuf : CircBuf) : Option CircBuf :=
  let (aMsgP, msgs) := cbuf.msgs.alloc (src.lsGetASignedMsg cbuf.msgs.cells.length)
  let cur := cbuf.fillSize
  if cur = cbuf.maxlen then
    (cleanCircBuf { cbuf with msgs := msgs }).map fun cbuf => { cbuf with fillSize := 0 }
  else if cur < cbuf.buffer.length then
    some { cbuf with buffer := cbuf.buffer.set cur aMsgP, fillSize := cur + 1, msgs := msgs }
  else none

def pushLoop (N : ℕ) : ℕ → CircBuf → Option CircBuf
  | 0, _ => none
  | fuel + 1, cbuf => do
    let cbuf ← pushMsgCircBuf src cbuf
    if (N + 1) % 2 ^ 64 ≠ cbuf.fillSize then pushLoop N fuel cbuf else some cbuf

/-- The last serial number is a machine word: for an empty buffer it is the largest one. -/
def getNthCircBuf (fuel N : ℕ) (cbuf : CircBuf) : Option (Ptr × CircBuf) :=
  let curLastMsgSerial := (cbuf.fillSize + (2 ^ 64 - 1)) % 2 ^ 64
  if N > curLastMsgSerial then do
    let cbuf ← pushLoop src N fuel cbuf
    some (ptrAt cbuf.buffer (cbuf.fillSize - 1), cbuf)
  else some (ptrAt cbuf.buffer N, cbuf)

def slotMsg (cbuf : CircBuf) (i : ℕ) : Option SignedMessage := cbuf.msgs.read (ptrAt cbuf.buffer i)

/-- Slots that hold a message. With `fill_size` reset to 0 after a full pass, all do. -/
def filled (cbuf : CircBuf) : ℕ := if cbuf.fillSize = 0 then 512 else cbuf.fillSize

/-- The first `n` slots hold generated messages and the others are null. -/
structure HoldsTo (n : ℕ) (cbuf : CircBuf) : Prop where
  length : cbuf.buffer.length = 512
  maxlen : cbuf.maxlen = 512
  le : n ≤ 512
  held : ∀ i < n, ∃ m, slotMsg cbuf i = some m
  null : ∀ i, n ≤ i → ptrAt cbuf.buffer i = none
  generated : ∀ p m, cbuf.msgs.read p = some m → m.length = 164

/-- A buffer in use that has not wrapped around. -/
def Ready (cbuf : CircBuf) : Prop := HoldsTo (filled cbuf) cbuf

/-- No slot that holds a message changes. -/
def Grows (c c' : CircBuf) : Prop := ∀ i m, slotMsg c i = some m → slotMsg c' i = some m

theorem Grows.refl (c : CircBuf) : Grows c c := fun _ _ h => h

variable {c c' : CircBuf} {n : ℕ}

theorem HoldsTo.slotMsg_lt (h : HoldsTo n c) {i : ℕ} {m : SignedMessage}
    (hm : slotMsg c i = some m) : i < n := by
  by_contra hi
  rw [slotMsg, h.null i (by omega)] at hm
  simp at hm

theorem ptrAt_set {ps : List Ptr} {k i : ℕ} {p : Ptr} (hk : k < ps.length) :
    ptrAt (ps.set k p) i = if i = k then p else ptrAt ps i := by
  unfold ptrAt
  by_cases h : i = k
  · subst h
    simp [hk]
  · rw [List.getElem?_set_ne (Ne.symm h), if_neg h]

theorem createCircBuf_holdsTo : HoldsTo 0 createCircBuf where
  length := List.length_replicate
  maxlen := rfl
  le := by norm_num
  held := fun i hi => absurd hi (Nat.not_lt_zero i)
  null := fun i _ => by
    change ((List.replicate 512 (none : Ptr))[i]?).join = none
    rw [List.getElem?_replicate]
    split <;> rfl
  generated := fun p m hm => by
    change Heap.read (.empty) p = some m at hm
    cases p <;> simp [Heap.empty, Heap.read] at hm

theorem pushMsgCircBuf_room (hmax : c.fillSize ≠ c.maxlen) (hcur : c.fillSize < c.buffer.length) :
    pushMsgCircBuf src c = some ⟨c.buffer.set c.fillSize (some c.msgs.cells.length),
      c.fillSize + 1, c.maxlen, (c.msgs.alloc (src.lsGetASignedMsg c.msgs.cells.length)).2⟩ := by
  simp only [pushMsgCircBuf]
  rw [if_neg hmax, if_pos hcur]
  rfl

/-- `c'` is `c` with the slots from `fill_size` up to `n` filled: behind them lie new messages,
generated in the order of the slots, and nothing else has changed. -/
structure FilledTo (n : ℕ) (c c' : CircBuf) : Prop where
  fillSize : c'.fillSize = n
  maxlen : c'.maxlen = c.maxlen
  length : c'.buffer.length = c.buffer.length
  kept : ∀ i, i < c.fillSize ∨ n ≤ i → ptrAt c'.buffer i = ptrAt c.buffer i
  pushed : ∀ i, c.fillSize ≤ i → i < n →
    ptrAt c'.buffer i = some (c.msgs.cells.length + (i - c.fillSize))
  cells : c'.msgs.cells = c.msgs.cells ++ (List.range (n - c.fillSize)).map fun j =>
    some (src.lsGetASignedMsg (c.msgs.cells.length + j))

section Filling
variable {src}

theorem FilledTo.refl (c : CircBuf) : FilledTo src c.fillSize c c where
  fillSize := rfl
  maxlen := rfl
  length := rfl
  kept := fun _ _ => rfl
  pushed := fun i hi hlt => absurd hi (by omega)
  cells := by simp

theorem FilledTo.trans {m : ℕ} {c₁ : CircBuf} (h : FilledTo src m c c₁)
    (h' : FilledTo src n c₁ c') (hm : c.fillSize ≤ m) (hn : m ≤ n) : FilledTo src n c c' where
  fillSize := h'.fillSize
  maxlen := h'.maxlen.trans h.maxlen
  length := h'.length.trans h.length
  kept := by
    intro i hi
    have hfill := h.fillSize
    rw [h'.kept i (by omega), h.kept i (by omega)]
  pushed := by
    intro i hi hlt
    have hfill := h.fillSize
    by_cases him : i < m
    · rw [h'.kept i (by omega), h.pushed i hi him]
    · rw [h'.pushed i (by omega) hlt, h.cells]
      simp only [List.length_append, List.length_map, List.length_range, Option.some.injEq]
      omega
  cells := by
    rw [h'.cells, h.cells, h.fillSize, List.append_assoc,
      show n - c.fillSize = (m - c.fillSize) + (n - m) by omega, List.range_add, List.map_append,
      List.map_map]
    simp only [List.length_append, List.length_map, List.length_range, Nat.add_assoc,
      Function.comp_def]

theorem FilledTo.length_cells (h : FilledTo src n c c') :
    c'.msgs.cells.length = c.msgs.cells.length + (n - c.fillSize) := by
  simp [h.cells]

theorem FilledTo.read_old (h : FilledTo src n c c') {a : ℕ} (ha : a < c.msgs.cells.length) :
    c'.msgs.read (some a) = c.msgs.read (some a) := by
  rw [Heap.read_some, Heap.read_some, h.cells, List.getElem?_append_left ha]

theorem FilledTo.read_new (h : FilledTo src n c c') {a : ℕ} (ha : c.msgs.cells.length ≤ a)
    (hlt : a < c.msgs.cells.length + (n - c.fillSize)) :
    c'.msgs.read (some a) = some (src.lsGetASignedMsg a) := by
  rw [Heap.read_some, h.cells, List.getElem?_append_right ha, List.getElem?_map,
    List.getElem?_range (by omega), Option.map_some, Nat.add_sub_cancel' ha]
  rfl

theorem FilledTo.extends (h : FilledTo src n c c') : c.msgs.Extends c'.msgs := by
  intro p m hp
  cases p with
  | none => cases hp
  | some a =>
    rw [h.read_old (Heap.read_some_lt hp)]
    exact hp

/-- A message readable afterwards was there before or is a generated one. -/
theorem FilledTo.read_cases (h : FilledTo src n c c') {p : Ptr} {m : SignedMessage}
    (hp : c'.msgs.read p = some m) :
    c.msgs.read p = some m ∨ ∃ k, m = src.lsGetASignedMsg k := by
  cases p with
  | none => cases hp
  | some a =>
    have hlt := Heap.read_some_lt hp
    rw [h.length_cells] at hlt
    rcases Nat.lt_or_ge a c.msgs.cells.length with ha | ha
    · rw [h.read_old ha] at hp
      exact Or.inl hp
    · rw [h.read_new ha hlt] at hp
      exact Or.inr ⟨a, (Option.some.inj hp).symm⟩

theorem FilledTo.slotMsg_pushed (h : FilledTo src n c c') {i : ℕ} (hi : c.fillSize ≤ i)
    (hlt : i < n) :
    slotMsg c' i = some (src.lsGetASignedMsg (c.msgs.cells.length + (i - c.fillSize))) := by
  rw [slotMsg, h.pushed i hi hlt]
  exact h.read_new (by omega) (by omega)

theorem FilledTo.slotMsg_kept (h : FilledTo src n c c') {i : ℕ} {m : SignedMessage}
    (hi : i < c.fillSize) (hm : slotMsg c i = some m) : slotMsg c' i = some m := by
  rw [slotMsg, h.kept i (Or.inl hi)]
  exact h.extends _ _ hm

theorem FilledTo.grows (h : FilledTo src n c c') (hc : HoldsTo c.fillSize c) : Grows c c' :=
  fun _ _ hm => h.slotMsg_kept (hc.slotMsg_lt hm) hm

theorem FilledTo.holdsTo (h : FilledTo src n c c') (hc : HoldsTo c.fillSize c)
    (hn : c.fillSize ≤ n) (hle : n ≤ 512) : HoldsTo n c' where
  length := h.length.trans hc.length
  maxlen := h.maxlen.trans hc.maxlen
  le := hle
  held := by
    intro i hi
    by_cases hold : i < c.fillSize
    · obtain ⟨m, hm⟩ := hc.held i hold
      exact ⟨m, h.slotMsg_kept hold hm⟩
    · exact ⟨_, h.slotMsg_pushed (by omega) hi⟩
  null := by
    intro i hi
    rw [h.kept i (Or.inr hi)]
    exact hc.null i (by omega)
  generated := by
    intro p m hp
    rcases h.read_cases hp with hold | ⟨k, rfl⟩
    · exact hc.generated p m hold
    · exact MessageSource.lsGetASignedMsg_length src k

end Filling

theorem pushMsgCircBuf_filledTo (hmax : c.fillSize ≠ c.maxlen)
    (hcur : c.fillSize < c.buffer.length) :
    ∃ c', pushMsgCircBuf src c = some c' ∧ FilledTo src (c.fillSize + 1) c c' := by
  refine ⟨_, pushMsgCircBuf_room src hmax hcur, rfl, rfl, List.length_set, ?_, ?_, ?_⟩
  · intro i hi
    exact (ptrAt_set hcur).trans (if_neg (by omega))
  · intro i hi hlt
    obtain rfl : i = c.fillSize := by omega
    rw [ptrAt_set hcur, if_pos rfl, Nat.sub_self, Nat.add_zero]
  · simp [Heap.alloc]

theorem pushLoop_succ (N fuel : ℕ) (c : CircBuf) :
    pushLoop src N (fuel + 1) c = (pushMsgCircBuf src c).bind fun c' =>
      if (N + 1) % 2 ^ 64 ≠ c'.fillSize then pushLoop src N fuel c' else some c' := rfl

/-- One push for every slot that is missing: enough fuel is any number from there on. -/
theorem pushLoop_filledTo {N : ℕ} (hN : N < 512) (k : ℕ) {c : CircBuf}
    (hlen : c.buffer.length = 512) (hmax : c.maxlen = 512) (hk : c.fillSize + k = N) :
    ∃ c', FilledTo src (N + 1) c c' ∧ ∀ fuel, k < fuel → pushLoop src N fuel c = some c' := by
  have hmod : (N + 1) % 2 ^ 64 = N + 1 := Nat.mod_eq_of_lt (by omega)
  induction k generalizing c with
  | zero =>
    obtain ⟨c', hpush, hfill⟩ := pushMsgCircBuf_filledTo src (c := c) (by omega) (by omega)
    rw [show c.fillSize = N by omega] at hfill
    refine ⟨c', hfill, fun fuel hfuel => ?_⟩
    obtain ⟨fuel, rfl⟩ := Nat.exists_eq_add_one_of_ne_zero (by omega : fuel ≠ 0)
    rw [pushLoop_succ, hpush, Option.bind_some, hmod, if_neg (not_not.mpr hfill.fillSize.symm)]
  | succ k ih =>
    obtain ⟨c₁, hpush, hfill⟩ := pushMsgCircBuf_filledTo src (c := c) (by omega) (by omega)
    have hsize := hfill.fillSize
    obtain ⟨c', hrest, hloop⟩ := ih (hfill.length.trans hlen) (hfill.maxlen.trans hmax) (by omega)
    refine ⟨c', hfill.trans hrest (by omega) (by omega), fun fuel hfuel => ?_⟩
    obtain ⟨fuel, rfl⟩ := Nat.exists_eq_add_one_of_ne_zero (by omega : fuel ≠ 0)
    rw [pushLoop_succ, hpush, Option.bind_some, hmod, if_pos (by omega), hloop fuel (by omega)]

/-- Whether an access pushes, where the buffer is not empty. -/
theorem serial_lt_iff {N : ℕ} (hpos : c.fillSize ≠ 0) (hle : c.fillSize ≤ 512) :
    N > (c.fillSize + (2 ^ 64 - 1)) % 2 ^ 64 ↔ c.fillSize ≤ N := by
  omega

/-- An access to a buffer that is not empty fills what is missing up to slot `N`. -/
theorem getNthCircBuf_filledTo {N : ℕ} (hN : N < 512) (hlen : c.buffer.length = 512)
    (hmax : c.maxlen = 512) (hpos : c.fillSize ≠ 0) (hle : c.fillSize ≤ 512) :
    ∃ c', FilledTo src (max c.fillSize (N + 1)) c c' ∧ ∀ fuel, N + 1 - c.fillSize ≤ fuel →
      getNthCircBuf src fuel N c = some (ptrAt c'.buffer N, c') := by
  by_cases hlast : c.fillSize ≤ N
  · obtain ⟨c', hfill, hloop⟩ := pushLoop_filledTo src hN (N - c.fillSize) hlen hmax (by omega)
    rw [show max c.fillSize (N + 1) = N + 1 by omega]
    refine ⟨c', hfill, fun fuel hfuel => ?_⟩
    simp only [getNthCircBuf]
    rw [if_pos ((serial_lt_iff hpos hle).mpr hlast), hloop fuel (by omega)]
    simp [hfill.fillSize]
  · rw [show max c.fillSize (N + 1) = c.fillSize by omega]
    refine ⟨c, .refl c, fun fuel _ => ?_⟩
    simp only [getNthCircBuf]
    rw [if_neg fun h => hlast ((serial_lt_iff hpos hle).mp h)]

/-- An access to an empty buffer takes the pointer that lies there and pushes nothing. -/
theorem getNthCircBuf_empty {N : ℕ} (fuel : ℕ) (hN : N < 512) (hfill : c.fillSize = 0) :
    getNthCircBuf src fuel N c = some (ptrAt c.buffer N, c) := by
  simp only [getNthCircBuf]
  rw [if_neg (by rw [hfill]; omega)]

theorem Ready.holdsTo (h : Ready c) (hfill : c.fillSize ≠ 0) : HoldsTo c.fillSize c := by
  rwa [Ready, filled, if_neg hfill] at h

/-- `GET_nth_circ_buf` on a ready buffer returns the message of slot `N`, fills what is
missing before it, and changes no slot that holds a message. -/
theorem getNthCircBuf_spec (h : Ready c) {N : ℕ} (hN : N < 512) :
    ∃ p c' m, getNthCircBuf src 512 N c = some (p, c') ∧ c'.msgs.read p = some m ∧
      slotMsg c' N = some m ∧ Ready c' ∧ Grows c c' ∧ filled c' = max (filled c) (N + 1) := by
  have hle : filled c ≤ 512 := h.le
  by_cases hz : c.fillSize = 0
  · have hf : filled c = 512 := by simp [filled, hz]
    obtain ⟨m, hm⟩ := h.held N (by omega)
    exact ⟨ptrAt c.buffer N, c, m, getNthCircBuf_empty src 512 hN hz, hm, hm, h, Grows.refl c,
      by omega⟩
  · have hf : filled c = c.fillSize := by simp [filled, hz]
    have hc := h.holdsTo hz
    obtain ⟨c', hfill, hget⟩ := getNthCircBuf_filledTo src hN hc.length hc.maxlen hz (by omega)
    have hf' : filled c' = max (filled c) (N + 1) := by
      simp only [filled, hfill.fillSize, if_neg hz]
      rw [if_neg (by omega)]
    have hhold : HoldsTo (filled c') c' := by
      rw [hf', hf]
      exact hfill.holdsTo hc (by omega) (by omega)
    obtain ⟨m, hm⟩ := hhold.held N (by omega)
    exact ⟨_, c', m, hget 512 (by omega), hm, hm, hhold, hfill.grows hc, hf'⟩

theorem HoldsTo.reset (h : HoldsTo n c) (hall : ∀ i < 512, ∃ m, slotMsg c i = some m) :
    Ready { c with fillSize := 0 } where
  length := h.length
  maxlen := h.maxlen
  le := le_rfl
  held := fun i hi => hall i (by simpa [filled] using hi)
  null := by
    intro i hi
    have h512 : 512 ≤ i := by simpa [filled] using hi
    exact h.null i (le_trans h.le h512)
  generated := h.generated

theorem HoldsTo.length_le (h : HoldsTo n c) {i : ℕ} {m : SignedMessage}
    (hm : slotMsg c i = some m) : m.length ≤ 512 := by
  rw [h.generated _ _ hm]
  norm_num

theorem exists_messages (h : ∀ i < 512, ∃ m, slotMsg c i = some m) :
    ∃ msg : ℕ → SignedMessage, ∀ i < 512, slotMsg c i = some (msg i) := by
  obtain ⟨m₀, -⟩ := h 0 (by norm_num)
  have : Nonempty SignedMessage := ⟨m₀⟩
  choose! msg hmsg using h
  exact ⟨msg, hmsg⟩

end DataHandlers
end CBlockchain
