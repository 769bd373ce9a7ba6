import CBlockchain.Decoders

/-! `deserialize_block` on messages the library accepts. The lengths of three copies come
from the peer and the date is always copied over 35 bytes; no presence flag and no length
is looked at. -/
namespace CBlockchain.BlockDecoder
open Copying Decoders BlockData

/-- A block message with every field a block needs, each of its own length. -/
structure Complete (m : P2pIpcMessage) : Prop where
  status : m.statusCode = .block
  merkleRoot : ∃ r, m.merkleRoot = some r ∧ r.length = 32
  nonce : ∃ n, m.nonce = some n ∧ n.length = 15
  prevBlock : ∃ b, m.prevBlock = some b ∧ b.length = 32
  timestampBegin : ∃ t, m.timestampBegin = some t
  timestampEnd : ∃ t, m.timestampEnd = some t
  difficulty : ∃ d, m.difficulty = some d

/-- A block is returned for a complete message only, and every copy stays inside its field
and its source. -/
structure AcceptsComplete (m : P2pIpcMessage) (r : Traced DecodeEvent (Option (List UInt8))) :
    Prop where
  complete : ∀ block, r.result = some (some block) → Complete m
  inBounds : ∀ c, .copy c ∈ r.trace → c.InBounds

section Copies
variable {off : ℕ} (room source : ℕ) {data block : List UInt8}

theorem copyToBlock_fits (hb : block.length = 138) (h : off + data.length ≤ 138) :
    copyToBlock off room data source block =
      ⟨[.copy ⟨data.length, room, source⟩], some (writeAt off data block)⟩ := by
  rw [copyToBlock, hb, if_pos h]
  rfl

theorem copyToBlock_trace :
    (copyToBlock off room data source block).trace = [.copy ⟨data.length, room, source⟩] := by
  rw [copyToBlock]
  split_ifs <;> rfl

theorem length_written (hb : block.length = 138) (h : off + data.length ≤ 138) :
    (writeAt off data block).length = 138 := by
  rw [length_writeAt (by omega), hb]

theorem length_readObject (len : ℕ) (object : List UInt8) (behind : ℕ → UInt8) :
    (readObject len object behind).length = len := by
  simp [readObject]

theorem length_wordBytes (x : UInt64) : (wordBytes x).length = 8 := by
  simp [wordBytes]

end Copies

/-- The block behind the copies and assignments, in the order of the source. -/
def written (date merkleRoot nonce : List UInt8) (timestampBegin timestampEnd : UInt64)
    (prevBlock : List UInt8) (difficulty : UInt64) : List UInt8 :=
  writes [(15, date), (106, merkleRoot), (0, nonce), (50, wordBytes timestampBegin),
    (58, wordBytes timestampEnd), (74, prevBlock), (66, wordBytes difficulty)]
    (List.replicate 138 0)

section Layout
variable {date merkleRoot nonce prevBlock : List UInt8} {timestampBegin timestampEnd : UInt64}
  {difficulty : UInt64}

theorem slice_zeros {off n : ℕ} (h : off + n ≤ 138) :
    slice off n (List.replicate 138 (0 : UInt8)) = List.replicate n 0 := by
  rw [slice, List.drop_replicate, List.take_replicate, min_eq_left (by omega)]

/-- A field of the packed block that one write begins and no other touches. -/
theorem slice_written (pre : List (ℕ × List UInt8)) {post : List (ℕ × List UInt8)} {off n : ℕ}
    {data : List UInt8} (hn : data.length ≤ n) (hfit : off + n ≤ 138) (hpre : Fit 138 pre)
    (hpost : Fit 138 post) (hbpre : Beside off n pre) (hbpost : Beside off n post) :
    slice off n (writes (pre ++ (off, data) :: post) (List.replicate 138 0)) =
      data ++ List.replicate (n - data.length) 0 := by
  rw [slice_writes_field (by simpa using hfit) hn (by simpa using hpre) (by simpa using hpost)
    hbpre hbpost, slice_zeros (by omega)]

/-- Fields no longer than their places do not touch each other, in whatever order they are
written. -/
theorem written_eq (hdate : date.length = 35) (hroot : merkleRoot.length ≤ 32)
    (hnonce : nonce.length ≤ 15) (hprev : prevBlock.length ≤ 32) :
    written date merkleRoot nonce timestampBegin timestampEnd prevBlock difficulty =
      (nonce ++ List.replicate (15 - nonce.length) 0) ++ date ++ wordBytes timestampBegin ++
        wordBytes timestampEnd ++ wordBytes difficulty ++
        (prevBlock ++ List.replicate (32 - prevBlock.length) 0) ++
        (merkleRoot ++ List.replicate (32 - merkleRoot.length) 0) := by
  have hword := length_wordBytes
  set b := written date merkleRoot nonce timestampBegin timestampEnd prevBlock difficulty with hb
  have hlen : b.length = 138 := by
    rw [hb, written, length_writes]
    · exact List.length_replicate
    · simp [Fit, hword, hdate]
      omega
  have h0 : slice 0 15 b = nonce ++ List.replicate (15 - nonce.length) 0 := by
    apply slice_written [(15, date), (106, merkleRoot)] hnonce (by norm_num)
    all_goals simp [Fit, Beside, hword, hdate]
    all_goals omega
  have h15 : slice 15 35 b = date ++ List.replicate (35 - date.length) 0 := by
    apply slice_written [] hdate.le (by norm_num)
    all_goals simp [Fit, Beside, hword]
    all_goals omega
  have h50 : slice 50 8 b =
      wordBytes timestampBegin ++ List.replicate (8 - (wordBytes timestampBegin).length) 0 := by
    apply slice_written [(15, date), (106, merkleRoot), (0, nonce)] (hword _).le (by norm_num)
    all_goals simp [Fit, Beside, hword, hdate]
    all_goals omega
  have h58 : slice 58 8 b =
      wordBytes timestampEnd ++ List.replicate (8 - (wordBytes timestampEnd).length) 0 := by
    apply slice_written [(15, date), (106, merkleRoot), (0, nonce),
      (50, wordBytes timestampBegin)] (hword _).le (by norm_num)
    all_goals simp [Fit, Beside, hword, hdate]
    all_goals omega
  have h66 : slice 66 8 b =
      wordBytes difficulty ++ List.replicate (8 - (wordBytes difficulty).length) 0 := by
    apply slice_written [(15, date), (106, merkleRoot), (0, nonce),
      (50, wordBytes timestampBegin), (58, wordBytes timestampEnd), (74, prevBlock)]
      (hword _).le (by norm_num)
    all_goals simp [Fit, Beside, hword, hdate]
    all_goals omega
  have h74 : slice 74 32 b = prevBlock ++ List.replicate (32 - prevBlock.length) 0 := by
    apply slice_written [(15, date), (106, merkleRoot), (0, nonce),
      (50, wordBytes timestampBegin), (58, wordBytes timestampEnd)] hprev (by norm_num)
    all_goals simp [Fit, Beside, hword, hdate]
    all_goals omega
  have h106 : slice 106 32 b = merkleRoot ++ List.replicate (32 - merkleRoot.length) 0 := by
    apply slice_written [(15, date)] hroot (by norm_num)
    all_goals simp [Fit, Beside, hword, hdate]
    all_goals omega
  have hcut : windows 0 [15, 35, 8, 8, 8, 32, 32] b = b := by
    rw [windows_eq]
    change slice 0 138 b = b
    rw [← hlen, slice_zero_length]
  rw [← hcut]
  simp only [windows, zero_add, Nat.reduceAdd, h0, h15, h50, h58, h66, h74, h106, hdate, hword]
  simp

end Layout

section Run
variable {p2p : P2pCodec} (dateOf : (m : P2pIpcMessage) → StringObject m.date) (behind : ℕ → UInt8)
  {bufIn : List UInt8} {m : P2pIpcMessage}

/-- A copy of a field of `n` bytes. -/
def fieldCopy (n room : ℕ) : DecodeEvent := .copy ⟨n, room, n⟩

/-- The events of a run whose copies stay in the block. -/
def copies (m : P2pIpcMessage) : List DecodeEvent :=
  [.field, .copy ⟨35, 35, (dateOf m).bytes.length⟩, fieldCopy (m.merkleRoot.getD []).length 32,
    fieldCopy (m.nonce.getD []).length 15, fieldCopy (m.prevBlock.getD []).length 32]

theorem deserializeBlock_other (h : p2p.unpack bufIn = some m) (hs : m.statusCode ≠ .block) :
    deserializeBlock p2p dateOf behind bufIn = ⟨[.field], some none⟩ := by
  simp [deserializeBlock, h, deref, Traced.ok, hs]

/-- A status of `BLOCK` is all that is asked for. -/
theorem deserializeBlock_block (h : p2p.unpack bufIn = some m) (hs : m.statusCode = .block)
    (hroot : (m.merkleRoot.getD []).length ≤ 32) (hnonce : (m.nonce.getD []).length ≤ 15)
    (hprev : (m.prevBlock.getD []).length ≤ 32) :
    deserializeBlock p2p dateOf behind bufIn = ⟨copies dateOf m,
      some (some (written (readObject 35 (dateOf m).bytes behind) (m.merkleRoot.getD [])
        (m.nonce.getD []) (m.timestampBegin.getD 0) (m.timestampEnd.getD 0) (m.prevBlock.getD [])
        (m.difficulty.getD 0)))⟩ := by
  set date := readObject 35 (dateOf m).bytes behind with hdate
  have hlen : date.length = 35 := length_readObject _ _ _
  have hword := length_wordBytes
  have hb : (List.replicate 138 (0 : UInt8)).length = 138 := List.length_replicate
  have h1 : 15 + date.length ≤ 138 := by omega
  have hb1 := length_written hb h1
  have h2 : 106 + (m.merkleRoot.getD []).length ≤ 138 := by omega
  have hb2 := length_written hb1 h2
  have h3 : 0 + (m.nonce.getD []).length ≤ 138 := by omega
  have hb3 := length_written hb2 h3
  have h4 : 50 + (wordBytes (m.timestampBegin.getD 0)).length ≤ 138 := by rw [hword]; norm_num
  have hb4 := length_written hb3 h4
  have h5 : 58 + (wordBytes (m.timestampEnd.getD 0)).length ≤ 138 := by rw [hword]; norm_num
  have hb5 := length_written hb4 h5
  have h6 : 74 + (m.prevBlock.getD []).length ≤ 138 := by omega
  simp only [deserializeBlock, h, deref, Traced.ok, Traced.emit_mk, Traced.bind_mk_some, hs,
    ne_eq, not_true_eq_false, if_false, ← hdate, copyToBlock_fits _ _ hb h1,
    copyToBlock_fits _ _ hb1 h2, copyToBlock_fits _ _ hb2 h3, copyToBlock_fits _ _ hb5 h6, Traced.pure_eq, hlen]
  rfl

theorem zeros_length : (List.replicate 138 (0 : UInt8)).length = 138 := List.length_replicate

theorem date_fits (object : List UInt8) (behind : ℕ → UInt8) :
    15 + (readObject 35 object behind).length ≤ 138 := by
  rw [length_readObject]
  norm_num

/-- The three fields are copied one after the other, each one whatever its length, as long as
the copies before it stay in the block. -/
theorem fields_copied (h : p2p.unpack bufIn = some m) (hs : m.statusCode = .block) :
    fieldCopy (m.merkleRoot.getD []).length 32 ∈
      (deserializeBlock p2p dateOf behind bufIn).trace ∧
    ((m.merkleRoot.getD []).length ≤ 32 → fieldCopy (m.nonce.getD []).length 15 ∈
      (deserializeBlock p2p dateOf behind bufIn).trace) ∧
    ((m.merkleRoot.getD []).length ≤ 32 → (m.nonce.getD []).length ≤ 15 →
      fieldCopy (m.prevBlock.getD []).length 32 ∈
        (deserializeBlock p2p dateOf behind bufIn).trace) := by
  have hword := length_wordBytes
  have hdate := copyToBlock_fits 35 (dateOf m).bytes.length zeros_length
    (date_fits (dateOf m).bytes behind)
  have hb1 := length_written zeros_length (date_fits (dateOf m).bytes behind)
  refine ⟨?_, fun hroot => ?_, fun hroot hnonce => ?_⟩
  all_goals
    rw [deserializeBlock, h]
    apply Traced.mem_bind_right rfl
    rw [if_neg (not_not_intro hs)]
    apply Traced.mem_bind_right (congrArg Traced.result hdate)
  · apply Traced.mem_bind_left
    rw [copyToBlock_trace]
    exact List.mem_singleton_self _
  · have h2 : 106 + (m.merkleRoot.getD []).length ≤ 138 := by omega
    apply Traced.mem_bind_right (congrArg Traced.result (copyToBlock_fits _ _ hb1 h2))
    apply Traced.mem_bind_left
    rw [copyToBlock_trace]
    exact List.mem_singleton_self _
  · have h2 : 106 + (m.merkleRoot.getD []).length ≤ 138 := by omega
    have hb2 := length_written hb1 h2
    have h3 : 0 + (m.nonce.getD []).length ≤ 138 := by omega
    apply Traced.mem_bind_right (congrArg Traced.result (copyToBlock_fits _ _ hb1 h2))
    apply Traced.mem_bind_right (congrArg Traced.result (copyToBlock_fits _ _ hb2 h3))
    apply Traced.mem_bind_left
    rw [copyToBlock_trace]
    exact List.mem_singleton_self _

theorem inBounds_fieldCopy {r : Traced DecodeEvent (Option (List UInt8))} {n room : ℕ}
    (h : ∀ c, .copy c ∈ r.trace → c.InBounds) (hmem : fieldCopy n room ∈ r.trace) : n ≤ room :=
  (h ⟨n, room, n⟩ hmem).1

theorem complete_of_accepts (h : p2p.unpack bufIn = some m) (hs : m.statusCode = .block)
    (ha : AcceptsComplete m (deserializeBlock p2p dateOf behind bufIn)) :
    Complete m ∧ 35 ≤ (dateOf m).bytes.length := by
  obtain ⟨hrootMem, hnonceMem, hprevMem⟩ := fields_copied dateOf behind h hs
  have hroot := inBounds_fieldCopy ha.inBounds hrootMem
  have hnonce := inBounds_fieldCopy ha.inBounds (hnonceMem hroot)
  have hprev := inBounds_fieldCopy ha.inBounds (hprevMem hroot hnonce)
  have hrun := deserializeBlock_block dateOf behind h hs hroot hnonce hprev
  rw [hrun] at ha
  refine ⟨ha.complete _ rfl, ?_⟩
  have hdate := ha.inBounds ⟨35, 35, (dateOf m).bytes.length⟩ (by simp [copies])
  exact hdate.2

theorem accepts_of_complete (h : p2p.unpack bufIn = some m) (hc : Complete m)
    (hdate : 35 ≤ (dateOf m).bytes.length) :
    AcceptsComplete m (deserializeBlock p2p dateOf behind bufIn) := by
  obtain ⟨r, hr, hrlen⟩ := hc.merkleRoot
  obtain ⟨n, hn, hnlen⟩ := hc.nonce
  obtain ⟨b, hb, hblen⟩ := hc.prevBlock
  rw [deserializeBlock_block _ _ h hc.status (by simp [hr, hrlen]) (by simp [hn, hnlen])
    (by simp [hb, hblen])]
  refine ⟨fun _ _ => hc, ?_⟩
  intro c hmem
  simp only [copies, fieldCopy, hr, hn, hb, Option.getD_some, hrlen, hnlen, hblen, List.mem_cons,
    reduceCtorEq, false_or, DecodeEvent.copy.injEq, List.not_mem_nil, or_false] at hmem
  rcases hmem with rfl | rfl | rfl | rfl
  · exact ⟨le_rfl, hdate⟩
  all_goals exact ⟨le_rfl, le_rfl⟩

end Run

/-- For every byte string the library accepts: a block is returned for a complete message
only and every copy stays in bounds exactly if the status is not `BLOCK`, or the message is
complete and the object of its date has at least 35 bytes. -/
theorem deserializeBlock_acceptsComplete_iff (p2p : P2pCodec)
    (dateOf : (m : P2pIpcMessage) → StringObject m.date) (behind : ℕ → UInt8)
    (bufIn : List UInt8) (m : P2pIpcMessage) (h : p2p.unpack bufIn = some m) :
    AcceptsComplete m (deserializeBlock p2p dateOf behind bufIn) ↔
      m.statusCode ≠ .block ∨ Complete m ∧ 35 ≤ (dateOf m).bytes.length := by
  by_cases hs : m.statusCode = .block
  · constructor
    · intro ha
      exact Or.inr (complete_of_accepts dateOf behind h hs ha)
    · rintro (hne | ⟨hc, hdate⟩)
      · exact absurd hs hne
      · exact accepts_of_complete dateOf behind h hc hdate
  · refine iff_of_true ?_ (Or.inl hs)
    rw [deserializeBlock_other _ _ h hs]
    refine ⟨?_, ?_⟩
    · intro block hblock
      cases hblock
    · intro c hmem
      simp at hmem

theorem copyField_spec {n : ℕ} {field : Option (List UInt8)} {v : Vector UInt8 n}
    (h : P2pSerdes.copyField n field = some v) : (field.getD []).length ≤ n ∧
      v.toList = field.getD [] ++ List.replicate (n - (field.getD []).length) 0 := by
  rw [P2pSerdes.copyField] at h
  split_ifs at h with hlen
  refine ⟨hlen, ?_⟩
  rw [← Option.some.inj h]
  simp

theorem copyDate_toList (date : CString) (behind : ℕ → UInt8) :
    (P2pSerdes.copyDate date behind).toList =
      readObject 35 (StringObject.ofString date).bytes behind := by
  apply List.ext_getElem
  · simp [readObject]
  · intro i hi hi'
    simp [readObject, StringObject.ofString, P2pSerdes.copyDate]

/-- A message without an inner zero in its date is decoded to the bytes of the block that
`P2pSerdes` makes of it. -/
theorem deserializeBlock_refines (p2p : P2pCodec) (behind : ℕ → UInt8) (bufIn : List UInt8)
    {r : Option Block} (h : P2pSerdes.deserializeBlock p2p behind bufIn = some r) :
    (deserializeBlock p2p (fun m => .ofString m.date) behind bufIn).result =
      some (r.map blockBytes) := by
  simp only [P2pSerdes.deserializeBlock, Option.bind_eq_bind, Option.bind_eq_some_iff] at h
  obtain ⟨m, hm, h⟩ := h
  split_ifs at h with hs
  · rw [deserializeBlock_other _ _ hm hs, ← Option.some.inj h]
    rfl
  · simp only [Option.bind_eq_some_iff, Option.some.injEq] at h
    obtain ⟨root, hroot, nonce, hnonce, prev, hprev, rfl⟩ := h
    obtain ⟨hrootLen, hroot⟩ := copyField_spec hroot
    obtain ⟨hnonceLen, hnonce⟩ := copyField_spec hnonce
    obtain ⟨hprevLen, hprev⟩ := copyField_spec hprev
    rw [deserializeBlock_block _ _ hm (not_not.mp hs) hrootLen hnonceLen hprevLen,
      written_eq (length_readObject _ _ _) hrootLen hnonceLen hprevLen]
    simp only [Option.map_some, blockBytes, hroot, hnonce, hprev, copyDate_toList]

section Demonstration
open P2pSerdes

/-- A date of 34 characters, the longest one whose string fits the field of a block. -/
def longDate : List UInt8 := List.replicate 34 49

theorem longDate_noNul : 0 ∉ longDate := by decide

def longDateMessage : P2pIpcMessage :=
  ⟨⟨longDate, longDate_noNul⟩, some 1, some 2, some 3, some (List.replicate 32 7),
    some (List.replicate 15 5), some (List.replicate 32 0), .block⟩

theorem deserializeBlock_acceptsComplete_longDate :
    AcceptsComplete longDateMessage (deserializeBlock p2pWireCodec (fun m => .ofString m.date)
      (fun _ => 1) (p2pWireCodec.pack longDateMessage)) := by
  have hunpack : p2pWireCodec.unpack (p2pWireCodec.pack longDateMessage) = some longDateMessage :=
    p2pWireCodec.unpack_pack (by intro n; simp [longDateMessage])
  apply (deserializeBlock_acceptsComplete_iff p2pWireCodec _ _ _ _ hunpack).mpr
  refine Or.inr ⟨?_, by decide⟩
  exact ⟨rfl, ⟨_, rfl, by simp⟩, ⟨_, rfl, by simp⟩, ⟨_, rfl, by simp⟩, ⟨_, rfl⟩, ⟨_, rfl⟩, ⟨_, rfl⟩⟩

/-- A frame with a date and the status `BLOCK` and nothing else is taken for a block, with
zeros for its root, nonce and predecessor, and the copy of its date reads eleven bytes past
the string. -/
theorem deserializeBlock_accepts_empty :
    p2pWireCodec.unpack (p2pSendStatus p2pWireCodec newYearDate .block) =
      some (statusMessage newYearDate .block) ∧
    (∃ block, (deserializeBlock p2pWireCodec (fun m => .ofString m.date) (fun _ => 1)
      (p2pSendStatus p2pWireCodec newYearDate .block)).result = some (some block)) ∧
    ¬ Complete (statusMessage newYearDate .block) ∧
    ¬ AcceptsComplete (statusMessage newYearDate .block)
      (deserializeBlock p2pWireCodec (fun m => .ofString m.date) (fun _ => 1)
        (p2pSendStatus p2pWireCodec newYearDate .block)) := by
  have hunpack : p2pWireCodec.unpack (p2pSendStatus p2pWireCodec newYearDate .block) =
      some (statusMessage newYearDate .block) :=
    p2pWireCodec.unpack_pack (by intro n; simp [statusMessage])
  have hrun := deserializeBlock_block (fun m => .ofString m.date) (fun _ => 1) hunpack rfl
    (by simp [statusMessage]) (by simp [statusMessage]) (by simp [statusMessage])
  have hnot : ¬ Complete (statusMessage newYearDate .block) := by
    intro hc
    obtain ⟨r, hr, -⟩ := hc.merkleRoot
    cases hr
  rw [hrun]
  refine ⟨hunpack, ⟨_, rfl⟩, hnot, ?_⟩
  intro ha
  exact hnot (ha.complete _ rfl)

end Demonstration

end CBlockchain.BlockDecoder
