import CBlockchain.BlockData
import CBlockchain.P2pMessage

/-! The frames peers exchange: status frames, and a finished block. The receiver of a block
copies 35 bytes from the unpacked date, whose object ends behind the terminator: the rest
of the date comes from whatever lies behind it in memory. -/
namespace CBlockchain.P2pSerdes
open BlockData
variable (codec : P2pCodec)

/-- `P2P_serialize_block_to_sock`: the bytes it writes. The date is read as a string; one
without a terminator runs on into the fields behind it. -/
def p2pSerializeBlockToSock (aBlock : Block) : List UInt8 :=
  codec.pack
    { date := .ofBuffer ((blockBytes aBlock).drop 15)
      timestampBegin := some aBlock.timestampBegin
      timestampEnd := some aBlock.timestampEnd
      difficulty := some aBlock.difficulty
      merkleRoot := some aBlock.merkleRoot.toList
      nonce := some aBlock.nonce.toList
      prevBlock := some aBlock.previousBlock.toList
      statusCode := .block }

/-- A message that carries a status and the clock as `get_timestamp` formats it. -/
def statusMessage (date : CString) (status : P2pStatus) : P2pIpcMessage :=
  ⟨date, none, none, none, none, none, none, status⟩

def p2pSendStatus (date : CString) (status : P2pStatus) : List UInt8 :=
  codec.pack (statusMessage date status)

/-- The status is read after the message has been released. -/
def p2pDeserializeStatus (buff : List UInt8) : Option P2pStatus :=
  (codec.unpack buff).map codec.statusAfterFree

theorem p2pDeserializeStatus_eq (buff : List UInt8) :
    p2pDeserializeStatus codec buff = (codec.unpack buff).map P2pIpcMessage.statusCode := by
  rw [p2pDeserializeStatus, funext codec.statusAfterFree_eq]

/-- The 35 bytes from the start of a string on: the string, its terminator, and what lies
behind its object. -/
def copyDate (date : CString) (behind : ℕ → UInt8) : Vector UInt8 35 :=
  Vector.ofFn fun i =>
    ((date.bytes ++ [0])[i.val]?).getD (behind (i.val - (date.bytes.length + 1)))

/-- `memcpy` of a whole field into a zeroed array; a longer field overruns the array. -/
def copyField (n : ℕ) (field : Option (List UInt8)) : Option (Vector UInt8 n) :=
  let data := field.getD []
  if h : data.length ≤ n then
    some ⟨(data ++ List.replicate (n - data.length) 0).toArray, by simp; omega⟩
  else none

/-- The outer `none` is a fault, the inner one the null pointer that is returned for any
other status. -/
def deserializeBlock (behind : ℕ → UInt8) (bufIn : List UInt8) : Option (Option Block) := do
  let message ← codec.unpack bufIn
  if message.statusCode ≠ .block then some none
  else do
    let merkleRoot ← copyField 32 message.merkleRoot
    let nonce ← copyField 15 message.nonce
    let previousBlock ← copyField 32 message.prevBlock
    some (some
      { nonce := nonce
        date := copyDate message.date behind
        timestampBegin := message.timestampBegin.getD 0
        timestampEnd := message.timestampEnd.getD 0
        difficulty := message.difficulty.getD 0
        previousBlock := previousBlock
        merkleRoot := merkleRoot })

/-- The date field is the string `s`, its terminator and zeros. -/
structure DatePadded (b : Block) (s : CString) : Prop where
  length_le : s.bytes.length ≤ 34
  date : b.date.toList = s.bytes ++ List.replicate (35 - s.bytes.length) 0

section RoundTrip
variable {codec} {b : Block} {s : CString}

theorem copyField_toList {n : ℕ} (v : Vector UInt8 n) : copyField n (some v.toList) = some v := by
  have hlen : v.toList.length ≤ n := by simp
  simp only [copyField, Option.getD_some, dif_pos hlen, Option.some.injEq]
  apply Vector.toList_inj.mp
  simp

theorem DatePadded.ofBuffer (h : DatePadded b s) (rest : List UInt8) :
    CString.ofBuffer (b.date.toList ++ rest) = s := by
  have hlen := h.length_le
  obtain ⟨k, hk⟩ : ∃ k, 35 - s.bytes.length = k + 1 := ⟨34 - s.bytes.length, by omega⟩
  have hs : ∀ x ∈ s.bytes, decide (x ≠ 0) = true := by
    intro x hx
    rw [decide_eq_true_eq]
    rintro rfl
    exact s.noNul hx
  obtain ⟨bytes, noNul⟩ := s
  rw [CString.ofBuffer, CString.mk.injEq, h.date, hk, List.replicate_succ, List.append_assoc,
    List.takeWhile_append_of_pos hs]
  simp

theorem DatePadded.ofBlock (h : DatePadded b s) :
    CString.ofBuffer ((blockBytes b).drop 15) = s := by
  have hdrop : (blockBytes b).drop 15 = b.date.toList ++ (wordBytes b.timestampBegin ++
      wordBytes b.timestampEnd ++ wordBytes b.difficulty ++ b.previousBlock.toList ++
      b.merkleRoot.toList) := by
    simp [blockBytes, List.append_assoc]
  rw [hdrop, h.ofBuffer]

/-- What arrives is the block with the date as it is copied. -/
theorem deserialize_serialize (b : Block) (behind : ℕ → UInt8) :
    deserializeBlock codec behind (p2pSerializeBlockToSock codec b) =
      some (some { b with date := copyDate (.ofBuffer ((blockBytes b).drop 15)) behind }) := by
  rw [p2pSerializeBlockToSock, deserializeBlock, codec.unpack_pack (by intro n; simp)]
  simp [copyField_toList]

theorem deserializeStatus_sendStatus {date : CString} {st : P2pStatus} (hst : st.Named) :
    p2pDeserializeStatus codec (p2pSendStatus codec date st) = some st := by
  rw [p2pDeserializeStatus_eq, p2pSendStatus, codec.unpack_pack hst]
  rfl

theorem deserializeStatus_block :
    p2pDeserializeStatus codec (p2pSerializeBlockToSock codec b) = some .block := by
  rw [p2pDeserializeStatus_eq, p2pSerializeBlockToSock, codec.unpack_pack (by intro n; simp)]
  rfl

theorem copyDate_getElem (date : CString) (behind : ℕ → UInt8) (i : ℕ) (hi : i < 35) :
    (copyDate date behind)[i] =
      ((date.bytes ++ [0])[i]?).getD (behind (i - (date.bytes.length + 1))) := by
  simp [copyDate]

theorem DatePadded.copyDate_zero (h : DatePadded b s) : copyDate s (fun _ => 0) = b.date := by
  have hlen := h.length_le
  obtain ⟨k, hk⟩ : ∃ k, 35 - s.bytes.length = k + 1 := ⟨34 - s.bytes.length, by omega⟩
  apply Vector.ext
  intro i hi
  have hget : b.date[i]? = (s.bytes ++ List.replicate (35 - s.bytes.length) 0)[i]? := by
    rw [← h.date, Vector.getElem?_toList]
  rw [Vector.getElem?_eq_getElem hi] at hget
  rw [copyDate_getElem]
  rcases Nat.lt_trichotomy i s.bytes.length with hlt | heq | hgt
  · rw [List.getElem?_append_left hlt] at hget ⊢
    rw [← hget, Option.getD_some]
  · rw [List.getElem?_append_right (by omega), List.getElem?_replicate, if_pos (by omega),
      Option.some.injEq] at hget
    rw [hget, List.getElem?_append_right (by omega), heq]
    simp
  · rw [List.getElem?_append_right (by omega), List.getElem?_replicate, if_pos (by omega),
      Option.some.injEq] at hget
    rw [hget, List.getElem?_eq_none (by simp; omega), Option.getD_none]

/-- The copied date is right exactly if zeros lie behind the string. -/
theorem DatePadded.copyDate_eq_iff (h : DatePadded b s) (behind : ℕ → UInt8) :
    copyDate s behind = b.date ↔ ∀ i < 34 - s.bytes.length, behind i = 0 := by
  rw [← h.copyDate_zero]
  constructor
  · intro heq i hi
    have hget := congrArg (fun v : Vector UInt8 35 => v[s.bytes.length + 1 + i]?) heq
    have hlt : s.bytes.length + 1 + i < 35 := by omega
    simp only [Vector.getElem?_eq_getElem hlt, copyDate_getElem, Option.some.injEq] at hget
    rw [List.getElem?_eq_none (by simp)] at hget
    simpa [Nat.add_sub_cancel_left] using hget
  · intro hzero
    apply Vector.ext
    intro i hi
    rw [copyDate_getElem, copyDate_getElem]
    by_cases hin : i < s.bytes.length + 1
    · rw [List.getElem?_eq_getElem (by simpa using hin), Option.getD_some, Option.getD_some]
    · rw [hzero _ (by omega)]

theorem blockBytes_date_eq_iff (b : Block) (date : Vector UInt8 35) :
    blockBytes { b with date := date } = blockBytes b ↔ date = b.date := by
  constructor
  · intro h
    simp only [blockBytes, List.append_assoc] at h
    have hrest := List.append_cancel_left h
    exact Vector.toList_inj.mp (List.append_inj hrest (by simp)).1
  · rintro rfl
    rfl

end RoundTrip

/-- For every block whose date is padded with zeros and whatever lies behind the unpacked
date: a block arrives, equal in all other fields. It is equal in all its bytes exactly if
the bytes behind the date, up to its 35th, are zero, and both peers then link to it by the
same hash. -/
theorem block_survives_iff (codec : P2pCodec) (b : Block) (s : CString) (behind : ℕ → UInt8)
    (h : DatePadded b s) :
    ∃ b', deserializeBlock codec behind (p2pSerializeBlockToSock codec b) = some (some b') ∧
      b'.nonce = b.nonce ∧ b'.timestampBegin = b.timestampBegin ∧
      b'.timestampEnd = b.timestampEnd ∧ b'.difficulty = b.difficulty ∧
      b'.previousBlock = b.previousBlock ∧ b'.merkleRoot = b.merkleRoot ∧
      (blockBytes b' = blockBytes b ↔ ∀ i < 34 - s.bytes.length, behind i = 0) ∧
      ((∀ i < 34 - s.bytes.length, behind i = 0) →
        ∀ (H : GenericHash) (r : Digest) (clock clock' : Clock),
          (createBlockDummy H (some b') r clock).previousBlock =
            (createBlockDummy H (some b) r clock').previousBlock) := by
  have hbytes : blockBytes { b with date := copyDate s behind } = blockBytes b ↔
      ∀ i < 34 - s.bytes.length, behind i = 0 := by
    rw [blockBytes_date_eq_iff, h.copyDate_eq_iff]
  have hdes := @deserialize_serialize codec b behind
  rw [h.ofBlock] at hdes
  refine ⟨_, hdes, rfl, rfl, rfl, rfl, rfl, rfl, hbytes, ?_⟩
  intro hzero H r clock clock'
  exact congrArg H (hbytes.mpr hzero)

section Created

theorem datePadded_copyDate (b : Block) {s : CString} (hlen : s.bytes.length ≤ 34) :
    DatePadded { b with date := copyDate s fun _ => 0 } s where
  length_le := hlen
  date := by
    apply List.ext_getElem
    · simp
      omega
    · intro i hi hi'
      have hi35 : i < 35 := by simpa using hi
      rw [Vector.getElem_toList, copyDate_getElem _ _ _ hi35]
      rcases Nat.lt_trichotomy i s.bytes.length with hlt | heq | hgt
      · rw [List.getElem?_append_left hlt, List.getElem_append_left hlt,
          List.getElem?_eq_getElem hlt, Option.getD_some]
      · rw [List.getElem_append_right (by omega), List.getElem?_append_right (by omega)]
        simp [heq]
      · rw [List.getElem_append_right (by omega), List.getElem?_eq_none (by simp; omega)]
        simp

/-- `create_block_dummy` leaves a padded date. -/
theorem datePadded_createBlockDummy (H : GenericHash) (prev : Option Block) (r : Digest)
    (clock : Clock) :
    DatePadded (createBlockDummy H prev r clock) ⟨clock.date.bytes, clock.date.noNul⟩ := by
  have hlen : clock.date.bytes.length ≤ 34 := by
    have := clock.date.length_lt
    omega
  have hdate : (createBlockDummy H prev r clock).date =
      copyDate ⟨clock.date.bytes, clock.date.noNul⟩ fun _ => 0 := by
    apply Vector.ext
    intro i hi
    simp [createBlockDummy, getTimestamp, copyDate]
  have hpad := datePadded_copyDate (createBlockDummy H prev r clock)
    (s := ⟨clock.date.bytes, clock.date.noNul⟩) hlen
  rw [← hdate] at hpad
  exact hpad

/-- `01/01/2024 00:00:00 GMT` -/
def newYear : List UInt8 :=
  [48, 49, 47, 48, 49, 47, 50, 48, 50, 52, 32, 48, 48, 58, 48, 48, 58, 48, 48, 32, 71, 77, 84]

theorem newYear_length : newYear.length < 32 := by decide

theorem newYear_noNul : 0 ∉ newYear := by decide

def newYearClock : Clock := ⟨⟨newYear, newYear_length, newYear_noNul⟩, 0⟩

/-- Bytes 15 to 46 of the input, padded with zeros. -/
def dateHash : GenericHash := fun x => Vector.ofFn fun i => x.getD (15 + i) 0

def newYearBlock : Block := createBlockDummy dateHash none (Vector.replicate 32 7) newYearClock

end Created

section Lengths
open WireFormat P2pWireCodec

def newYearDate : CString := ⟨newYear, newYear_noNul⟩

theorem length_newYearStatus {st : P2pStatus} (hst : st.Named) :
    (p2pSendStatus p2pWireCodec newYearDate st).length = 27 := by
  have hcode : st.code < 128 := by
    cases st with
    | unnamed n => exact absurd rfl (hst n)
    | _ => decide
  simp [p2pSendStatus, statusMessage, p2pWireCodec, fields, presentFields, numbers, fieldValue,
    putFields, putField, putVarint_small, hcode, newYearDate, newYear]

theorem length_newYearBlock : (p2pSerializeBlockToSock p2pWireCodec newYearBlock).length = 118 := by
  have hpad : DatePadded newYearBlock ⟨newYear, newYear_noNul⟩ :=
    datePadded_createBlockDummy _ _ _ _
  have hbegin : newYearBlock.timestampBegin = 0 := rfl
  have hend : newYearBlock.timestampEnd = 0 := rfl
  have hdifficulty : newYearBlock.difficulty = 0 := rfl
  rw [p2pSerializeBlockToSock, hpad.ofBlock]
  simp [p2pWireCodec, fields, presentFields, numbers, fieldValue, putFields, putField,
    putVarint_small, hbegin, hend, hdifficulty, newYear, P2pStatus.code]

end Lengths

theorem block_survives_before_zeros : ∃ b',
    deserializeBlock p2pWireCodec (fun _ => 0) (p2pSerializeBlockToSock p2pWireCodec newYearBlock) =
      some (some b') ∧ blockBytes b' = blockBytes newYearBlock := by
  obtain ⟨b', hdes, -, -, -, -, -, -, hbytes, -⟩ := block_survives_iff p2pWireCodec newYearBlock
    ⟨newYear, newYear_noNul⟩ (fun _ => 0) (datePadded_createBlockDummy _ _ _ _)
  exact ⟨b', hdes, hbytes.mpr fun _ _ => rfl⟩

/-- With ones behind the unpacked date, the block that arrives has ones behind its date,
and the two peers link to it by different hashes. -/
theorem block_does_not_survive : ∃ b',
    deserializeBlock p2pWireCodec (fun _ => 1) (p2pSerializeBlockToSock p2pWireCodec newYearBlock) =
      some (some b') ∧ blockBytes b' ≠ blockBytes newYearBlock ∧
    (createBlockDummy dateHash (some b') (Vector.replicate 32 7) newYearClock).previousBlock ≠
      (createBlockDummy dateHash (some newYearBlock) (Vector.replicate 32 7)
        newYearClock).previousBlock := by
  have hpad : DatePadded newYearBlock ⟨newYear, newYear_noNul⟩ :=
    datePadded_createBlockDummy _ _ _ _
  have hlink : dateHash (blockBytes { newYearBlock with
      date := copyDate ⟨newYear, newYear_noNul⟩ fun _ => 1 }) ≠
      dateHash (blockBytes newYearBlock) := by decide
  have hdes := @deserialize_serialize p2pWireCodec newYearBlock fun _ => 1
  rw [hpad.ofBlock] at hdes
  exact ⟨_, hdes, fun he => hlink (congrArg dateHash he), hlink⟩

end CBlockchain.P2pSerdes
