import Mathlib

/-! The 64-bit tags that travel with io_uring requests: a state flag in the upper half,
a socket number in the lower one. -/
namespace CBlockchain

/-- A C `int` that names a socket, or the error code a call returned instead. -/
abbrev Fd := BitVec 32

inductive FlagState where
  | flagAccept | testResponse | readResponse | waitAcknowledgement | flagSendTransactions
  | flagCloseConnection | flagRead | flagWrite
  deriving DecidableEq, Repr

namespace FlagState

def code : FlagState → BitVec 64
  | flagAccept => 0 | testResponse => 1 | readResponse => 2 | waitAcknowledgement => 3
  | flagSendTransactions => 4 | flagCloseConnection => 5 | flagRead => 6 | flagWrite => 7

/-- The cast to `flag_state`; other values match no case label. -/
def ofCode : ℕ → Option FlagState
  | 0 => some flagAccept | 1 => some testResponse | 2 => some readResponse
  | 3 => some waitAcknowledgement | 4 => some flagSendTransactions | 5 => some flagCloseConnection
  | 6 => some flagRead | 7 => some flagWrite
  | _ => none

theorem ofCode_eq_some_iff {n : ℕ} {flag : FlagState} :
    ofCode n = some flag ↔ n = flag.code.toNat := by
  constructor
  · intro h
    unfold ofCode at h
    split at h <;> cases h <;> rfl
  · rintro rfl
    cases flag <;> rfl

theorem code_lt (flag : FlagState) : flag.code.toNat < 2 ^ 3 := by
  cases flag <;> decide

end FlagState

namespace RequestData

/-- The socket number is converted to 64 bits with its sign. -/
def makeRequestData (clientFd : Fd) (flag : FlagState) : BitVec 64 :=
  flag.code <<< 32 ||| clientFd.signExtend 64

def requestDataClientFd (requestData : BitVec 64) : Fd :=
  (requestData &&& 0xFFFFFFFF#64).setWidth 32

def requestDataEventType (requestData : BitVec 64) : Option FlagState :=
  FlagState.ofCode ((requestData &&& 0xFFFFFFFF00000000#64) >>> 32).toNat

theorem getLsbD_lowMask (i : ℕ) : (0xFFFFFFFF#64).getLsbD i = decide (i < 32) := by
  have hones : (0xFFFFFFFF#64) = (BitVec.allOnes 32).setWidth 64 := by decide
  rw [hones, BitVec.getLsbD_setWidth, BitVec.getLsbD_allOnes]
  by_cases h32 : i < 32
  · simp only [h32, decide_true, Bool.and_true, decide_eq_true_eq]
    omega
  · simp [h32]

theorem getLsbD_highMask {i : ℕ} (hi : i < 32) :
    (0xFFFFFFFF00000000#64).getLsbD (32 + i) = true := by
  have hones : (0xFFFFFFFF00000000#64) = BitVec.allOnes 64 <<< 32 := by decide
  rw [hones, BitVec.getLsbD_shiftLeft, BitVec.getLsbD_allOnes]
  simp only [Bool.and_eq_true, decide_eq_true_eq, Bool.not_eq_true', decide_eq_false_iff_not]
  omega

theorem clientFd_tag (code : BitVec 64) (clientFd : Fd) :
    requestDataClientFd (code <<< 32 ||| clientFd.signExtend 64) = clientFd := by
  apply BitVec.eq_of_getLsbD_eq
  intro i hi
  have h64 : i < 64 := by omega
  simp only [requestDataClientFd, BitVec.getLsbD_setWidth, BitVec.getLsbD_and,
    BitVec.getLsbD_or, BitVec.getLsbD_shiftLeft, BitVec.getLsbD_signExtend, getLsbD_lowMask, hi, h64]
  simp

@[simp] theorem requestDataClientFd_make (clientFd : Fd) (flag : FlagState) :
    requestDataClientFd (makeRequestData clientFd flag) = clientFd := clientFd_tag _ _

@[simp] theorem requestDataClientFd_signExtend (res : BitVec 32) :
    requestDataClientFd (res.signExtend 64) = res := by
  have h := requestDataClientFd_make res .flagAccept
  simpa [makeRequestData, FlagState.code] using h

theorem getLsbD_upper (code : BitVec 64) (clientFd : Fd) (i : ℕ) :
    (((code <<< 32 ||| clientFd.signExtend 64) &&& 0xFFFFFFFF00000000#64) >>> 32).getLsbD i =
      (decide (i < 32) && (code.getLsbD i || clientFd.msb)) := by
  by_cases h32 : i < 32
  · have h64 : 32 + i < 64 := by omega
    simp only [BitVec.getLsbD_ushiftRight, BitVec.getLsbD_and, BitVec.getLsbD_or,
      BitVec.getLsbD_shiftLeft, BitVec.getLsbD_signExtend, getLsbD_highMask h32, h32, h64]
    simp
  · rw [BitVec.getLsbD_ushiftRight, BitVec.getLsbD_of_ge _ _ (by omega)]
    simp [h32]

/-- The upper half of a tag is the flag it was made with. -/
theorem upper_tag {code : BitVec 64} (hcode : code.toNat < 2 ^ 3) {clientFd : Fd}
    (hfd : clientFd.msb = false) :
    ((code <<< 32 ||| clientFd.signExtend 64) &&& 0xFFFFFFFF00000000#64) >>> 32 = code := by
  apply BitVec.eq_of_getLsbD_eq
  intro i hi
  rw [getLsbD_upper, hfd, Bool.or_false]
  by_cases h32 : i < 32
  · simp [h32]
  · have hpow : 2 ^ 3 ≤ 2 ^ i := Nat.pow_le_pow_right (by norm_num) (by omega)
    have hzero : code.getLsbD i = false := Nat.testBit_lt_two_pow (lt_of_lt_of_le hcode hpow)
    simp [h32, hzero]

/-- A negative number fills the upper half. -/
theorem upper_tag_neg (code : BitVec 64) {clientFd : Fd} (hfd : clientFd.msb = true) :
    ((code <<< 32 ||| clientFd.signExtend 64) &&& 0xFFFFFFFF00000000#64) >>> 32 =
      0xFFFFFFFF#64 := by
  apply BitVec.eq_of_getLsbD_eq
  intro i hi
  rw [getLsbD_upper, hfd, Bool.or_true, Bool.and_true, getLsbD_lowMask]

theorem requestDataEventType_make {clientFd : Fd} (hfd : clientFd.msb = false)
    (flag : FlagState) : requestDataEventType (makeRequestData clientFd flag) = some flag := by
  rw [requestDataEventType, makeRequestData, upper_tag flag.code_lt hfd]
  exact FlagState.ofCode_eq_some_iff.mpr rfl

/-- The tags of a negative number match no case label. -/
theorem requestDataEventType_neg {clientFd : Fd} (hfd : clientFd.msb = true)
    (flag : FlagState) : requestDataEventType (makeRequestData clientFd flag) = none := by
  rw [requestDataEventType, makeRequestData, upper_tag_neg _ hfd]
  rfl

end RequestData
end CBlockchain
