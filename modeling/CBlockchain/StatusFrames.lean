import CBlockchain.BlockData
import CBlockchain.Copying
import CBlockchain.P2pSerdes
import CBlockchain.Serdes

/-! The two versions of `send_ONLY_status_code`, over what the stack held before the call.
The client's formats the clock into its local array first; the server's packs the array as
it finds it. -/
namespace CBlockchain.StatusFrames
open Copying Serdes

/-- The local `char date[32]` before the call, and the memory behind it: a string without a
terminator in the array is read on into that. -/
structure DateArea where
  date : Vector UInt8 32
  behind : List UInt8

/-- What a reader of the array sees. -/
def DateArea.string (area : DateArea) : CString := .ofBuffer (area.date.toList ++ area.behind)

/-- `get_timestamp`: the formatted clock and its terminator, from the start of the buffer. -/
def getTimestamp (d : DateString) (buffer : List UInt8) : List UInt8 :=
  writeAt 0 (d.bytes ++ [0]) buffer

section Code
variable (codec : Codec)

/-- `send_ONLY_status_code` of the server: the bytes it packs. -/
def sendOnlyStatusCodeServer (area : DateArea) (clock : Clock) (status : Status) : List UInt8 :=
  codec.pack ⟨none, none, area.string, clock.epochNs, status⟩

/-- `send_ONLY_status_code` of the client. -/
def sendOnlyStatusCodeClient (area : DateArea) (clock : Clock) (status : Status) : List UInt8 :=
  let memory := getTimestamp clock.date (area.date.toList ++ area.behind)
  codec.pack ⟨none, none, .ofBuffer memory, clock.epochNs, status⟩

end Code

/-- The clock as `get_timestamp` formats it. -/
def dateOf (clock : Clock) : CString := ⟨clock.date.bytes, clock.date.noNul⟩

/-- Whatever the array held, the formatted clock is read from it. -/
theorem ofBuffer_getTimestamp (d : DateString) (buffer : List UInt8) :
    CString.ofBuffer (getTimestamp d buffer) = ⟨d.bytes, d.noNul⟩ := by
  have hpos : ∀ x ∈ d.bytes, decide (x ≠ 0) = true := by
    intro x hx
    rw [decide_eq_true_eq]
    rintro rfl
    exact d.noNul hx
  rw [CString.ofBuffer, CString.mk.injEq, getTimestamp, writeAt, List.take_zero, List.nil_append,
    List.append_assoc, List.takeWhile_append_of_pos hpos]
  simp

section Frames
variable {codec : Codec} {clock : Clock} {status : Status}

theorem sendOnlyStatusCodeServer_eq (area : DateArea) :
    sendOnlyStatusCodeServer codec area clock status =
      sendOnlyStatusCode codec ⟨area.string, clock.epochNs⟩ status := rfl

theorem sendOnlyStatusCodeClient_eq (area : DateArea) :
    sendOnlyStatusCodeClient codec area clock status =
      sendOnlyStatusCode codec ⟨dateOf clock, clock.epochNs⟩ status := by
  rw [sendOnlyStatusCodeClient, ofBuffer_getTimestamp]
  rfl

/-- A status frame gives its stamp away. -/
theorem sendOnlyStatusCode_inj (hs : status.Named) {date date' : CString} :
    sendOnlyStatusCode codec ⟨date, clock.epochNs⟩ status =
      sendOnlyStatusCode codec ⟨date', clock.epochNs⟩ status ↔ date = date' := by
  constructor
  · intro h
    have hunpack := congrArg codec.unpack h
    rw [sendOnlyStatusCode, sendOnlyStatusCode, codec.unpack_pack _ hs, codec.unpack_pack _ hs,
      Option.some.injEq, IpcMessage.mk.injEq] at hunpack
    exact hunpack.2.2.1
  · rintro rfl
    rfl

end Frames

/-- Two runs of each version with the same status and clock, on two stacks: each version
packs the same bytes in both runs, each frame is read back as the status, and the two
versions pack the same bytes. -/
structure RevealsOnlyStatus (codec : Codec) (clock : Clock) (status : Status)
    (area area' : DateArea) : Prop where
  server : sendOnlyStatusCodeServer codec area clock status =
    sendOnlyStatusCodeServer codec area' clock status
  client : sendOnlyStatusCodeClient codec area clock status =
    sendOnlyStatusCodeClient codec area' clock status
  serverRead : readOnlyStatusResponse codec (sendOnlyStatusCodeServer codec area clock status) =
    some status
  clientRead : readOnlyStatusResponse codec (sendOnlyStatusCodeClient codec area clock status) =
    some status
  agree : sendOnlyStatusCodeServer codec area clock status =
    sendOnlyStatusCodeClient codec area clock status

/-- Status frames reveal the status and the clock only, exactly if both stacks happen to hold
the formatted clock already. The client's frames do whatever its stack holds, and every
frame is read back as its status. -/
theorem revealsOnlyStatus_iff (codec : Codec) (clock : Clock) (status : Status)
    (hs : status.Named) (area area' : DateArea) :
    (RevealsOnlyStatus codec clock status area area' ↔
      area.string = dateOf clock ∧ area'.string = dateOf clock) ∧
    sendOnlyStatusCodeClient codec area clock status =
      sendOnlyStatusCodeClient codec area' clock status ∧
    readOnlyStatusResponse codec (sendOnlyStatusCodeClient codec area clock status) =
      some status ∧
    readOnlyStatusResponse codec (sendOnlyStatusCodeServer codec area clock status) =
      some status ∧
    (sendOnlyStatusCodeServer codec area clock status =
      sendOnlyStatusCodeServer codec area' clock status ↔ area.string = area'.string) := by
  have hclient : ∀ a, sendOnlyStatusCodeClient codec a clock status =
      sendOnlyStatusCode codec ⟨dateOf clock, clock.epochNs⟩ status :=
    fun a => sendOnlyStatusCodeClient_eq a
  have hreads : ∀ stamp, readOnlyStatusResponse codec (sendOnlyStatusCode codec stamp status) =
      some status := fun stamp => readOnlyStatusResponse_send codec stamp hs
  refine ⟨⟨?_, ?_⟩, ?_, ?_, ?_, ?_⟩
  · intro h
    have hagree := h.agree
    have hserver := h.server
    rw [hclient, sendOnlyStatusCodeServer_eq, sendOnlyStatusCode_inj hs] at hagree
    rw [sendOnlyStatusCodeServer_eq, sendOnlyStatusCodeServer_eq, sendOnlyStatusCode_inj hs]
      at hserver
    exact ⟨hagree, hserver.symm.trans hagree⟩
  · rintro ⟨h, h'⟩
    refine ⟨?_, ?_, ?_, ?_, ?_⟩
    · rw [sendOnlyStatusCodeServer_eq, sendOnlyStatusCodeServer_eq, h, h']
    · rw [hclient, hclient]
    · rw [sendOnlyStatusCodeServer_eq, hreads]
    · rw [hclient, hreads]
    · rw [hclient, sendOnlyStatusCodeServer_eq, h]
  · rw [hclient, hclient]
  · rw [hclient, hreads]
  · rw [sendOnlyStatusCodeServer_eq, hreads]
  · rw [sendOnlyStatusCodeServer_eq, sendOnlyStatusCodeServer_eq, sendOnlyStatusCode_inj hs]

section Demonstration
open P2pSerdes

/-- An array that holds a date from an earlier call. -/
def newYearArea : DateArea :=
  ⟨Vector.ofFn fun i => newYear.getD i 0, []⟩

/-- The same date with other bytes behind its terminator. -/
def usedArea : DateArea :=
  ⟨Vector.ofFn fun i => (newYear ++ [0]).getD i 255, []⟩

def zeroArea : DateArea := ⟨Vector.replicate 32 0, []⟩

theorem string_newYearArea : newYearArea.string = dateOf newYearClock := by decide

theorem string_usedArea : usedArea.string = dateOf newYearClock := by decide

theorem string_zeroArea : zeroArea.string ≠ dateOf newYearClock := by decide

theorem newYearArea_ne_usedArea : newYearArea ≠ usedArea := by
  intro h
  have hdate : newYearArea.date.toList = usedArea.date.toList := by rw [h]
  revert hdate
  decide

/-- Two prior contents that differ behind the date only. -/
theorem revealsOnlyStatus_newYear : newYearArea ≠ usedArea ∧
    RevealsOnlyStatus wireCodec newYearClock .askNeedMsg newYearArea usedArea :=
  ⟨newYearArea_ne_usedArea, (revealsOnlyStatus_iff wireCodec newYearClock .askNeedMsg (by intro n; simp)
    newYearArea usedArea).1.mpr ⟨string_newYearArea, string_usedArea⟩⟩

/-- With a date left on one stack and zeros on the other, the server's frame tells the two
apart; on the second stack the client's frame carries the clock and the server's does not. -/
theorem server_frame_reveals_stack :
    sendOnlyStatusCodeServer wireCodec newYearArea newYearClock .askNeedMsg ≠
      sendOnlyStatusCodeServer wireCodec zeroArea newYearClock .askNeedMsg ∧
    sendOnlyStatusCodeServer wireCodec zeroArea newYearClock .askNeedMsg ≠
      sendOnlyStatusCodeClient wireCodec zeroArea newYearClock .askNeedMsg ∧
    ¬ RevealsOnlyStatus wireCodec newYearClock .askNeedMsg newYearArea zeroArea := by
  have hs : Status.askNeedMsg.Named := by
    intro n
    simp
  have hserver : sendOnlyStatusCodeServer wireCodec newYearArea newYearClock .askNeedMsg ≠
      sendOnlyStatusCodeServer wireCodec zeroArea newYearClock .askNeedMsg := by
    rw [sendOnlyStatusCodeServer_eq, sendOnlyStatusCodeServer_eq, ne_eq, sendOnlyStatusCode_inj hs,
      string_newYearArea]
    exact fun h => string_zeroArea h.symm
  refine ⟨hserver, ?_, fun h => hserver h.server⟩
  rw [sendOnlyStatusCodeServer_eq, sendOnlyStatusCodeClient_eq, ne_eq, sendOnlyStatusCode_inj hs]
  exact string_zeroArea

end Demonstration
end CBlockchain.StatusFrames
