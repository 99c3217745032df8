import BinaryDelta.Instruction

/-!
# A log of sink calls

`CallLog` records the calls it gets, byte by byte, and can be told to fail after so many of them. It
shows in which order an operation talks to its sink and what it does when the sink gives up.
-/

namespace BinaryDelta

/-- One call to a sink. -/
inductive SinkCall where
  | copy (offset length : Nat)
  | byte (byte : UInt8)
  | flush
  | close
  deriving Repr, DecidableEq

/-- The calls so far, and how many are allowed. -/
structure CallLog where
  calls : Array SinkCall := #[]
  allowed : Option Nat := none
  deriving Repr, DecidableEq

namespace CallLog

/-- Records a call, if it is still allowed. -/
def record : CallLog → SinkCall → Except DeltaError Unit × CallLog
  | ⟨calls, allowed⟩, call =>
    if allowed.any (· ≤ calls.size) then (.error (.io (.device "sink failed")), ⟨calls, allowed⟩)
    else (.ok (), ⟨calls.push call, allowed⟩)

instance : InstructionSink CallLog where
  addCopy log offset length := log.record (.copy offset length)
  addByte log byte := log.record (.byte byte)
  addLiteral log bytes := addEach (fun log byte => log.record (.byte byte)) log bytes.data.toList
  flush log := log.record .flush
  close log := log.record .close

end CallLog

end BinaryDelta
