import BinaryDelta.Decimal.Shortest

/-!
# Faults and errors

Model of `DeltaError` and its messages, `from_wire` and `is_format_error`.

A `Fault` is what a stream, source or output answers when it fails; a `DeltaError` is what an
operation of this library answers. Both are causes, told apart by constructor; their wording is in
`Fault.message` and `DeltaError.message` alone.

Offsets and lengths are natural numbers here. Where nothing keeps a sum or a product of them within
64 bits, the operation says so by an `Overflow`: it is given up then, without an answer of its own.

Out of scope: memory that is asked for and cannot be had.
-/

namespace BinaryDelta

/-- Why a read, seek, write or flush failed. -/
inductive Fault where
  /-- A source of `length` bytes was asked to move beyond its end. -/
  | seekPastEnd (position length : Nat)
  /-- The device behind the stream failed, in its own words. -/
  | device (text : String)
  deriving Repr, DecidableEq

/-- Which setting or request is out of range. -/
inductive ConfigProblem where
  | chunkSize (size longest : Nat)
  | noProbes
  | emptyBlocks
  | zeroRuns (window : Nat) (ratio : Float)
  | indexSampling
  | literalOverrun (requested remaining : Nat)
  | noChecksums
  deriving Repr, DecidableEq

/-- What is wrong with a stored checksum table. -/
inductive SnapshotProblem where
  | truncated
  | blockSize (size : Int)
  | tableCount (count : Nat)
  deriving Repr, DecidableEq

/-- How a number left its range. -/
inductive Overflow where
  /-- A sum that is no 64-bit number. -/
  | sum
  /-- A product that is no 64-bit number. -/
  | product
  /-- The size of a buffer that is 2^63 or more. -/
  | capacity
  deriving Repr, DecidableEq

/-- Why computing, applying or merging deltas failed. -/
inductive DeltaError where
  | io (fault : Fault)
  | invalidMagic
  | unknownOpcode (opcode : UInt8) (position : Nat)
  | unexpectedEndOfData
  /-- A copy reached past the end of the source. -/
  | unexpectedEndOfSource (offset missing : Nat)
  /-- A stored offset led outside the addressable range. -/
  | invalidOffset (delta : Int) (base : Nat)
  | invalidConfig (problem : ConfigProblem)
  | sizeLimit (length limit : Nat)
  | rangeOutOfBounds (offset length available : Nat)
  | indexExhausted (attempts interval : Nat)
  | sinkClosed
  | invalidSnapshot (problem : SnapshotProblem)
  /-- A number left its range. The operation was given up at that point and has no answer. -/
  | overflow (problem : Overflow)
  deriving Repr, DecidableEq

namespace Fault

/-- The fault of an interruption that nobody repeats the call for. -/
def interruption : Fault := device "operation interrupted"

/-- The wording of a fault. -/
def message : Fault → String
  | seekPastEnd position length => s!"cannot seek to {position} in a source of {length} bytes"
  | device text => text

end Fault

namespace ConfigProblem

/-- The wording of a configuration problem. -/
def message : ConfigProblem → String
  | chunkSize size longest => s!"chunk size must be within 1..={longest}, got {size}"
  | noProbes => "at least one probe per position is required"
  | emptyBlocks => "block size must be positive"
  | zeroRuns window ratio =>
    "zero-run window must be positive and ratio within 0..=1 (got " ++ toString window ++ " and "
      ++ Decimal.shortest ratio ++ ")"
  | indexSampling => "index interval and attempts must be positive"
  | literalOverrun requested remaining =>
    s!"requested {requested} literal bytes but only {remaining} remain in the run"
  | noChecksums => "no checksum table to write; enable keep_source"

end ConfigProblem

namespace SnapshotProblem

/-- The wording of a snapshot problem. -/
def message : SnapshotProblem → String
  | truncated => "truncated snapshot"
  | blockSize size => s!"invalid block size {size}"
  | tableCount count => s!"invalid table count {count}"

end SnapshotProblem

/-- The wording of an overflow. -/
def Overflow.message : Overflow → String
  | sum => "attempt to add with overflow"
  | product => "attempt to multiply with overflow"
  | capacity => "capacity overflow"

/-- Two lower-case hexadecimal digits. -/
def hexByte (byte : UInt8) : String :=
  String.ofList [Nat.digitChar (byte.toNat / 16), Nat.digitChar (byte.toNat % 16)]

namespace DeltaError

/-- The wording of an error. -/
def message : DeltaError → String
  | io fault => "I/O error: " ++ fault.message
  | invalidMagic => "Invalid delta: magic string not found"
  | unknownOpcode opcode position =>
    "Invalid delta: unknown opcode 0x" ++ hexByte opcode ++ " at byte " ++ toString position
  | unexpectedEndOfData => "Unexpected end of delta data"
  | unexpectedEndOfSource offset missing =>
    s!"Unexpected end of source: {missing} bytes missing at offset {offset}"
  | invalidOffset delta base =>
    s!"Invalid delta: offset delta {delta} from base {base} is out of range"
  | invalidConfig problem => "Invalid configuration: " ++ problem.message
  | sizeLimit length limit => s!"Input of {length} bytes exceeds the limit of {limit} bytes"
  | rangeOutOfBounds offset length available =>
    s!"Range {offset}+{length} exceeds the {available} bytes described by the delta"
  | indexExhausted attempts interval =>
    s!"Patch index gave up after {attempts} attempts (interval {interval})"
  | sinkClosed => "Instruction added after the stream was closed"
  | invalidSnapshot problem => "Invalid checksum snapshot: " ++ problem.message
  | overflow problem => problem.message

/-- Is the delta itself malformed or cut short? -/
def isFormatError : DeltaError → Bool
  | invalidMagic | unknownOpcode .. | unexpectedEndOfData | invalidOffset .. => true
  | _ => false

/-- Was the operation given up, without an answer? -/
def isOverflow : DeltaError → Bool
  | overflow _ => true
  | _ => false

end DeltaError

/-- The sum of two numbers, if that is a 64-bit number. -/
def checkedSum (a b : Nat) : Except DeltaError Nat :=
  if a + b < 0x10000000000000000 then .ok (a + b) else .error (.overflow .sum)

theorem checkedSum_of_lt {a b : Nat} (h : a + b < 0x10000000000000000) :
    checkedSum a b = .ok (a + b) :=
  if_pos h

theorem checkedSum_of_le {a b : Nat} (h : 0x10000000000000000 ≤ a + b) :
    checkedSum a b = .error (.overflow .sum) :=
  if_neg (Nat.not_lt.mpr h)

end BinaryDelta
