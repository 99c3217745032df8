import BinaryDelta.Error

/-!
# Instructions and sinks

Model of `Instruction` and `InstructionSink`.

A delta is a sequence of instructions: copy a range of the source, or append these bytes. A sink
takes instructions one by one. It is finished by `close`; a sink that was only flushed may take more
instructions. Every call hands back the sink, also when it fails.
-/

namespace BinaryDelta

/-- One step in rebuilding a target. -/
inductive Instruction where
  /-- Append `length` bytes of the source from `offset`. -/
  | copy (offset length : Nat)
  /-- Append these bytes. -/
  | literal (bytes : ByteArray)

namespace Instruction

instance : DecidableEq Instruction
  | copy offset length, copy offset' length' =>
    decidable_of_iff (offset = offset' ∧ length = length') (by rw [copy.injEq])
  | literal bytes, literal bytes' =>
    decidable_of_iff (bytes.data = bytes'.data) (by rw [literal.injEq, ByteArray.ext_iff])
  | copy .., literal _ => isFalse (by rintro ⟨⟩)
  | literal _, copy .. => isFalse (by rintro ⟨⟩)

/-- The number of bytes the instruction appends. -/
def outputLength : Instruction → Nat
  | copy _ length => length
  | literal bytes => bytes.size

/-- Does the instruction append nothing? -/
def isEmpty (i : Instruction) : Bool := i.outputLength == 0

end Instruction

/-- A destination of instructions. -/
class InstructionSink (κ : Type) where
  addCopy : κ → (offset length : Nat) → Except DeltaError Unit × κ
  addByte : κ → UInt8 → Except DeltaError Unit × κ
  addLiteral : κ → ByteArray → Except DeltaError Unit × κ
  /-- Hands on what is held back. -/
  flush : κ → Except DeltaError Unit × κ
  /-- Hands on what is held back and ends the stream. -/
  close : κ → Except DeltaError Unit × κ

/-- Adds the bytes of a list one by one, up to the first failure. -/
def addEach {κ : Type} (addByte : κ → UInt8 → Except DeltaError Unit × κ) (sink : κ) :
    List UInt8 → Except DeltaError Unit × κ
  | [] => (.ok (), sink)
  | byte :: bytes =>
    match addByte sink byte with
    | (.error e, sink) => (.error e, sink)
    | (.ok (), sink) => addEach addByte sink bytes

end BinaryDelta
