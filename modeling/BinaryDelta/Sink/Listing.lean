import BinaryDelta.Bytes
import BinaryDelta.Instruction
import BinaryDelta.Stream.Output

/-!
# Instructions as text

Model of `DebugWriter`.

A listing writes one line `COPY offset, length` for a copy, and two lines for a literal: `DATA` with
its length, then its bytes, the printable ASCII ones and spaces as they are and all others as two
hexadecimal digits. Literal bytes are held back until a copy or a flush, so a literal is listed as
one however it was cut.
-/

namespace BinaryDelta

/-- A text output and the literal bytes held back. -/
structure Listing (ω : Type) where
  output : ω
  pending : ByteArray := ByteArray.empty

namespace Listing

/-- The code of a hexadecimal digit. -/
def hexDigit (n : UInt8) : UInt8 := if n < 10 then 48 + n else 87 + n

/-- A byte as it is listed. -/
def byteText (byte : UInt8) : List UInt8 :=
  if 32 ≤ byte ∧ byte < 127 then [byte] else [hexDigit (byte / 16), hexDigit (byte % 16)]

/-- The lines of a literal. -/
def literalText (bytes : ByteArray) : ByteArray :=
  let heading := s!"DATA {bytes.size}\n".toUTF8
  (bytes.foldl (fun out byte => appendBytes out (byteText byte)) heading).push 10

/-- The line of a copy. -/
def copyText (offset length : Nat) : ByteArray := s!"COPY {offset}, {length}\n".toUTF8

variable {ω : Type} [ByteOutput ω]

/-- Writes the bytes held back. They stay held back if that fails. -/
def writePending : Listing ω → Except DeltaError Unit × Listing ω
  | ⟨output, pending⟩ =>
    if pending.size = 0 then (.ok (), ⟨output, pending⟩)
    else
      match ByteOutput.write output (literalText pending) with
      | (.error fault, output) => (.error (.io fault), ⟨output, pending⟩)
      | (.ok (), output) => (.ok (), ⟨output, ByteArray.empty⟩)

/-- Lists what is held back, then the copy. -/
def addCopy (l : Listing ω) (offset length : Nat) : Except DeltaError Unit × Listing ω :=
  match l.writePending with
  | (.error e, l) => (.error e, l)
  | (.ok (), ⟨output, pending⟩) =>
    match ByteOutput.write output (copyText offset length) with
    | (.error fault, output) => (.error (.io fault), ⟨output, pending⟩)
    | (.ok (), output) => (.ok (), ⟨output, pending⟩)

/-- Lists what is held back and flushes the output. -/
def flush (l : Listing ω) : Except DeltaError Unit × Listing ω :=
  match l.writePending with
  | (.error e, l) => (.error e, l)
  | (.ok (), ⟨output, pending⟩) =>
    match ByteOutput.flush output with
    | (.error fault, output) => (.error (.io fault), ⟨output, pending⟩)
    | (.ok (), output) => (.ok (), ⟨output, pending⟩)

instance : InstructionSink (Listing ω) where
  addCopy := addCopy
  addByte | ⟨output, pending⟩, byte => (.ok (), ⟨output, pending.push byte⟩)
  addLiteral | ⟨output, pending⟩, bytes => (.ok (), ⟨output, pending ++ bytes⟩)
  flush := flush
  close := flush

end Listing

end BinaryDelta
