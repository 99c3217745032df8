import BinaryDelta.Instruction
import BinaryDelta.Wire.Offset
import BinaryDelta.Wire.Record

/-!
# Reading patches

Model of `GDiffReader` and `Command`: `next_command`, `read_literal`, `next_instruction` and
`skip_pending`.

A patch reader takes a patch from its stream record by record and turns the stored offsets into
absolute ones. The payload of a literal is read on request; what nobody asked for is skipped when
the next command is.

Results:
* `remaining_of_nextCommand`: a command that was read is no longer to come, so a reader answers with
  finitely many.
* `remaining_of_readLiteral`: the same of payload bytes.
-/

namespace BinaryDelta

/-- A record with its copy offset made absolute. The payload of a literal is still to be read. -/
inductive Command where
  | copy (offset length : Nat)
  | literal (length : Nat)
  deriving Repr, DecidableEq

/-- The number of target bytes that the command stands for. -/
def Command.outputLength : Command → Nat
  | copy _ length => length
  | literal length => length

/-- A patch in the course of being read. -/
structure PatchReader (ρ : Type) where
  input : ρ
  base : OffsetBase
  /-- The offset of the next unread byte of the patch. -/
  position : Nat := preambleLength
  /-- The unread payload bytes of the last literal. -/
  pending : Nat := 0
  /-- Has the end of the patch been read? -/
  finished : Bool := false

namespace PatchReader

variable {ρ : Type} [ByteReader ρ]

/-- Reads the preamble. -/
def ofReader (input : ρ) : Except DeltaError (PatchReader ρ) :=
  match readPreamble input with
  | (.error e, _) => .error e
  | (.ok mode, input) => .ok { input, base := { mode } }

/-- The mode of the patch. -/
def mode (p : PatchReader ρ) : Mode := p.base.mode

/-- Skips the unread payload. If the stream ends within it, the payload stays unread, but the
position has moved. -/
def skipPending : PatchReader ρ → Except DeltaError Unit × PatchReader ρ
  | ⟨input, base, position, pending, finished⟩ =>
    match ByteReader.readUpTo input pending with
    | (.error fault, input) => (.error (.io fault), ⟨input, base, position, pending, finished⟩)
    | (.ok skipped, input) =>
      let position := position + skipped.size
      if skipped.size < pending then
        (.error .unexpectedEndOfData, ⟨input, base, position, pending, finished⟩)
      else (.ok (), ⟨input, base, position, 0, finished⟩)

/-- Takes a record that has been read into account. -/
def accept (input : ρ) (base : OffsetBase) (position : Nat) :
    Record → Except DeltaError (Option Command) × PatchReader ρ
  | .eof => (.ok none, ⟨input, base, position, 0, true⟩)
  | .literal length => (.ok (some (.literal length)), ⟨input, base, position, length, false⟩)
  | .copy value length =>
    match base.decode value with
    | (.error e, base) => (.error e, ⟨input, base, position, 0, false⟩)
    | (.ok offset, base) => (.ok (some (.copy offset length)), ⟨input, base, position, 0, false⟩)

/-- Reads the next command; there is none behind the end of the patch. A record that could not be
read leaves the position where it was. -/
def nextCommand (p : PatchReader ρ) : Except DeltaError (Option Command) × PatchReader ρ :=
  if p.finished then (.ok none, p)
  else
    match p.skipPending with
    | (.error e, p) => (.error e, p)
    | (.ok (), ⟨input, base, position, _, _⟩) =>
      match readRecord base.mode input position with
      | (.error e, input) => (.error e, ⟨input, base, position, 0, false⟩)
      | (.ok (record, length), input) => accept input base (position + length) record

/-- Reads the next `n` payload bytes of the last literal. -/
def readLiteral : PatchReader ρ → Nat → Except DeltaError ByteArray × PatchReader ρ
  | ⟨input, base, position, pending, finished⟩, n =>
    if pending < n then
      (.error (.invalidConfig (.literalOverrun n pending)),
        ⟨input, base, position, pending, finished⟩)
    else
      match ByteReader.readExact input n with
      | (.error shortfall, input) =>
        (.error (wireError shortfall), ⟨input, base, position, pending, finished⟩)
      | (.ok bytes, input) => (.ok bytes, ⟨input, base, position + n, pending - n, finished⟩)

/-- Reads the whole payload of the last literal. What was read of a payload that is cut short counts
as read. -/
def readPayload : PatchReader ρ → Except DeltaError ByteArray × PatchReader ρ
  | ⟨input, base, position, pending, finished⟩ =>
    match ByteReader.readUpTo input pending with
    | (.error fault, input) => (.error (.io fault), ⟨input, base, position, pending, finished⟩)
    | (.ok bytes, input) =>
      let p := ⟨input, base, position + bytes.size, pending - bytes.size, finished⟩
      if bytes.size < pending then (.error .unexpectedEndOfData, p) else (.ok bytes, p)

/-- Reads the next instruction, payload included; there is none behind the end of the patch. -/
def nextInstruction (p : PatchReader ρ) : Except DeltaError (Option Instruction) × PatchReader ρ :=
  match p.nextCommand with
  | (.error e, p) => (.error e, p)
  | (.ok none, p) => (.ok none, p)
  | (.ok (some (.copy offset length)), p) => (.ok (some (.copy offset length)), p)
  | (.ok (some (.literal _)), p) =>
    match p.readPayload with
    | (.error e, p) => (.error e, p)
    | (.ok bytes, p) => (.ok (some (.literal bytes)), p)

/-! ## What is still to come -/

theorem remaining_of_skipPending {p p' : PatchReader ρ} (h : p.skipPending = (.ok (), p')) :
    ByteReader.remaining p'.input ≤ ByteReader.remaining p.input := by
  rcases p with ⟨input, base, position, pending, finished⟩
  simp only [skipPending] at h
  split at h
  · simp at h
  · rename_i hr
    have := ByteReader.remaining_of_readUpTo hr
    split at h
    · simp at h
    · obtain ⟨_, rfl⟩ := Prod.mk.inj h
      dsimp only
      omega

omit [ByteReader ρ] in
theorem input_accept (input : ρ) (base : OffsetBase) (position : Nat) (record : Record) :
    (accept input base position record).2.input = input := by
  cases record with
  | eof => rfl
  | literal length => rfl
  | copy value length =>
    simp only [accept]
    split <;> rfl

/-- A command that was read is no longer to come. -/
theorem remaining_of_nextCommand {p p' : PatchReader ρ} {command : Command}
    (h : p.nextCommand = (.ok (some command), p')) :
    ByteReader.remaining p'.input < ByteReader.remaining p.input := by
  unfold nextCommand at h
  split at h
  · simp at h
  · split at h
    · simp at h
    · rename_i hs
      have := remaining_of_skipPending hs
      split at h
      · simp at h
      · rename_i input' base position _ _ _ record length input hr
        have := remaining_of_readRecord hr
        have hi := input_accept input base (position + length) record
        rw [h] at hi
        dsimp only at *
        rw [hi]
        omega

/-- Payload bytes that were read are no longer to come. -/
theorem remaining_of_readLiteral {p p' : PatchReader ρ} {n : Nat} {bytes : ByteArray}
    (h : p.readLiteral n = (.ok bytes, p')) :
    n + ByteReader.remaining p'.input ≤ ByteReader.remaining p.input := by
  rcases p with ⟨input, base, position, pending, finished⟩
  simp only [readLiteral] at h
  split at h
  · simp at h
  · split at h
    · simp at h
    · rename_i hr
      obtain ⟨⟨⟩, rfl⟩ := Prod.mk.inj h
      exact ByteReader.remaining_of_readExact hr

end PatchReader

end BinaryDelta
