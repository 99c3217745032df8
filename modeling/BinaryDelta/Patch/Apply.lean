import BinaryDelta.Patch.Convert
import BinaryDelta.Source.Overlap
import BinaryDelta.Stream.Output

/-!
# Rebuilding targets

Model of `apply`.

A `Rebuilder` is the sink that carries instructions out: a copy is read from the source and written
to the output, a literal is written as it is. To apply a patch is to hand it to a rebuilder. What
was written before an error stays written.
-/

namespace BinaryDelta

/-- A source and the output that receives the target. -/
structure Rebuilder (σ ω : Type) where
  source : σ
  output : ω

namespace Rebuilder

variable {σ ω : Type} [Source σ] [ByteOutput ω] [Overlap σ ω]

/-- Writes bytes. -/
def write : Rebuilder σ ω → ByteArray → Except DeltaError Unit × Rebuilder σ ω
  | ⟨source, output⟩, bytes =>
    match ByteOutput.write output bytes with
    | (.error fault, output) => (.error (.io fault), ⟨source, output⟩)
    | (.ok (), output) => (.ok (), ⟨source, output⟩)

/-- Writes a range of the source, piece by piece. -/
def copyRange : Rebuilder σ ω → Nat → Nat → Except DeltaError Unit × Rebuilder σ ω
  | ⟨source, output⟩, offset, length =>
    if length = 0 then (.ok (), ⟨source, output⟩)
    else
      match Source.readExactAt (Overlap.catchUp source output) offset (min length pieceSize) with
      | (.error e, source) => (.error e, ⟨source, output⟩)
      | (.ok bytes, source) =>
        match ByteOutput.write output bytes with
        | (.error fault, output) => (.error (.io fault), ⟨source, output⟩)
        | (.ok (), output) => copyRange ⟨source, output⟩ (offset + pieceSize) (length - pieceSize)
termination_by _ _ length => length
decreasing_by
  have : 0 < pieceSize := by decide
  omega

/-- Flushes the output. -/
def flush : Rebuilder σ ω → Except DeltaError Unit × Rebuilder σ ω
  | ⟨source, output⟩ =>
    match ByteOutput.flush output with
    | (.error fault, output) => (.error (.io fault), ⟨source, output⟩)
    | (.ok (), output) => (.ok (), ⟨source, output⟩)

instance : InstructionSink (Rebuilder σ ω) where
  addCopy := copyRange
  addByte r byte := r.write (ByteArray.empty.push byte)
  addLiteral := write
  flush := flush
  close := flush

end Rebuilder

/-- Rebuilds the target that a patch describes, and flushes the output. The answer is the number of
bytes written. -/
def apply {σ ρ ω : Type} [Source σ] [ByteReader ρ] [ByteOutput ω] [Overlap σ ω] (source : σ)
    (patch : ρ) (output : ω) : Except DeltaError Nat × Rebuilder σ ω :=
  convert patch (⟨source, output⟩ : Rebuilder σ ω)

end BinaryDelta
