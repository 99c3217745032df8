import BinaryDelta.Merge.Resolve

/-!
# Merging patches

Model of `merge`.

Two patches that follow each other, the first from A to B and the second from B to C, merge into one
from A to C: the literals of the second stay, and each of its copies, a range of B, is replaced by
the instructions of the first that produce this range. B itself is not needed.

A `Merger` is the sink that does this. To merge is to hand it the second patch.
-/

namespace BinaryDelta

/-- The first patch, its index once that is needed, and the sink of the merged patch. -/
structure Merger (σ κ : Type) where
  first : σ
  options : IndexOptions
  index : Option PatchIndex := none
  sink : κ

namespace Merger

variable {σ κ : Type} [Source σ] [InstructionSink κ] [Overlap σ κ]

/-- Hands on the instructions of the first patch that produce a range. -/
def resolve (first : σ) (options : IndexOptions) (index : PatchIndex) (sink : κ)
    (offset length : Nat) : Except DeltaError Unit × Merger σ κ :=
  match index.resolveInto first offset length sink with
  | (answer, first, sink) => (answer, ⟨first, options, some index, sink⟩)

/-- Resolves a copy. The first patch is indexed at the first copy. -/
def addCopy : Merger σ κ → Nat → Nat → Except DeltaError Unit × Merger σ κ
  | ⟨first, options, some index, sink⟩, offset, length =>
    resolve (Overlap.catchUp first sink) options index sink offset length
  | ⟨first, options, none, sink⟩, offset, length =>
    match PatchIndex.build (Overlap.catchUp first sink) options with
    | (.error e, first) => (.error e, ⟨first, options, none, sink⟩)
    | (.ok index, first) => resolve first options index sink offset length

/-- Lets the sink of the merged patch act. -/
def onSink (act : κ → Except DeltaError Unit × κ) : Merger σ κ → Except DeltaError Unit × Merger σ κ
  | ⟨first, options, index, sink⟩ =>
    match act sink with
    | (answer, sink) => (answer, ⟨first, options, index, sink⟩)

instance : InstructionSink (Merger σ κ) where
  addCopy := addCopy
  addByte m byte := m.onSink (InstructionSink.addByte · byte)
  addLiteral m bytes := m.onSink (InstructionSink.addLiteral · bytes)
  flush := onSink InstructionSink.flush
  close := onSink InstructionSink.close

end Merger

/-- Merges two patches that follow each other into a sink, and closes it. The answer is the length
of the target. -/
def merge {σ ρ κ : Type} [Source σ] [ByteReader ρ] [InstructionSink κ] [Overlap σ κ] (first : σ)
    (second : ρ) (sink : κ) (options : IndexOptions) : Except DeltaError Nat × Merger σ κ :=
  convert second ({ first, options, sink } : Merger σ κ)

end BinaryDelta
