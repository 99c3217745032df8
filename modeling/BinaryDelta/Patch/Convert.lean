import BinaryDelta.Instruction
import BinaryDelta.Patch.Reader

/-!
# Handing patches to sinks

Model of `convert`.

`convert` reads a patch and hands its instructions to a sink, one by one and in order. What that
amounts to is for the sink to say: a patch writer writes the patch in another mode, a listing lists
it, a `Rebuilder` rebuilds the target. Long payloads are handed over in pieces.

Out of scope: patches that describe 2^64 bytes or more. The number of bytes described is a natural
here.
-/

namespace BinaryDelta

/-- The most bytes handed over at a time. -/
def pieceSize : Nat := 65536

namespace PatchReader

variable {ρ κ : Type} [ByteReader ρ] [InstructionSink κ]

/-- Hands the next `n` payload bytes to a sink. -/
def passLiteral (p : PatchReader ρ) (sink : κ) (n : Nat) :
    Except DeltaError Unit × PatchReader ρ × κ :=
  if n = 0 then (.ok (), p, sink)
  else
    match p.readLiteral (min n pieceSize) with
    | (.error e, p) => (.error e, p, sink)
    | (.ok bytes, p) =>
      match InstructionSink.addLiteral sink bytes with
      | (.error e, sink) => (.error e, p, sink)
      | (.ok (), sink) => p.passLiteral sink (n - pieceSize)
termination_by n
decreasing_by
  have : 0 < pieceSize := by decide
  omega

/-- Payload bytes that were handed over are no longer to come. -/
theorem remaining_of_passLiteral {p p' : PatchReader ρ} {sink sink' : κ} {n : Nat}
    (h : p.passLiteral sink n = (.ok (), p', sink')) :
    n + ByteReader.remaining p'.input ≤ ByteReader.remaining p.input := by
  fun_induction passLiteral p sink n with
  | case1 p sink =>
    obtain ⟨_, ⟨⟩⟩ := Prod.mk.inj h
    omega
  | case2 => simp at h
  | case3 => simp at h
  | case4 p sink n _ bytes p₁ hr sink₁ _ ih =>
    have := ih h
    have := remaining_of_readLiteral hr
    omega

/-- Hands the instructions still to come to a sink and closes it. `total` is the length of what the
earlier ones stand for; the answer is the length of the whole target. -/
def passOn (p : PatchReader ρ) (sink : κ) (total : Nat) : Except DeltaError Nat × κ :=
  match _h : p.nextCommand with
  | (.error e, _) => (.error e, sink)
  | (.ok none, _) =>
    match InstructionSink.close sink with
    | (.error e, sink) => (.error e, sink)
    | (.ok (), sink) => (.ok total, sink)
  | (.ok (some (.copy offset length)), p') =>
    match InstructionSink.addCopy sink offset length with
    | (.error e, sink) => (.error e, sink)
    | (.ok (), sink) => p'.passOn sink (total + length)
  | (.ok (some (.literal length)), p') =>
    match _h' : p'.passLiteral sink length with
    | (.error e, _, sink) => (.error e, sink)
    | (.ok (), p'', sink) => p''.passOn sink (total + length)
termination_by ByteReader.remaining p.input
decreasing_by
  · exact remaining_of_nextCommand _h
  · have := remaining_of_nextCommand _h
    have := remaining_of_passLiteral _h'
    omega

end PatchReader

/-- Hands the instructions of a patch to a sink and closes it. The answer is the length of the
target that the patch describes. -/
def convert {ρ κ : Type} [ByteReader ρ] [InstructionSink κ] (patch : ρ) (sink : κ) :
    Except DeltaError Nat × κ :=
  match PatchReader.ofReader patch with
  | .error e => (.error e, sink)
  | .ok p => p.passOn sink 0

end BinaryDelta
