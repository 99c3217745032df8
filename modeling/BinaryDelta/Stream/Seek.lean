import BinaryDelta.Stream.Reader

/-!
# Readers that can be repositioned

A seek names its goal from the start, from the current position or from the end, and answers with
the position it reached, counted from the start. It may be interrupted, as a read may, and shares
the patience of the reader: a seek that is interrupted uses it up, and no other seek restores it.
-/

namespace BinaryDelta

/-- The goal of a seek. -/
inductive SeekTo where
  | start (offset : Nat)
  | current (offset : Int)
  | fromEnd (offset : Int)
  deriving Repr, DecidableEq

/-- The goal as a position, for a reader of `length` bytes at `position`; there is none before the
start. -/
def SeekTo.resolve (length position : Nat) : SeekTo → Option Nat
  | start offset => some offset
  | current offset => (position + offset).toNat?
  | fromEnd offset => (length + offset).toNat?

/-- The answer to a move whose goal nobody asks for. -/
def forgetPosition {ρ : Type} : Moved Nat × ρ → Moved Unit × ρ
  | (.reached _, r) => (.reached (), r)
  | (.interrupted, r) => (.interrupted, r)
  | (.failed fault, r) => (.failed fault, r)

theorem snd_forgetPosition {ρ : Type} (answer : Moved Nat × ρ) :
    (forgetPosition answer).2 = answer.2 := by
  rcases answer with ⟨_ | _ | _, r⟩ <;> rfl

theorem eq_of_forgetPosition_interrupted {ρ : Type} {answer : Moved Nat × ρ} {r : ρ}
    (h : forgetPosition answer = (.interrupted, r)) : answer = (.interrupted, r) := by
  rcases answer with ⟨_ | _ | _, r'⟩ <;> cases h
  rfl

/-- A byte reader that can be repositioned. -/
class SeekableReader (ρ : Type) extends ByteReader ρ where
  /-- Moves, and answers with the position from the start. -/
  seek : ρ → SeekTo → Moved Nat × ρ
  /-- Moves by so many bytes. A reader that holds a buffer may move within it. -/
  seekBy : ρ → Int → Moved Unit × ρ
  patience_seek_le : ∀ (r : ρ) (goal : SeekTo), patience (seek r goal).2 ≤ patience r
  patience_seekBy_le : ∀ (r : ρ) (offset : Int), patience (seekBy r offset).2 ≤ patience r
  patience_of_seek_interrupted : ∀ {r : ρ} {goal : SeekTo} {r' : ρ},
    seek r goal = (.interrupted, r') → patience r' < patience r
  patience_of_seekBy_interrupted : ∀ {r : ρ} {offset : Int} {r' : ρ},
    seekBy r offset = (.interrupted, r') → patience r' < patience r

end BinaryDelta
