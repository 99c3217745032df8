import BinaryDelta.Source.Basic
import BinaryDelta.Stream.Seek

/-!
# Sources over repositionable readers

Model of `ReadSeekSource`: `new`, `seek` and `read`.

`SeekingSource` makes a source of anything that reads and seeks, such as a file. It remembers where
the reader stands, so that it seeks relative to that, and not at all where it already is; a reader
that keeps a buffer can then keep it across nearby reads. After a failure the position is unknown
and the next seek is absolute.
-/

namespace BinaryDelta

/-- A reader that can seek, with its measured length. -/
structure SeekingSource (ρ : Type) where
  input : ρ
  span : Span
  /-- Where the reader stands; `none` after a failure. -/
  position : Option Nat

namespace SeekingSource

variable {ρ : Type} [SeekableReader ρ]

/-- Measures the length by a seek to the end, and goes back to the start. Neither seek is repeated
when it is interrupted. -/
def ofReader (r : ρ) : Except Fault (SeekingSource ρ) :=
  let (answer, r) := SeekableReader.seek r (.fromEnd 0)
  match answer.once with
  | .error fault => .error fault
  | .ok length =>
    let (answer, r) := SeekableReader.seek r (.start 0)
    match answer.once with
    | .error fault => .error fault
    | .ok _ => .ok ⟨r, { length }, some 0⟩

/-- The source after its reader was asked to move to `goal`: it stands there if the reader moved,
and nowhere known otherwise. -/
def settle {α : Type} (span : Span) (goal : Nat) :
    Moved α × ρ → Moved Unit × SeekingSource ρ
  | (.reached _, input) => (.reached (), ⟨input, span, some goal⟩)
  | (.interrupted, input) => (.interrupted, ⟨input, span, none⟩)
  | (.failed fault, input) => (.failed fault, ⟨input, span, none⟩)

/-- Moves to a position up to the end. -/
def moveTo : SeekingSource ρ → Nat → Moved Unit × SeekingSource ρ
  | ⟨input, span, position⟩, goal =>
    if span.length < goal then
      (.failed (.seekPastEnd goal span.length), ⟨input, span, position⟩)
    else
      match position with
      | some here =>
        if here = goal then (.reached (), ⟨input, span, some here⟩)
        else settle span goal (SeekableReader.seekBy input (goal - here))
      | none => settle span goal (SeekableReader.seek input (.start goal))

omit [SeekableReader ρ] in
theorem span_settle {α : Type} (span : Span) (goal : Nat) (answer : Moved α × ρ) :
    (settle span goal answer).2.span = span := by
  rcases answer with ⟨_ | _ | _, input⟩ <;> rfl

omit [SeekableReader ρ] in
theorem input_settle {α : Type} (span : Span) (goal : Nat) (answer : Moved α × ρ) :
    (settle span goal answer).2.input = answer.2 := by
  rcases answer with ⟨_ | _ | _, input⟩ <;> rfl

omit [SeekableReader ρ] in
theorem eq_of_settle_interrupted {α : Type} {span : Span} {goal : Nat} {answer : Moved α × ρ}
    {s : SeekingSource ρ} (h : settle span goal answer = (.interrupted, s)) :
    answer = (.interrupted, s.input) := by
  rcases answer with ⟨_ | _ | _, input⟩ <;> cases h
  rfl

theorem span_moveTo (s : SeekingSource ρ) (goal : Nat) : (s.moveTo goal).2.span = s.span := by
  rcases s with ⟨input, span, position⟩
  simp only [moveTo]
  split
  · rfl
  · split
    · split
      · rfl
      · exact span_settle _ _ _
    · exact span_settle _ _ _

theorem patience_moveTo_le (s : SeekingSource ρ) (goal : Nat) :
    ByteReader.patience (s.moveTo goal).2.input ≤ ByteReader.patience s.input := by
  rcases s with ⟨input, span, position⟩
  simp only [moveTo]
  split
  · exact Nat.le_refl _
  · split
    · split
      · exact Nat.le_refl _
      · rw [input_settle]
        exact SeekableReader.patience_seekBy_le _ _
    · rw [input_settle]
      exact SeekableReader.patience_seek_le _ _

/-- Only the reader interrupts a move. -/
theorem patience_of_moveTo_interrupted {s s' : SeekingSource ρ} {goal : Nat}
    (h : s.moveTo goal = (.interrupted, s')) :
    ByteReader.patience s'.input < ByteReader.patience s.input := by
  rcases s with ⟨input, span, position⟩
  simp only [moveTo] at h
  split at h
  · simp at h
  · split at h
    · split at h
      · simp at h
      · exact SeekableReader.patience_of_seekBy_interrupted (eq_of_settle_interrupted h)
    · exact SeekableReader.patience_of_seek_interrupted (eq_of_settle_interrupted h)

/-- One read call; what was read moves the remembered position, and anything else forgets it. -/
def read : SeekingSource ρ → Nat → Reply × SeekingSource ρ
  | ⟨input, span, position⟩, n =>
    match ByteReader.read input n with
    | (.data bytes, input) => (.data bytes, ⟨input, span, position.map (· + bytes.size)⟩)
    | (.interrupted, input) => (.interrupted, ⟨input, span, none⟩)
    | (.failed fault, input) => (.failed fault, ⟨input, span, none⟩)

instance : Source (SeekingSource ρ) where
  span s := s.span
  seek := moveTo
  read := read
  patience s := ByteReader.patience s.input
  span_seek := span_moveTo
  span_read s n := by
    rcases s with ⟨input, span, position⟩
    simp only [read]
    split <;> rfl
  size_le_of_read {s n bytes s'} h := by
    rcases s with ⟨input, span, position⟩
    simp only [read] at h
    split at h
    · rename_i hr
      obtain ⟨⟨⟩, rfl⟩ := Prod.mk.inj h
      exact ByteReader.size_le_of_read hr
    · simp at h
    · simp at h
  patience_seek_le := patience_moveTo_le
  patience_of_seek_interrupted := patience_of_moveTo_interrupted
  patience_of_interrupted {s n s'} h := by
    rcases s with ⟨input, span, position⟩
    simp only [read] at h
    split at h
    · simp at h
    · rename_i hr
      obtain ⟨_, rfl⟩ := Prod.mk.inj h
      exact ByteReader.patience_of_interrupted hr
    · simp at h

end SeekingSource

end BinaryDelta
