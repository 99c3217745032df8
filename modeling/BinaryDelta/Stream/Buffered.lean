import BinaryDelta.Stream.Seek

/-!
# Buffered readers

`BufferedStream` reads from another reader in large pieces and hands them on in the sizes asked for.
A call is answered from the buffer as long as there is anything in it; a large call that meets an
empty buffer goes to the reader itself. Moving by a few bytes moves within the buffer where it can;
any other move empties it.
-/

namespace BinaryDelta

/-- A reader, the last piece read from it, and how far that has been handed on. -/
structure BufferedStream (ρ : Type) where
  input : ρ
  buffer : ByteArray := ByteArray.empty
  cursor : Nat := 0

namespace BufferedStream

/-- The size of the pieces read. -/
def capacity : Nat := 8192

variable {ρ : Type} [SeekableReader ρ]

/-- The number of bytes in the buffer that have not been handed on. -/
def held (s : BufferedStream ρ) : Nat := s.buffer.size - s.cursor

/-- The answer of the reader itself, with nothing held. -/
def emptied (answer : Reply × ρ) : Reply × BufferedStream ρ :=
  (answer.1, ⟨answer.2, ByteArray.empty, 0⟩)

omit [SeekableReader ρ] in
theorem eq_of_emptied {answer : Reply × ρ} {reply : Reply} {s : BufferedStream ρ}
    (h : emptied answer = (reply, s)) :
    answer = (reply, s.input) ∧ s.held = 0 := by
  obtain ⟨rfl, rfl⟩ := Prod.mk.inj h
  exact ⟨rfl, rfl⟩

/-- One read call. -/
def read : BufferedStream ρ → Nat → Reply × BufferedStream ρ
  | ⟨input, buffer, cursor⟩, n =>
    if cursor < buffer.size then
      (.data (buffer.extract cursor (cursor + n)), ⟨input, buffer, min (cursor + n) buffer.size⟩)
    else if capacity ≤ n then
      emptied (ByteReader.read input n)
    else
      match ByteReader.read input capacity with
      | (.data bytes, input) => (.data (bytes.extract 0 n), ⟨input, bytes, min n bytes.size⟩)
      | (.interrupted, input) => (.interrupted, ⟨input, ByteArray.empty, 0⟩)
      | (.failed fault, input) => (.failed fault, ⟨input, ByteArray.empty, 0⟩)

/-- The goal as the reader has to be told, which is ahead by what is held. -/
def goalBehind (held : Nat) : SeekTo → SeekTo
  | .current offset => .current (offset - held)
  | goal => goal

/-- Moves the reader. If that fails or is interrupted, the buffer stays. -/
def seek : BufferedStream ρ → SeekTo → Moved Nat × BufferedStream ρ
  | ⟨input, buffer, cursor⟩, goal =>
    match SeekableReader.seek input (goalBehind (buffer.size - cursor) goal) with
    | (.failed fault, input) => (.failed fault, ⟨input, buffer, cursor⟩)
    | (.interrupted, input) => (.interrupted, ⟨input, buffer, cursor⟩)
    | (.reached position, input) => (.reached position, ⟨input, ByteArray.empty, 0⟩)

/-- Moves by so many bytes, within the buffer if the goal is there. -/
def seekBy (s : BufferedStream ρ) (offset : Int) : Moved Unit × BufferedStream ρ :=
  let goal := s.cursor + offset
  if 0 ≤ goal ∧ goal ≤ s.buffer.size then (.reached (), { s with cursor := goal.toNat })
  else forgetPosition (s.seek (.current offset))

/-- The bytes still to come: those held, and those of the reader. -/
def remaining (s : BufferedStream ρ) : Nat := s.held + ByteReader.remaining s.input

theorem size_le_of_read {s s' : BufferedStream ρ} {n : Nat} {bytes : ByteArray}
    (h : s.read n = (.data bytes, s')) : bytes.size ≤ n := by
  rcases s with ⟨input, buffer, cursor⟩
  simp only [read] at h
  split at h
  · obtain ⟨⟨⟩, _⟩ := Prod.mk.inj h
    rw [ByteArray.size_extract]
    omega
  · split at h
    · exact ByteReader.size_le_of_read (eq_of_emptied h).1
    · split at h
      · obtain ⟨⟨⟩, _⟩ := Prod.mk.inj h
        rw [ByteArray.size_extract]
        omega
      · simp at h
      · simp at h

theorem remaining_of_read {s s' : BufferedStream ρ} {n : Nat} {bytes : ByteArray}
    (h : s.read n = (.data bytes, s')) : bytes.size + s'.remaining ≤ s.remaining := by
  rcases s with ⟨input, buffer, cursor⟩
  simp only [read] at h
  split at h
  · obtain ⟨⟨⟩, rfl⟩ := Prod.mk.inj h
    simp only [remaining, held, ByteArray.size_extract]
    omega
  · split at h
    · obtain ⟨hr, hs⟩ := eq_of_emptied h
      have := ByteReader.remaining_of_read hr
      simp only [remaining]
      omega
    · split at h
      · rename_i hr
        obtain ⟨⟨⟩, rfl⟩ := Prod.mk.inj h
        have := ByteReader.remaining_of_read hr
        simp only [remaining, held, ByteArray.size_extract]
        omega
      · simp at h
      · simp at h

/-- Only the reader interrupts, and only when nothing is held. -/
theorem input_of_interrupted {s s' : BufferedStream ρ} {n : Nat}
    (h : s.read n = (.interrupted, s')) :
    s'.held = 0 ∧ ∃ m, ByteReader.read s.input m = (.interrupted, s'.input) := by
  rcases s with ⟨input, buffer, cursor⟩
  simp only [read] at h
  split at h
  · simp at h
  · split at h
    · exact ⟨(eq_of_emptied h).2, n, (eq_of_emptied h).1⟩
    · split at h
      · simp at h
      · rename_i hr
        obtain ⟨_, rfl⟩ := Prod.mk.inj h
        exact ⟨rfl, capacity, hr⟩
      · simp at h

theorem remaining_of_interrupted {s s' : BufferedStream ρ} {n : Nat}
    (h : s.read n = (.interrupted, s')) : s'.remaining ≤ s.remaining := by
  obtain ⟨hs, _, hr⟩ := input_of_interrupted h
  have := ByteReader.remaining_of_interrupted hr
  simp only [remaining]
  omega

theorem patience_of_interrupted {s s' : BufferedStream ρ} {n : Nat}
    (h : s.read n = (.interrupted, s')) :
    ByteReader.patience s'.input < ByteReader.patience s.input := by
  obtain ⟨_, _, hr⟩ := input_of_interrupted h
  exact ByteReader.patience_of_interrupted hr

theorem patience_seek_le (s : BufferedStream ρ) (goal : SeekTo) :
    ByteReader.patience (s.seek goal).2.input ≤ ByteReader.patience s.input := by
  rcases s with ⟨input, buffer, cursor⟩
  have := SeekableReader.patience_seek_le input (goalBehind (buffer.size - cursor) goal)
  simp only [seek]
  split <;> rename_i h <;> rwa [h] at this

theorem patience_seekBy_le (s : BufferedStream ρ) (offset : Int) :
    ByteReader.patience (s.seekBy offset).2.input ≤ ByteReader.patience s.input := by
  simp only [seekBy]
  split
  · exact Nat.le_refl _
  · rw [snd_forgetPosition]
    exact patience_seek_le s (.current offset)

theorem patience_of_seek_interrupted {s s' : BufferedStream ρ} {goal : SeekTo}
    (h : s.seek goal = (.interrupted, s')) :
    ByteReader.patience s'.input < ByteReader.patience s.input := by
  rcases s with ⟨input, buffer, cursor⟩
  simp only [seek] at h
  split at h
  · simp at h
  · rename_i hs
    obtain ⟨-, rfl⟩ := Prod.mk.inj h
    exact SeekableReader.patience_of_seek_interrupted hs
  · simp at h

theorem patience_of_seekBy_interrupted {s s' : BufferedStream ρ} {offset : Int}
    (h : s.seekBy offset = (.interrupted, s')) :
    ByteReader.patience s'.input < ByteReader.patience s.input := by
  simp only [seekBy] at h
  split at h
  · simp at h
  · exact patience_of_seek_interrupted (eq_of_forgetPosition_interrupted h)

instance : SeekableReader (BufferedStream ρ) where
  read := read
  remaining := remaining
  patience s := ByteReader.patience s.input
  size_le_of_read := size_le_of_read
  remaining_of_read := remaining_of_read
  remaining_of_interrupted := remaining_of_interrupted
  patience_of_interrupted := patience_of_interrupted
  seek := seek
  seekBy := seekBy
  patience_seek_le := patience_seek_le
  patience_seekBy_le := patience_seekBy_le
  patience_of_seek_interrupted := patience_of_seek_interrupted
  patience_of_seekBy_interrupted := patience_of_seekBy_interrupted

end BufferedStream

end BinaryDelta
