import BinaryDelta.Source.Basic
import BinaryDelta.Stream.Memory

/-!
# Bytes in memory as a source

Model of `SliceSource`.

A `MemoryStream` can be moved anywhere up to its end, and is read from there.
-/

namespace BinaryDelta.MemoryStream

/-- Moves to a position up to the end. -/
def moveTo (s : MemoryStream) (position : Nat) : Moved Unit × MemoryStream :=
  if s.bytes.size < position then (.failed (.seekPastEnd position s.bytes.size), s)
  else (.reached (), { s with position })

/-- Moving keeps the bytes. -/
theorem bytes_moveTo (s : MemoryStream) (position : Nat) :
    (s.moveTo position).2.bytes = s.bytes := by
  unfold moveTo
  split <;> rfl

/-- Moving is not interrupted. -/
theorem moveTo_ne_interrupted (s s' : MemoryStream) (position : Nat) :
    s.moveTo position ≠ (.interrupted, s') := by
  unfold moveTo
  split <;> simp

theorem length_moveTo (s : MemoryStream) (position : Nat) :
    (s.moveTo position).2.bytes.size = s.bytes.size := by
  rw [bytes_moveTo]

instance : Source MemoryStream where
  span s := { length := s.bytes.size }
  seek := moveTo
  read := read
  patience := patience
  span_seek s position := by simp only [length_moveTo]
  span_read _ _ := rfl
  size_le_of_read := size_le_of_read
  patience_seek_le _ _ := Nat.le_refl _
  patience_of_seek_interrupted h := absurd h (moveTo_ne_interrupted _ _ _)
  patience_of_interrupted := patience_of_interrupted

/-- What is read does not reach behind the end. -/
theorem clip_take (s : MemoryStream) (n : Nat) :
    (Reply.data (s.take n)).clip (s.bytes.size - s.position) = .data (s.take n) := by
  have := size_take s n
  rw [Reply.clip, if_pos (by omega)]

/-- A positioned read takes the bytes at the position, as far as they exist, and leaves the stream
behind them. -/
theorem readAt_memory (s : MemoryStream) {position : Nat} (n : Nat)
    (h : position < s.bytes.size) :
    Source.readAt s position n = (.data (s.bytes.extract position (position + n)),
      ⟨s.bytes, min s.bytes.size (position + n)⟩) := by
  have hm : s.moveTo position = (.reached (), ⟨s.bytes, position⟩) := by
    rw [moveTo, if_neg (by omega)]
  have hs : Source.seek s position = (.reached (), (⟨s.bytes, position⟩ : MemoryStream)) := hm
  have hl : Source.length s = s.bytes.size := rfl
  have hc := clip_take ⟨s.bytes, position⟩ n
  rw [Source.readAt, hl, if_neg (by omega), hs]
  show ((Reply.data (take ⟨s.bytes, position⟩ n)).clip (s.bytes.size - position),
    drop ⟨s.bytes, position⟩ n) = _
  rw [hc]
  simp only [take, drop, ByteArray.size_extract]
  congr 2
  omega

end BinaryDelta.MemoryStream
