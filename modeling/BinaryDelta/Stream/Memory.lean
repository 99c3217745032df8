import BinaryDelta.Stream.Reader

/-!
# Bytes in memory as a reader

`MemoryStream` is a byte string with a position. It answers every read with all it can and is never
interrupted.
-/

namespace BinaryDelta

/-- A byte string and the position of the next byte to be read. -/
structure MemoryStream where
  bytes : ByteArray
  position : Nat := 0

namespace MemoryStream

/-- The next bytes, at most `n`. -/
def take (s : MemoryStream) (n : Nat) : ByteArray :=
  s.bytes.extract s.position (s.position + n)

/-- The stream behind the next `n` bytes. -/
def drop (s : MemoryStream) (n : Nat) : MemoryStream :=
  ⟨s.bytes, s.position + (s.take n).size⟩

theorem size_take (s : MemoryStream) (n : Nat) :
    (s.take n).size = min n (s.bytes.size - s.position) := by
  rw [take, ByteArray.size_extract]
  omega

/-- One read call. -/
def read (s : MemoryStream) (n : Nat) : Reply × MemoryStream := (.data (s.take n), s.drop n)

theorem size_le_of_read {s s' : MemoryStream} {n : Nat} {bytes : ByteArray}
    (h : s.read n = (.data bytes, s')) : bytes.size ≤ n := by
  obtain ⟨⟨⟩, rfl⟩ := Prod.mk.inj h
  rw [size_take]
  omega

theorem remaining_of_read {s s' : MemoryStream} {n : Nat} {bytes : ByteArray}
    (h : s.read n = (.data bytes, s')) :
    bytes.size + (s'.bytes.size - s'.position) ≤ s.bytes.size - s.position := by
  obtain ⟨⟨⟩, rfl⟩ := Prod.mk.inj h
  simp only [drop, size_take]
  omega

/-- The interruptions in a row: there are none. -/
def patience (_ : MemoryStream) : Nat := 0

theorem read_ne_interrupted (s s' : MemoryStream) (n : Nat) : s.read n ≠ (.interrupted, s') := by
  simp [read]

theorem patience_of_interrupted {s s' : MemoryStream} {n : Nat}
    (h : s.read n = (.interrupted, s')) : s'.patience < s.patience :=
  absurd h (read_ne_interrupted _ _ _)

instance : ByteReader MemoryStream where
  read := read
  remaining s := s.bytes.size - s.position
  patience := patience
  size_le_of_read := size_le_of_read
  remaining_of_read := remaining_of_read
  remaining_of_interrupted h := absurd h (read_ne_interrupted _ _ _)
  patience_of_interrupted := patience_of_interrupted

end MemoryStream

end BinaryDelta
