import BinaryDelta.Stream.Seek

/-!
# A reader with chosen faults

`FaultyStream` holds its bytes in memory and misbehaves as it is told: it delivers in short pieces,
interrupts every other call, fails from some position on, fails to seek to some position, or is
interrupted there once. It shows what the rest of the library does with readers that are not as
obliging as a byte string, and it keeps a log of the seeks it was asked for.
-/

namespace BinaryDelta

/-- Bytes in memory, delivered with chosen faults. -/
structure FaultyStream where
  bytes : ByteArray
  position : Nat := 0
  /-- The most bytes one call delivers. -/
  chunk : Option Nat := none
  /-- Reading at or behind this position fails. -/
  failsFrom : Option Nat := none
  /-- Is every call with an even number interrupted, counting from zero? -/
  interrupts : Bool := false
  /-- Seeking to this position fails. -/
  failsToSeek : Option Nat := none
  /-- The next seek to this position is interrupted, and those behind it are not. -/
  interruptsSeekTo : Option Nat := none
  /-- The read calls so far. -/
  calls : Nat := 0
  /-- The seeks so far, failed ones included. -/
  seeks : Array SeekTo := #[]

namespace FaultyStream

/-- Will the next read call be interrupted? -/
def isInterrupting (s : FaultyStream) : Bool := s.interrupts && s.calls % 2 == 0

/-- The end of what can be delivered before a fault or the end of the bytes. -/
def reachable (s : FaultyStream) : Nat :=
  match s.failsFrom with
  | none => s.bytes.size
  | some k => min k s.bytes.size

/-- What one call may deliver of `n` bytes. -/
def allowed (s : FaultyStream) (n : Nat) : Nat :=
  match s.chunk with
  | none => n
  | some c => min c n

/-- The size of the next piece, when `n` bytes are asked for. -/
def pieceSize (s : FaultyStream) (n : Nat) : Nat :=
  min (s.allowed n) (s.reachable - s.position)

/-- Does a read at the current position fail? -/
def isFailing (s : FaultyStream) : Bool :=
  match s.failsFrom with
  | none => false
  | some k => k ≤ s.position

/-- One read call. -/
def read (s : FaultyStream) (n : Nat) : Reply × FaultyStream :=
  if s.isInterrupting then (.interrupted, { s with calls := s.calls + 1 })
  else if 0 < n && s.isFailing then
    (.failed (.device "read failed"), { s with calls := s.calls + 1 })
  else
    let count := s.pieceSize n
    (.data (s.bytes.extract s.position (s.position + count)),
      { s with position := s.position + count, calls := s.calls + 1 })

/-- One seek. Seeking behind the end is allowed. -/
def seek (s : FaultyStream) (goal : SeekTo) : Moved Nat × FaultyStream :=
  let s := { s with seeks := s.seeks.push goal }
  match goal.resolve s.bytes.size s.position with
  | none => (.failed (.device "invalid seek to a negative or overflowing position"), s)
  | some position =>
    if s.interruptsSeekTo = some position then
      (.interrupted, { s with interruptsSeekTo := none })
    else if s.failsToSeek = some position then (.failed (.device "seek failed"), s)
    else (.reached position, { s with position })

theorem allowed_le (s : FaultyStream) (n : Nat) : s.allowed n ≤ n := by
  unfold allowed
  split <;> omega

theorem reachable_le (s : FaultyStream) : s.reachable ≤ s.bytes.size := by
  unfold reachable
  split <;> omega

theorem pieceSize_le (s : FaultyStream) (n : Nat) : s.pieceSize n ≤ n :=
  Nat.le_trans (Nat.min_le_left _ _) (s.allowed_le n)

theorem pieceSize_le_rest (s : FaultyStream) (n : Nat) :
    s.pieceSize n ≤ s.bytes.size - s.position := by
  have := s.reachable_le
  unfold pieceSize
  omega

/-- What may still be interrupted: the next read, and one seek. -/
def patience (s : FaultyStream) : Nat :=
  (if s.isInterrupting then 1 else 0) + if s.interruptsSeekTo.isSome then 1 else 0

/-- A seek interrupts no more than was to be interrupted, and less if it is. -/
theorem patience_seek (s : FaultyStream) (goal : SeekTo) :
    (s.seek goal).2.patience ≤ s.patience ∧
      ∀ s', s.seek goal = (.interrupted, s') → s'.patience < s.patience := by
  unfold seek
  dsimp only
  split
  · exact ⟨Nat.le_refl _, fun s' h => by simp at h⟩
  · split
    · rename_i hs
      have hlt : patience { s with seeks := s.seeks.push goal, interruptsSeekTo := none } <
          s.patience := by
        simp [patience, isInterrupting, hs]
      exact ⟨Nat.le_of_lt hlt, fun s' h => (Prod.mk.inj h).2 ▸ hlt⟩
    · split
      · exact ⟨Nat.le_refl _, fun s' h => by simp at h⟩
      · exact ⟨Nat.le_refl _, fun s' h => by simp at h⟩

/-- Only an interrupting stream answers with an interruption. -/
theorem eq_of_read_interrupted {s s' : FaultyStream} {n : Nat} (h : s.read n = (.interrupted, s')) :
    s.isInterrupting = true ∧ s' = { s with calls := s.calls + 1 } := by
  unfold read at h
  split at h
  · rename_i hi
    exact ⟨hi, (Prod.mk.inj h).2.symm⟩
  · split at h <;> simp at h

/-- A call that fails moves nothing. -/
theorem eq_of_read_failed {s s' : FaultyStream} {n : Nat} {fault : Fault}
    (h : s.read n = (.failed fault, s')) : s' = { s with calls := s.calls + 1 } := by
  unfold read at h
  split at h
  · cases (Prod.mk.inj h).1
  · split at h
    · exact (Prod.mk.inj h).2.symm
    · cases (Prod.mk.inj h).1

/-- What a delivering call delivers, and what it leaves. -/
theorem eq_of_read_data {s s' : FaultyStream} {n : Nat} {bytes : ByteArray}
    (h : s.read n = (.data bytes, s')) :
    bytes = s.bytes.extract s.position (s.position + s.pieceSize n) ∧
      s' = { s with position := s.position + s.pieceSize n, calls := s.calls + 1 } := by
  unfold read at h
  split at h
  · simp at h
  · split at h
    · simp at h
    · obtain ⟨⟨⟩, rfl⟩ := Prod.mk.inj h
      exact ⟨rfl, rfl⟩

instance : SeekableReader FaultyStream where
  read := read
  remaining s := s.bytes.size - s.position
  patience := patience
  size_le_of_read {s n bytes s'} h := by
    obtain ⟨rfl, _⟩ := eq_of_read_data h
    have := pieceSize_le s n
    rw [ByteArray.size_extract]
    omega
  remaining_of_read {s n bytes s'} h := by
    obtain ⟨rfl, rfl⟩ := eq_of_read_data h
    have := pieceSize_le_rest s n
    rw [ByteArray.size_extract]
    dsimp only
    omega
  remaining_of_interrupted h := by
    obtain ⟨_, rfl⟩ := eq_of_read_interrupted h
    exact Nat.le_refl _
  patience_of_interrupted {s n s'} h := by
    obtain ⟨hi, rfl⟩ := eq_of_read_interrupted h
    simp only [isInterrupting, Bool.and_eq_true, beq_iff_eq] at hi
    have : (s.calls + 1) % 2 ≠ 0 := by omega
    simp [patience, isInterrupting, hi, this]
  seek := seek
  seekBy s offset := forgetPosition (s.seek (.current offset))
  patience_seek_le s goal := (s.patience_seek goal).1
  patience_seekBy_le s offset := by
    rw [snd_forgetPosition]
    exact (s.patience_seek (.current offset)).1
  patience_of_seek_interrupted {s goal s'} h := (s.patience_seek goal).2 s' h
  patience_of_seekBy_interrupted {s offset s'} h :=
    (s.patience_seek (.current offset)).2 s' (eq_of_forgetPosition_interrupted h)

end FaultyStream

end BinaryDelta
