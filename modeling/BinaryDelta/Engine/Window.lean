import BinaryDelta.Stream.Reader

/-!
# Looking ahead in the target

Model of `TargetWindow`: `window_capacity`, `fill`, `window`, `byte_at`, `advance` and `compact`.

The target is read once, from front to end, but a match may be looked for far ahead of the place
that has been reached. A `TargetWindow` holds the bytes read ahead. `fill` reads on until enough of
them are there or the target has ended, `advance` moves on.

The bytes lie in a buffer of limited room. Those that are done with stay until the room that they
take is needed, and the buffer grows only if what is wanted does not fit into all of it.

Results:
* `cursor_add_le_makeRoom`: there is room for what is wanted before the reader is asked.
* `looksAhead_fill`: filling loses no byte that was read ahead, and adds only bytes that were to
  come.
* `unread_advance`: moving on leaves less unread.

Out of scope: buffers that a machine has no room for. Nothing bounds what can be wanted here, but an
engine never wants more than `longestMatch` and one byte.
-/

namespace BinaryDelta

/-- The least power of two that is not below `n`. -/
def powerAtLeast (n : Nat) : Nat := if n ≤ 1 then 1 else 1 <<< ((n - 1).log2 + 1)

theorem le_powerAtLeast (n : Nat) : n ≤ powerAtLeast n := by
  unfold powerAtLeast
  split
  · assumption
  · have := Nat.lt_log2_self (n := n - 1)
    rw [Nat.one_shiftLeft]
    omega

/-- A target in the course of being read, with the bytes read ahead. -/
structure TargetWindow (ρ : Type) where
  input : ρ
  /-- Bytes of the target, those before the cursor done with. -/
  buffer : ByteArray := ByteArray.empty
  /-- How many bytes there is room for. -/
  capacity : Nat
  cursor : Nat := 0
  /-- Has the reader ended? -/
  ended : Bool := false
  /-- The target offset of the cursor. -/
  position : Nat := 0
  cursor_le : cursor ≤ buffer.size := by exact Nat.zero_le _
  size_le : buffer.size ≤ capacity := by exact Nat.zero_le _

namespace TargetWindow

/-- The room that a search for blocks of this size begins with: that of four blocks up to a limit,
but never less than a block and some more. -/
def initialCapacity (blockSize : Nat) : Nat := max (min 16384 (blockSize * 4)) (blockSize + 1024)

variable {ρ : Type}

/-- A window at the front of a target. -/
def ofReader (input : ρ) (capacity : Nat) : TargetWindow ρ := { input, capacity := max capacity 1 }

/-- The number of bytes read ahead. -/
def available (w : TargetWindow ρ) : Nat := w.buffer.size - w.cursor

/-- The byte `i` places ahead; zero if it has not been read. -/
def byteAt (w : TargetWindow ρ) (i : Nat) : UInt8 :=
  if h : w.cursor + i < w.buffer.size then w.buffer[w.cursor + i] else 0

/-- The next `n` bytes, as far as they have been read. -/
def ahead (w : TargetWindow ρ) (n : Nat) : ByteArray := w.buffer.extract w.cursor (w.cursor + n)

/-- Moves on by `n` bytes, as far as they have been read. -/
def advance : TargetWindow ρ → Nat → TargetWindow ρ
  | ⟨input, buffer, capacity, cursor, ended, position, _, hs⟩, n =>
    let n := min n (buffer.size - cursor)
    ⟨input, buffer, capacity, cursor + n, ended, position + n, by omega, hs⟩

/-! ## Making room -/

/-- Drops the bytes that are done with. -/
def compact : TargetWindow ρ → TargetWindow ρ
  | ⟨input, buffer, capacity, cursor, ended, position, hc, hs⟩ =>
    if 0 < cursor then
      ⟨input, buffer.extract cursor buffer.size, capacity, 0, ended, position, Nat.zero_le _,
        by rw [ByteArray.size_extract]; omega⟩
    else ⟨input, buffer, capacity, cursor, ended, position, hc, hs⟩

/-- Enlarges the buffer if it has no room for `want` bytes at all. -/
def grow (w : TargetWindow ρ) (want : Nat) : TargetWindow ρ :=
  if h : w.capacity < want then
    { w with
      capacity := powerAtLeast want
      size_le := Nat.le_trans (Nat.le_trans w.size_le (Nat.le_of_lt h)) (le_powerAtLeast want) }
  else w

/-- Makes room for `want` bytes from the cursor on. -/
def makeRoom (w : TargetWindow ρ) (want : Nat) : TargetWindow ρ :=
  if w.capacity < w.cursor + want then w.compact.grow want else w

/-- The later window differs from the earlier one only in where its bytes lie, and in the room for
them. -/
structure Rearranges (earlier later : TargetWindow ρ) : Prop where
  input_eq : later.input = earlier.input
  ended_eq : later.ended = earlier.ended
  position_eq : later.position = earlier.position
  available_eq : later.available = earlier.available
  ahead_eq : later.ahead later.available = earlier.ahead earlier.available

theorem Rearranges.refl (w : TargetWindow ρ) : Rearranges w w := ⟨rfl, rfl, rfl, rfl, rfl⟩

theorem rearranges_compact (w : TargetWindow ρ) : Rearranges w w.compact := by
  rcases w with ⟨input, buffer, capacity, cursor, ended, position, hc, hs⟩
  have hend : cursor + (buffer.size - cursor) = buffer.size := by omega
  simp only [compact]
  split
  · refine ⟨rfl, rfl, rfl, ?_, ?_⟩
    · simp only [available, ByteArray.size_extract]
      omega
    · simp only [available, ahead, hend, Nat.sub_zero, Nat.zero_add, ByteArray.extract_zero_size]
  · exact .refl _

theorem rearranges_grow (w : TargetWindow ρ) (want : Nat) : Rearranges w (w.grow want) := by
  unfold grow
  split
  · exact ⟨rfl, rfl, rfl, rfl, rfl⟩
  · exact .refl w

theorem rearranges_makeRoom (w : TargetWindow ρ) (want : Nat) : Rearranges w (w.makeRoom want) := by
  unfold makeRoom
  split
  · have hc := rearranges_compact w
    have hg := rearranges_grow w.compact want
    exact ⟨hg.input_eq.trans hc.input_eq, hg.ended_eq.trans hc.ended_eq,
      hg.position_eq.trans hc.position_eq, hg.available_eq.trans hc.available_eq,
      hg.ahead_eq.trans hc.ahead_eq⟩
  · exact .refl w

theorem cursor_compact (w : TargetWindow ρ) : w.compact.cursor = 0 := by
  rcases w with ⟨input, buffer, capacity, cursor, ended, position, hc, hs⟩
  simp only [compact]
  split
  · rfl
  · exact Nat.eq_zero_of_not_pos ‹_›

/-- There is room for what is wanted. -/
theorem cursor_add_le_makeRoom (w : TargetWindow ρ) (want : Nat) :
    (w.makeRoom want).cursor + want ≤ (w.makeRoom want).capacity := by
  have hzero := cursor_compact w
  have hpower := le_powerAtLeast want
  unfold makeRoom
  split
  · unfold grow
    split
    · simpa only [hzero, Nat.zero_add] using hpower
    · omega
  · omega

/-- If what is wanted is not there yet, there is room left to read it into. -/
theorem size_lt_makeRoom {w : TargetWindow ρ} {want : Nat}
    (h : ¬(want ≤ w.available || w.ended) = true) :
    (w.makeRoom want).buffer.size < (w.makeRoom want).capacity := by
  simp only [Bool.or_eq_true, decide_eq_true_eq, not_or] at h
  have hroom := cursor_add_le_makeRoom w want
  have havailable := (rearranges_makeRoom w want).available_eq
  have hcursor := (w.makeRoom want).cursor_le
  rw [available, available] at *
  omega

/-! ## Reading ahead -/

variable [ByteReader ρ]

/-- Reads once, as much as there is room for. -/
def readMore : TargetWindow ρ → Except Fault Unit × TargetWindow ρ
  | ⟨input, buffer, capacity, cursor, ended, position, hc, hs⟩ =>
    match _h : ByteReader.readSome input (capacity - buffer.size) with
    | (.error fault, input) =>
      (.error fault, ⟨input, buffer, capacity, cursor, ended, position, hc, hs⟩)
    | (.ok bytes, input) =>
      have := ByteReader.size_le_of_readSome _h
      (.ok (), ⟨input, buffer ++ bytes, capacity, cursor, ended || bytes.size == 0, position,
        by rw [ByteArray.size_append]; omega, by rw [ByteArray.size_append]; omega⟩)

/-- What one read that did not fail has made of a window. -/
theorem of_readMore {w w' : TargetWindow ρ} (h : w.readMore = (.ok (), w')) :
    ∃ bytes, ByteReader.readSome w.input (w.capacity - w.buffer.size) = (.ok bytes, w'.input) ∧
      w'.buffer = w.buffer ++ bytes ∧ w'.cursor = w.cursor ∧ w'.position = w.position ∧
      w'.ended = (w.ended || bytes.size == 0) := by
  rcases w with ⟨input, buffer, capacity, cursor, ended, position, hc, hs⟩
  simp only [readMore] at h
  split at h
  · cases h
  · rename_i bytes input' hr
    cases h
    exact ⟨bytes, hr, rfl, rfl, rfl, rfl⟩

/-- What one read that failed has made of a window. -/
theorem of_readMore_error {w w' : TargetWindow ρ} {fault : Fault}
    (h : w.readMore = (.error fault, w')) :
    ByteReader.readSome w.input (w.capacity - w.buffer.size) = (.error fault, w'.input) ∧
      w'.buffer = w.buffer ∧ w'.cursor = w.cursor ∧ w'.position = w.position ∧
      w'.ended = w.ended := by
  rcases w with ⟨input, buffer, capacity, cursor, ended, position, hc, hs⟩
  simp only [readMore] at h
  split at h
  · rename_i hr
    cases h
    exact ⟨hr, rfl, rfl, rfl, rfl⟩
  · cases h

/-- One read brings more bytes, or the end. -/
theorem progress_readMore {w w' : TargetWindow ρ} (h : w.readMore = (.ok (), w')) :
    w.available < w'.available ∧ w'.ended = w.ended ∨
      w'.available = w.available ∧ w'.ended = true := by
  obtain ⟨bytes, -, hb, hc, -, he⟩ := of_readMore h
  have hcursor := w.cursor_le
  simp only [available, hb, hc, he, ByteArray.size_append]
  by_cases hzero : bytes.size = 0
  · right
    simp [hzero]
  · left
    simp only [beq_eq_false_iff_ne.mpr hzero, Bool.or_false, and_true]
    omega

/-- Reads ahead until `want` bytes are there or the target has ended. After a fault the window can
still be used. -/
def fill (w : TargetWindow ρ) (want : Nat) : Except Fault Unit × TargetWindow ρ :=
  if _hw : want ≤ w.available || w.ended then (.ok (), w)
  else
    match _h : (w.makeRoom want).readMore with
    | (.error fault, w') => (.error fault, w')
    | (.ok (), w') => fill w' want
termination_by (want - w.available) + (if w.ended then 0 else 1)
decreasing_by
  have hr := rearranges_makeRoom w want
  have hp := progress_readMore _h
  rw [hr.available_eq, hr.ended_eq] at hp
  simp only [Bool.or_eq_true, decide_eq_true_eq, not_or, Bool.not_eq_true] at _hw
  obtain ⟨hmore, hended⟩ | ⟨hsame, hended⟩ := hp
  · rw [hended]
    omega
  · rw [hended, hsame, _hw.2]
    simp

/-- A bound on the target bytes behind the cursor. -/
def unread (w : TargetWindow ρ) : Nat := w.available + ByteReader.remaining w.input

/-- The later window stands where the earlier one does and looks at least as far ahead. -/
structure LooksAhead (earlier later : TargetWindow ρ) : Prop where
  position_eq : later.position = earlier.position
  available_le : earlier.available ≤ later.available
  unread_le : later.unread ≤ earlier.unread

theorem LooksAhead.refl (w : TargetWindow ρ) : LooksAhead w w := ⟨rfl, Nat.le_refl _, Nat.le_refl _⟩

theorem LooksAhead.trans {a b c : TargetWindow ρ} (h : LooksAhead a b) (h' : LooksAhead b c) :
    LooksAhead a c where
  position_eq := h'.position_eq.trans h.position_eq
  available_le := Nat.le_trans h.available_le h'.available_le
  unread_le := Nat.le_trans h'.unread_le h.unread_le

theorem looksAhead_makeRoom (w : TargetWindow ρ) (want : Nat) : LooksAhead w (w.makeRoom want) := by
  have h := rearranges_makeRoom w want
  exact ⟨h.position_eq, Nat.le_of_eq h.available_eq.symm,
    Nat.le_of_eq (by rw [unread, unread, h.available_eq, h.input_eq])⟩

theorem looksAhead_readMore {w w' : TargetWindow ρ} (h : w.readMore = (.ok (), w')) :
    LooksAhead w w' := by
  obtain ⟨bytes, hr, hb, hc, hp, -⟩ := of_readMore h
  have hremaining := ByteReader.remaining_of_readSome hr
  have hcursor := w.cursor_le
  refine ⟨hp, ?_, ?_⟩
  · simp only [available, hb, hc, ByteArray.size_append]
    omega
  · simp only [unread, available, hb, hc, ByteArray.size_append]
    omega

/-- Filling loses no byte that was read ahead, and adds only bytes that were to come. -/
theorem looksAhead_fill {w w' : TargetWindow ρ} {want : Nat} (h : w.fill want = (.ok (), w')) :
    LooksAhead w w' := by
  fun_induction fill w want with
  | case1 w hw =>
    cases h
    exact .refl _
  | case2 w hw fault w₁ hr => cases h
  | case3 w hw w₁ hr ih =>
    exact ((looksAhead_makeRoom w want).trans (looksAhead_readMore hr)).trans (ih h)

/-- Moving on leaves less unread. -/
theorem unread_advance {w : TargetWindow ρ} {n : Nat} (hn : 0 < n) (hw : 0 < w.available) :
    (w.advance n).unread < w.unread := by
  rcases w with ⟨input, buffer, capacity, cursor, ended, position, hc, hs⟩
  simp only [available] at hw
  simp only [advance, unread, available]
  omega

end TargetWindow

end BinaryDelta
