import BinaryDelta.Stream.Reader

/-!
# Random-access sources

Model of `SeekableSource`: `read_at`, `read_at` and `read_exact_at`.

A source has a fixed length, can be moved to any position up to it, and is read from there. The rest
of the library never relies on where a source was left: it reads at absolute offsets.

The length is measured once. A source may have become longer since, and then a read that begins
before the measured end goes on behind it; no read begins there.

* `readAt` is one positioned read call, `readSomeAt` repeats interrupted ones, `readExactAt`
  collects a whole range or reports what is missing of it.

Results:
* `size_le_of_readAt`: a positioned read stays within what was asked for and within the source.
* `lt_length_of_readAt`: a positioned read that delivers bytes begins before the measured end.
* `span_readAt`, `span_readSomeAt`, `span_readExactAt`: reading never changes how far a source
  reaches.
-/

namespace BinaryDelta

/-- How far a source reaches. -/
structure Span where
  /-- The length as it was measured. -/
  length : Nat
  /-- Where the bytes end by now. -/
  extent : Nat := length
  length_le_extent : length ≤ extent := by exact Nat.le_refl _

/-- The span when bytes are known to be there up to some offset. -/
def Span.reaching (s : Span) (offset : Nat) : Span where
  length := s.length
  extent := max s.extent offset
  length_le_extent := Nat.le_trans s.length_le_extent (Nat.le_max_left _ _)

/-- A byte string that can be read at any offset. -/
class Source (σ : Type) where
  span : σ → Span
  /-- Moves to a position; it fails beyond the end. -/
  seek : σ → Nat → Moved Unit × σ
  /-- One read call at the current position for at most that many bytes. -/
  read : σ → Nat → Reply × σ
  /-- A bound on the interruptions in a row. -/
  patience : σ → Nat
  span_seek : ∀ (s : σ) (position : Nat), span (seek s position).2 = span s
  span_read : ∀ (s : σ) (n : Nat), span (read s n).2 = span s
  size_le_of_read : ∀ {s : σ} {n : Nat} {bytes : ByteArray} {s' : σ},
    read s n = (.data bytes, s') → bytes.size ≤ n
  patience_seek_le : ∀ (s : σ) (position : Nat), patience (seek s position).2 ≤ patience s
  patience_of_seek_interrupted : ∀ {s : σ} {position : Nat} {s' : σ},
    seek s position = (.interrupted, s') → patience s' < patience s
  patience_of_interrupted : ∀ {s : σ} {n : Nat} {s' : σ},
    read s n = (.interrupted, s') → patience s' < patience s

namespace Source

variable {σ : Type} [Source σ]

/-- The length of a source. -/
def length (s : σ) : Nat := (span s).length

/-- Where the bytes of a source end by now. -/
def extent (s : σ) : Nat := (span s).extent

/-- Does the source hold no bytes? -/
def isEmpty (s : σ) : Bool := length s == 0

/-- An answer with so many bytes at most. -/
def clipAnswer (limit : Nat) (answer : Reply × σ) : Reply × σ := (answer.1.clip limit, answer.2)

/-- One read call for at most `n` bytes from `position`. At or behind the end it answers with no
bytes and leaves the source alone. It is interrupted if moving to the position is. -/
def readAt (s : σ) (position n : Nat) : Reply × σ :=
  if length s ≤ position then (.data ByteArray.empty, s)
  else
    match seek s position with
    | (.failed fault, s) => (.failed fault, s)
    | (.interrupted, s) => (.interrupted, s)
    | (.reached (), s) => clipAnswer (extent s - position) (read s n)

@[simp] theorem span_readAt (s : σ) (position n : Nat) :
    span (readAt s position n).2 = span s := by
  have hs := span_seek s position
  unfold readAt
  split
  · rfl
  · split
    · rename_i h
      rwa [h] at hs
    · rename_i h
      rwa [h] at hs
    · rename_i h
      rw [h] at hs
      exact (span_read _ n).trans hs

/-- A positioned read stays within what was asked for and within the source. -/
theorem size_le_of_readAt {s s' : σ} {position n : Nat} {bytes : ByteArray}
    (h : readAt s position n = (.data bytes, s')) : bytes.size ≤ min n (extent s - position) := by
  unfold readAt at h
  split at h
  · obtain ⟨⟨⟩, rfl⟩ := Prod.mk.inj h
    simp
  · split at h
    · simp at h
    · simp at h
    · rename_i s₁ hs
      obtain ⟨hc, rfl⟩ := Prod.mk.inj h
      obtain ⟨hl, whole, hw, hle⟩ := Reply.data_of_clip hc
      have hk := span_seek s position
      rw [hs] at hk
      have := size_le_of_read (Prod.ext hw rfl)
      rw [extent, ← hk]
      exact Nat.le_min.mpr ⟨Nat.le_trans hle this, hl⟩

/-- A positioned read that delivers bytes begins before the measured end. -/
theorem lt_length_of_readAt {s s' : σ} {position n : Nat} {bytes : ByteArray}
    (h : readAt s position n = (.data bytes, s')) (hb : 0 < bytes.size) :
    position < length s := by
  unfold readAt at h
  split at h
  · obtain ⟨⟨⟩, rfl⟩ := Prod.mk.inj h
    simp at hb
  · omega

theorem patience_of_readAt {s s' : σ} {position n : Nat}
    (h : readAt s position n = (.interrupted, s')) : patience s' < patience s := by
  have hp := patience_seek_le s position
  unfold readAt at h
  split at h
  · simp at h
  · split at h
    · simp at h
    · rename_i hs
      obtain ⟨-, rfl⟩ := Prod.mk.inj h
      exact patience_of_seek_interrupted hs
    · rename_i hs
      rw [hs] at hp
      obtain ⟨hc, rfl⟩ := Prod.mk.inj h
      have := patience_of_interrupted (Prod.ext (Reply.interrupted_of_clip hc) rfl)
      exact Nat.lt_of_lt_of_le this hp

/-- One positioned read call, repeated while it is interrupted. -/
def readSomeAt (s : σ) (position n : Nat) : Except Fault ByteArray × σ :=
  match _h : readAt s position n with
  | (.data bytes, s') => (.ok bytes, s')
  | (.failed fault, s') => (.error fault, s')
  | (.interrupted, s') => readSomeAt s' position n
termination_by patience s
decreasing_by exact patience_of_readAt _h

@[simp] theorem span_readSomeAt (s : σ) (position n : Nat) :
    span (readSomeAt s position n).2 = span s := by
  fun_induction readSomeAt s position n with
  | case1 s bytes s' h => rw [← span_readAt s position n, h]
  | case2 s fault s' h => rw [← span_readAt s position n, h]
  | case3 s s' h ih => rw [ih, ← span_readAt s position n, h]

theorem span_of_readSomeAt {s s' : σ} {position n : Nat} {answer : Except Fault ByteArray}
    (h : readSomeAt s position n = (answer, s')) : span s' = span s := by
  rw [← span_readSomeAt s position n, h]

theorem size_le_of_readSomeAt {s s' : σ} {position n : Nat} {bytes : ByteArray}
    (h : readSomeAt s position n = (.ok bytes, s')) :
    bytes.size ≤ min n (extent s - position) := by
  fun_induction readSomeAt s position n with
  | case1 s bs s₁ hr =>
    obtain ⟨⟨⟩, rfl⟩ := Prod.mk.inj h
    exact size_le_of_readAt hr
  | case2 => simp at h
  | case3 s s₁ hr ih =>
    have := ih h
    rwa [extent, ← span_readAt s position n, hr]

/-- Reads on behind `acc` until `n` more bytes from `position` have arrived; if the source ends
before, answers with the number of bytes missing. -/
def readExactAtAfter (acc : ByteArray) (s : σ) (position n : Nat) :
    Except Fault (ByteArray ⊕ Nat) × σ :=
  if n = 0 then (.ok (.inl acc), s)
  else
    match readSomeAt s position n with
    | (.error fault, s) => (.error fault, s)
    | (.ok bytes, s) =>
      if bytes.size = 0 then (.ok (.inr n), s)
      else readExactAtAfter (acc ++ bytes) s (position + bytes.size) (n - bytes.size)
termination_by n

/-- Reads exactly `n` bytes from `position`. The error names the start of the range and how many of
its bytes could not be read. -/
def readExactAt (s : σ) (position n : Nat) : Except DeltaError ByteArray × σ :=
  match readExactAtAfter ByteArray.empty s position n with
  | (.error fault, s) => (.error (.io fault), s)
  | (.ok (.inr missing), s) => (.error (.unexpectedEndOfSource position missing), s)
  | (.ok (.inl bytes), s) => (.ok bytes, s)

theorem span_readExactAtAfter (acc : ByteArray) (s : σ) (position n : Nat) :
    span (readExactAtAfter acc s position n).2 = span s := by
  fun_induction readExactAtAfter acc s position n with
  | case1 => rfl
  | case2 acc s position n _ fault s' h => exact span_of_readSomeAt h
  | case3 acc s position n _ bytes s' h => exact span_of_readSomeAt h
  | case4 acc s position n _ bytes s' h _ ih => rw [ih, span_of_readSomeAt h]

@[simp] theorem span_readExactAt (s : σ) (position n : Nat) :
    span (readExactAt s position n).2 = span s := by
  have := span_readExactAtAfter ByteArray.empty s position n
  unfold readExactAt
  split <;> rename_i h <;> rwa [h] at this

end Source

end BinaryDelta
