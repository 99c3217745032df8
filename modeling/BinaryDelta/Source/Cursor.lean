import BinaryDelta.Source.Basic

/-!
# A source read from front to end

Model of `SourceCursor`.

`SourceCursor` reads a source sequentially from some offset. Every read is positioned, so cursors
that take turns on one source do not disturb each other.

Results:
* `kept_ahead`: a cursor that is read moves on, if it stands before the measured end, or stays.
-/

namespace BinaryDelta

/-- A source and the offset of the next byte to be read. -/
structure SourceCursor (σ : Type) where
  source : σ
  position : Nat := 0

namespace SourceCursor

variable {σ : Type} [Source σ]

/-- One read call at the cursor. -/
def read : SourceCursor σ → Nat → Reply × SourceCursor σ
  | ⟨source, position⟩, n =>
    match Source.readAt source position n with
    | (.data bytes, source) => (.data bytes, ⟨source, position + bytes.size⟩)
    | (.interrupted, source) => (.interrupted, ⟨source, position⟩)
    | (.failed fault, source) => (.failed fault, ⟨source, position⟩)

/-- A bound on the bytes behind the cursor. -/
def remaining (c : SourceCursor σ) : Nat := Source.extent c.source - c.position

theorem size_le_of_read {c c' : SourceCursor σ} {n : Nat} {bytes : ByteArray}
    (h : c.read n = (.data bytes, c')) : bytes.size ≤ n := by
  rcases c with ⟨source, position⟩
  simp only [read] at h
  split at h
  · rename_i hr
    obtain ⟨⟨⟩, rfl⟩ := Prod.mk.inj h
    have := Source.size_le_of_readAt hr
    omega
  · simp at h
  · simp at h

theorem remaining_of_read {c c' : SourceCursor σ} {n : Nat} {bytes : ByteArray}
    (h : c.read n = (.data bytes, c')) : bytes.size + c'.remaining ≤ c.remaining := by
  rcases c with ⟨source, position⟩
  simp only [read] at h
  split at h
  · rename_i hr
    obtain ⟨⟨⟩, rfl⟩ := Prod.mk.inj h
    have hs := Source.size_le_of_readAt hr
    have hl := congrArg Span.extent (Source.span_readAt source position n)
    rw [hr] at hl
    simp only [remaining, Source.extent] at *
    omega
  · simp at h
  · simp at h

theorem remaining_of_interrupted {c c' : SourceCursor σ} {n : Nat}
    (h : c.read n = (.interrupted, c')) : c'.remaining ≤ c.remaining := by
  rcases c with ⟨source, position⟩
  simp only [read] at h
  split at h
  · simp at h
  · rename_i hr
    obtain ⟨_, rfl⟩ := Prod.mk.inj h
    have hl := congrArg Span.extent (Source.span_readAt source position n)
    rw [hr] at hl
    exact Nat.le_of_eq (congrArg (· - position) hl)
  · simp at h

theorem patience_of_interrupted {c c' : SourceCursor σ} {n : Nat}
    (h : c.read n = (.interrupted, c')) : Source.patience c'.source < Source.patience c.source := by
  rcases c with ⟨source, position⟩
  simp only [read] at h
  split at h
  · simp at h
  · rename_i hr
    obtain ⟨_, rfl⟩ := Prod.mk.inj h
    exact Source.patience_of_readAt hr
  · simp at h

instance : ByteReader (SourceCursor σ) where
  read := read
  remaining := remaining
  patience c := Source.patience c.source
  size_le_of_read := size_le_of_read
  remaining_of_read := remaining_of_read
  remaining_of_interrupted := remaining_of_interrupted
  patience_of_interrupted := patience_of_interrupted

/-- The later cursor reads the same source and does not stand before the earlier one, nor behind it
unless that stood before the measured end. -/
structure Ahead (earlier later : SourceCursor σ) : Prop where
  span_eq : Source.span later.source = Source.span earlier.source
  position_le : earlier.position ≤ later.position
  lt_length : earlier.position < later.position → earlier.position < Source.length earlier.source

theorem Ahead.trans {a b c : SourceCursor σ} (h : Ahead a b) (h' : Ahead b c) : Ahead a c where
  span_eq := h'.span_eq.trans h.span_eq
  position_le := Nat.le_trans h.position_le h'.position_le
  lt_length hac := by
    by_cases hab : a.position < b.position
    · exact h.lt_length hab
    · have he : a.position = b.position := Nat.le_antisymm h.position_le (by omega)
      have hb := h'.lt_length (he ▸ hac)
      rwa [Source.length, h.span_eq, ← Source.length, ← he] at hb

theorem ahead_read (c : SourceCursor σ) (n : Nat) : Ahead c (c.read n).2 := by
  rcases c with ⟨source, position⟩
  have hs := Source.span_readAt source position n
  simp only [read]
  split <;> rename_i hr <;> rw [hr] at hs
  · refine ⟨hs, Nat.le_add_right _ _, fun hp => Source.lt_length_of_readAt hr ?_⟩
    dsimp only at hp
    omega
  · exact ⟨hs, Nat.le_refl _, fun hp => absurd hp (Nat.lt_irrefl _)⟩
  · exact ⟨hs, Nat.le_refl _, fun hp => absurd hp (Nat.lt_irrefl _)⟩

/-- A cursor that is read moves on, if it stands before the measured end, or stays. -/
theorem kept_ahead : ByteReader.Kept (Ahead : SourceCursor σ → SourceCursor σ → Prop) where
  refl _ := ⟨rfl, Nat.le_refl _, fun hp => absurd hp (Nat.lt_irrefl _)⟩
  trans := Ahead.trans
  read := ahead_read

end SourceCursor

end BinaryDelta
