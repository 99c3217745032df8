import BinaryDelta.Proofs.Engine.Compare
import BinaryDelta.Proofs.Engine.Lookahead

/-!
# How far a match goes

The end of the source, the end of the target, a difference and the limit of a match can each lie at
any place within a step of the comparison, and source and target may cut a step short wherever they
like. None of this shows in the length that is found, and the window is the same afterwards but for
having looked further ahead.

Results:
* `used_matchLengthFrom`: comparing does nothing to a window but fill it.
* **`matchLengthFrom_exact`**: comparing finds the common prefix up to the longest match, and the
  strides within a step find that of two byte strings.
-/

namespace BinaryDelta

variable {σ ρ : Type} [Source σ] [ByteReader ρ] {src src' : σ} {r : ρ} {w w' : TargetWindow ρ}

open TargetWindow (Used)

/-- Comparing does nothing to a window but fill it. -/
theorem used_matchLengthFrom {capacity blockSize offset matched length : Nat}
    (hw : Used r capacity w)
    (h : matchLengthFrom blockSize src w offset matched = (.ok (length, w'), src')) :
    Used r capacity w' := by
  fun_induction matchLengthFrom blockSize src w offset matched with
  | case1 => simp at h
  | case2 src w matched _ goal w₁ hf =>
    cases h
    exact hw.of_fill hf
  | case3 => simp at h
  | case4 src w matched _ goal w₁ hf =>
    cases h
    exact hw.of_fill hf
  | case5 src w matched _ goal w₁ hf _ _ _ _ _ _ _ ih => exact ih (hw.of_fill hf) h
  | case6 =>
    cases h
    exact hw

/-- **A match is exactly as long as it can be.** Whatever was read ahead of the target and however
source and target hand out their bytes, comparing from any offset of the source succeeds. It finds
the length that they have in common from there on, up to the longest match, and leaves the window
where it is. The strides within a step find what a comparison byte by byte finds. -/
theorem matchLengthFrom_exact {source target : List UInt8} (hsrc : Source.Holds src source)
    (hr : ByteReader.Delivers r target) {capacity blockSize : Nat} (hb : 0 < blockSize)
    (hw : Used r capacity w) (offset : Nat) :
    (∃ (w' : TargetWindow ρ) (src' : σ),
      matchLengthFrom blockSize src w offset 0 =
        (.ok (min longestMatch (commonPrefix (source.drop offset) (target.drop w.position)), w'),
          src') ∧
        Source.Holds src' source ∧ Used r capacity w' ∧ w'.Exact target ∧
        w'.position = w.position ∧ w.available ≤ w'.available) ∧
      ∀ (a b : ByteArray) (shift : Nat),
        agreement a b shift = commonPrefix a.data.toList (b.data.toList.drop shift) := by
  refine ⟨?_, agreement_eq_commonPrefix⟩
  obtain ⟨R, d, hr⟩ := hr
  obtain ⟨hshows, -, -⟩ := hw.stands d.resuming hr
  have hnone : 0 ≤ matchLengthAt source (target.drop w.position) offset := Nat.zero_le _
  obtain ⟨w', src', hmatch, hsees, -⟩ := matchLengthFrom_eq (Source.holding_holds source) d
    ⟨hsrc, hshows, rfl⟩ hb hnone (Nat.zero_le _)
  have hused := used_matchLengthFrom hw hmatch
  have hahead := looksAhead_matchLengthFrom hmatch
  obtain ⟨hshows', hp, -⟩ := hused.stands d.resuming hr
  exact ⟨w', src', hmatch, hsees.holds, hused, hshows'.exact hp, hahead.position_eq,
    hahead.available_le⟩

/-- Source and target hand out up to three bytes at every other call, and have eight in common. -/
theorem matchLengthFrom_exact_interrupted :
    let stream (bytes : List UInt8) : FaultyStream :=
      { bytes := packBytes bytes, chunk := some 3, interrupts := true }
    let source : SeekingSource FaultyStream :=
      ⟨stream [9, 1, 2, 3, 4, 5, 6, 7, 8, 0], { length := 10 }, some 0⟩
    let target := TargetWindow.ofReader (stream [7, 1, 2, 3, 4, 5, 6, 7, 8, 5]) 1
    let w := (target.fill 1).2.advance 1
    ∃ (w' : TargetWindow FaultyStream) (source' : SeekingSource FaultyStream),
      matchLengthFrom 2 source w 1 0 = (.ok (8, w'), source') ∧ w'.position = 1 := by
  intro stream source target w
  have hstands (bytes : List UInt8) : (stream bytes).Standing (packBytes bytes) 0 :=
    ⟨rfl, rfl, by simp [stream], rfl, rfl⟩
  have hsource : Source.Holds source [9, 1, 2, 3, 4, 5, 6, 7, 8, 0] := by
    refine ⟨_, SeekingSource.holding_tracks (FaultyStream.standing (packBytes _)), rfl, 0,
      hstands _, ?_⟩
    rintro _ ⟨⟩
    rfl
  have hused : Used (stream [7, 1, 2, 3, 4, 5, 6, 7, 8, 5]) 1 w :=
    (Used.new.fill 1).advance (by decide +kernel)
  have hposition : w.position = 1 := by decide +kernel
  have hblocks : 0 < 2 := by decide
  obtain ⟨⟨w', source', hmatch, -, -, -, hsame, -⟩, -⟩ :=
    matchLengthFrom_exact hsource (FaultyStream.delivers (hstands _)) hblocks hused 1
  rw [hposition] at hmatch hsame
  exact ⟨w', source', hmatch, hsame⟩

end BinaryDelta
