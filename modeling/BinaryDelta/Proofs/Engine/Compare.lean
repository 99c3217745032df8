import BinaryDelta.Proofs.Engine.Strides
import BinaryDelta.Proofs.Engine.Window
import BinaryDelta.Proofs.Source.Holding

/-!
# What comparing finds

The comparison works in steps, over pieces of any size that the source hands out and with no more of
the target than it needs. It finds nothing but the common prefix of what is left of the target and
of the source from the offset on, cut off at the longest match.

Results:
* `commonPrefix_append`, `commonPrefix_eq_add`: a common prefix can be found piece by piece.
* `agreement_eq_commonPrefix`: one step finds the common prefix of two byte strings.
* `matchLengthFrom_eq`: comparing succeeds, consumes nothing and finds the common prefix.
-/

namespace BinaryDelta

/-- The length of the longest common prefix. -/
def commonPrefix : List UInt8 → List UInt8 → Nat
  | [], _ => 0
  | _ :: _, [] => 0
  | a :: as, b :: bs => if a = b then commonPrefix as bs + 1 else 0

@[simp] theorem commonPrefix_nil_left (bs : List UInt8) : commonPrefix [] bs = 0 := rfl

@[simp] theorem commonPrefix_nil_right (as : List UInt8) : commonPrefix as [] = 0 := by
  cases as <;> rfl

theorem commonPrefix_le_left (as bs : List UInt8) : commonPrefix as bs ≤ as.length := by
  induction as generalizing bs with
  | nil => exact Nat.le_refl _
  | cons a as ih =>
    cases bs with
    | nil => exact Nat.zero_le _
    | cons b bs =>
      rw [commonPrefix, List.length_cons]
      split
      · exact Nat.succ_le_succ (ih bs)
      · exact Nat.zero_le _

theorem commonPrefix_le_right (as bs : List UInt8) : commonPrefix as bs ≤ bs.length := by
  induction as generalizing bs with
  | nil => exact Nat.zero_le _
  | cons a as ih =>
    cases bs with
    | nil => exact Nat.le_refl _
    | cons b bs =>
      rw [commonPrefix, List.length_cons]
      split
      · exact Nat.succ_le_succ (ih bs)
      · exact Nat.zero_le _

/-- The front of a byte string is all common with it. -/
theorem commonPrefix_take {as : List UInt8} {n : Nat} (h : n ≤ as.length) :
    commonPrefix as (as.take n) = n := by
  induction as generalizing n with
  | nil => exact (Nat.le_zero.mp h).symm
  | cons a as ih =>
    cases n with
    | zero => rfl
    | succ n =>
      rw [List.take_succ_cons, commonPrefix, if_pos rfl, ih (Nat.le_of_succ_le_succ h)]

/-- Up to the length of the common prefix, both are the same. -/
theorem take_commonPrefix {as bs : List UInt8} {n : Nat} (h : n ≤ commonPrefix as bs) :
    as.take n = bs.take n := by
  induction as generalizing bs n with
  | nil =>
    obtain rfl := Nat.le_zero.mp h
    rfl
  | cons a as ih =>
    cases bs with
    | nil =>
      obtain rfl := Nat.le_zero.mp h
      rfl
    | cons b bs =>
      cases n with
      | zero => rfl
      | succ n =>
        rw [commonPrefix] at h
        split at h
        · rename_i hab
          rw [List.take_succ_cons, List.take_succ_cons, hab, ih (Nat.le_of_succ_le_succ h)]
        · exact absurd h (Nat.not_succ_le_zero n)

/-- What is known to be common can be skipped. -/
theorem commonPrefix_eq_add {as bs : List UInt8} {n : Nat} (h : n ≤ commonPrefix as bs) :
    commonPrefix as bs = n + commonPrefix (as.drop n) (bs.drop n) := by
  induction n generalizing as bs with
  | zero => rw [List.drop_zero, List.drop_zero, Nat.zero_add]
  | succ n ih =>
    cases as with
    | nil => exact absurd h (Nat.not_succ_le_zero n)
    | cons a as =>
      cases bs with
      | nil => exact absurd h (Nat.not_succ_le_zero n)
      | cons b bs =>
        rw [commonPrefix] at h ⊢
        split at h
        · rename_i hab
          rw [if_pos hab, List.drop_succ_cons, List.drop_succ_cons, ih (Nat.le_of_succ_le_succ h)]
          omega
        · exact absurd h (Nat.not_succ_le_zero n)

/-- A difference within the front of both ends the common prefix; without one, the front is part of
it. -/
theorem commonPrefix_append {as bs : List UInt8} (as' bs' : List UInt8)
    (hl : as.length ≤ bs.length) :
    (commonPrefix as bs < as.length → commonPrefix (as ++ as') (bs ++ bs') = commonPrefix as bs) ∧
      (commonPrefix as bs = as.length → as.length ≤ commonPrefix (as ++ as') (bs ++ bs')) := by
  induction as generalizing bs with
  | nil => exact ⟨fun h => absurd h (Nat.lt_irrefl 0), fun _ => Nat.zero_le _⟩
  | cons a as ih =>
    cases bs with
    | nil => exact absurd hl (Nat.not_succ_le_zero _)
    | cons b bs =>
      obtain ⟨ih₁, ih₂⟩ := ih (Nat.le_of_succ_le_succ hl)
      rw [List.cons_append, List.cons_append, commonPrefix, commonPrefix, List.length_cons]
      by_cases hab : a = b
      · rw [if_pos hab, if_pos hab]
        constructor
        · intro h
          rw [ih₁ (Nat.lt_of_succ_lt_succ h)]
        · intro h
          exact Nat.succ_le_succ (ih₂ (Nat.succ.inj h))
      · rw [if_neg hab, if_neg hab]
        exact ⟨fun _ => rfl, fun h => absurd h.symm (Nat.succ_ne_zero _)⟩

/-- Equal fronts are common. -/
theorem le_commonPrefix {as bs : List UInt8} {n : Nat} (h : as.take n = bs.take n)
    (hl : n ≤ as.length) : n ≤ commonPrefix as bs := by
  have hfront : commonPrefix (as.take n) (bs.take n) = (as.take n).length := by
    rw [← h]
    have hself : commonPrefix (as.take n) ((as.take n).take (as.take n).length) =
        (as.take n).length := commonPrefix_take (Nat.le_refl _)
    rwa [List.take_length] at hself
  have hlength : (as.take n).length = n := List.length_take_of_le hl
  have hjoined := (commonPrefix_append (as.drop n) (bs.drop n)
    (Nat.le_of_eq (congrArg List.length h))).2 hfront
  rwa [List.take_append_drop, List.take_append_drop, hlength] at hjoined

/-- The first difference ends the common prefix. -/
theorem firstDifference_eq (a b : ByteArray) (shift i : Nat) (hi : i ≤ a.size) :
    firstDifference a b shift i =
      i + commonPrefix (a.data.toList.drop i) (b.data.toList.drop (shift + i)) := by
  fun_induction firstDifference a b shift i with
  | case1 i h ha hb heq ih =>
    rw [ih ha, ← Nat.add_assoc, drop_toList ha, drop_toList hb, commonPrefix, if_pos heq]
    omega
  | case2 i h ha hb hne =>
    rw [drop_toList ha, drop_toList hb, commonPrefix, if_neg hne, Nat.add_zero]
  | case3 i h =>
    by_cases ha : i < a.size
    · have hb : b.size ≤ shift + i := Nat.le_of_not_lt fun hb => h ⟨ha, hb⟩
      rw [List.drop_eq_nil_of_le (i := shift + i) (by rwa [length_toList]), commonPrefix_nil_right,
        Nat.add_zero]
    · have hnil : a.data.toList.drop i = [] :=
        List.drop_eq_nil_of_le (by rw [length_toList]; omega)
      rw [hnil, commonPrefix_nil_left, Nat.add_zero]

/-- One step finds the common prefix of two byte strings. -/
theorem agreement_eq_commonPrefix (a b : ByteArray) (shift : Nat) :
    agreement a b shift = commonPrefix a.data.toList (b.data.toList.drop shift) := by
  rw [agreement_eq, firstDifference_eq _ _ _ _ (Nat.zero_le _), List.drop_zero, Nat.zero_add,
    Nat.add_zero]

/-! ## Whole comparisons -/

/-- The length of the match of a source at some offset with what is left of a target. -/
def matchLengthAt (source left : List UInt8) (offset : Nat) : Nat :=
  min longestMatch (commonPrefix (source.drop offset) left)

theorem matchLengthAt_le (source left : List UInt8) (offset : Nat) :
    matchLengthAt source left offset ≤ longestMatch :=
  Nat.min_le_left _ _

theorem lt_compareGoal {blockSize matched : Nat} (hb : 0 < blockSize) (h : matched < longestMatch) :
    matched < compareGoal blockSize matched := by
  have hs : 0 < compareStep := by decide
  unfold compareGoal
  omega

theorem compareGoal_le (blockSize matched : Nat) : compareGoal blockSize matched ≤ longestMatch :=
  Nat.min_le_right _ _

variable {σ ρ : Type} {H : σ → Prop} {R : ρ → List UInt8 → Prop}
  {source : List UInt8} {src : σ} {w : TargetWindow ρ} {left : List UInt8}

/-- What one step finds behind bytes that are known to match: how far the match goes, or that it
goes on behind the step. -/
theorem commonPrefix_step (hw : w.Shows R left) {offset matched : Nat}
    (hm : matched ≤ commonPrefix (source.drop offset) left) {bytes : ByteArray} {rest : List UInt8}
    (hsrc : source.drop (offset + matched) = bytes.data.toList ++ rest)
    (hend : bytes.size = 0 → source.length ≤ offset + matched)
    (hl : matched + bytes.size ≤ w.available) :
    (bytes.size = 0 ∨ agreement bytes w.buffer (w.cursor + matched) < bytes.size →
      commonPrefix (source.drop offset) left =
        matched + agreement bytes w.buffer (w.cursor + matched)) ∧
    (agreement bytes w.buffer (w.cursor + matched) ≤ bytes.size) ∧
    (agreement bytes w.buffer (w.cursor + matched) = bytes.size →
      matched + bytes.size ≤ commonPrefix (source.drop offset) left) := by
  obtain ⟨rest', rfl, -⟩ := hw
  have hlen := w.length_bytesAhead
  have hahead : w.buffer.data.toList.drop (w.cursor + matched) = w.bytesAhead.drop matched := by
    rw [TargetWindow.bytesAhead, List.drop_drop]
  have hfit : bytes.data.toList.length ≤ (w.bytesAhead.drop matched).length := by
    rw [List.length_drop, length_toList]
    omega
  have hle := commonPrefix_le_left bytes.data.toList (w.bytesAhead.drop matched)
  obtain ⟨h₁, h₂⟩ := commonPrefix_append rest rest' hfit
  rw [commonPrefix_eq_add hm, List.drop_drop, hsrc, List.drop_append_of_le_length (by omega),
    agreement_eq_commonPrefix, hahead]
  rw [length_toList] at h₁ h₂ hle
  refine ⟨?_, hle, ?_⟩
  · rintro (h₀ | hlt)
    · have hnil : bytes.data.toList ++ rest = [] := by
        rw [← hsrc]
        exact List.drop_eq_nil_of_le (hend h₀)
      rw [hnil, (List.append_eq_nil_iff.mp hnil).1]
      rfl
    · rw [h₁ hlt]
  · intro h
    exact Nat.add_le_add_left (h₂ h) matched

/-- The source is in order, and the window shows what is left of the target from this position on.
-/
structure Sees (H : σ → Prop) (R : ρ → List UInt8 → Prop) (left : List UInt8) (position : Nat)
    (src : σ) (w : TargetWindow ρ) : Prop where
  holds : H src
  shows : w.Shows R left
  position_eq : w.position = position

variable {position : Nat}

theorem Sees.advance (h : Sees H R left position src w) {n : Nat} (hn : n ≤ w.available) :
    Sees H R (left.drop n) (position + n) src (w.advance n) :=
  ⟨h.holds, h.shows.advance hn, by rw [TargetWindow.position_advance w hn, h.position_eq]⟩

variable [Source σ] [ByteReader ρ]

omit [Source σ] in
theorem Sees.fill (d : ByteReader.Delivery R) (h : Sees H R left position src w) (want : Nat) :
    ∃ w', w.fill want = (.ok (), w') ∧ Sees H R left position src w' ∧
      w.available ≤ w'.available ∧ (want ≤ w'.available ∨ w'.available = left.length) := by
  obtain ⟨w', hf, hw', hp, hfull⟩ := h.shows.fill d want
  exact ⟨w', hf, ⟨h.holds, hw', hp.trans h.position_eq⟩,
    (TargetWindow.looksAhead_fill hf).available_le, hfull⟩

omit [Source σ] in
theorem Sees.of_fill (d : ByteReader.Delivery R) (h : Sees H R left position src w) {want : Nat}
    {w' : TargetWindow ρ} {answer : Except Fault Unit} (hf : w.fill want = (answer, w')) :
    answer = .ok () ∧ Sees H R left position src w' ∧ w.available ≤ w'.available ∧
      (want ≤ w'.available ∨ w'.available = left.length) := by
  obtain ⟨w₂, hf₂, h'⟩ := h.fill d want
  obtain ⟨rfl, rfl⟩ := Prod.mk.inj (hf.symm.trans hf₂)
  exact ⟨rfl, h'⟩

/-- Comparing succeeds, consumes nothing and finds the common prefix, all of which is read ahead. -/
theorem matchLengthFrom_eq (k : Source.Holding H source) (d : ByteReader.Delivery R)
    (h : Sees H R left position src w) {blockSize : Nat} (hb : 0 < blockSize) {offset matched : Nat}
    (hm : matched ≤ matchLengthAt source left offset) (ha : matched ≤ w.available) :
    ∃ w' src', matchLengthFrom blockSize src w offset matched =
        (.ok (matchLengthAt source left offset, w'), src') ∧
      Sees H R left position src' w' ∧ matchLengthAt source left offset ≤ w'.available := by
  fun_induction matchLengthFrom blockSize src w offset matched with
  | case1 src w matched hlt goal fault w₁ hf =>
    obtain ⟨⟨⟩, -⟩ := h.of_fill d hf
  | case2 src w matched hlt goal w₁ hf reach hreach =>
    obtain ⟨-, hw₁, hmono, hfull⟩ := h.of_fill d hf
    -- the goal lies behind the matched bytes, so the target has ended
    have hgoal : matched < goal := lt_compareGoal hb hlt
    have hle : commonPrefix (source.drop offset) left ≤ left.length := commonPrefix_le_right _ _
    have heq : matchLengthAt source left offset = matched := by
      unfold matchLengthAt at hm ⊢
      omega
    exact ⟨w₁, src, by rw [heq], hw₁, by omega⟩
  | case3 src w matched hlt goal w₁ hf reach hreach fault src₁ hr =>
    obtain ⟨piece, rest, ⟨⟩, -⟩ := k.of_readSomeAt h.holds hr
  | case4 src w matched hlt goal w₁ hf reach hreach bytes src₁ hr common hc =>
    obtain ⟨-, hw₁, -⟩ := h.of_fill d hf
    have hsize := Source.size_le_of_readSomeAt hr
    obtain ⟨piece, rest, ⟨⟩, hsrc₁, hsrc, hend⟩ := k.of_readSomeAt h.holds hr
    have hgoal : goal ≤ longestMatch := compareGoal_le blockSize matched
    obtain ⟨h₁, h₂, -⟩ := commonPrefix_step hw₁.shows (Nat.le_trans hm (Nat.min_le_right _ _)) hsrc
      (fun h₀ => (hend h₀).resolve_left (by omega)) (by omega)
    have heq : matchLengthAt source left offset = matched + common := by
      rw [matchLengthAt, h₁ hc]
      exact Nat.min_eq_right (by omega)
    exact ⟨w₁, src₁, by rw [heq], ⟨hsrc₁, hw₁.shows, hw₁.position_eq⟩, by omega⟩
  | case5 src w matched hlt goal w₁ hf reach hreach bytes src₁ hr common hc ih =>
    obtain ⟨-, hw₁, -⟩ := h.of_fill d hf
    have hsize := Source.size_le_of_readSomeAt hr
    obtain ⟨piece, rest, ⟨⟩, hsrc₁, hsrc, hend⟩ := k.of_readSomeAt h.holds hr
    have hgoal : goal ≤ longestMatch := compareGoal_le blockSize matched
    obtain ⟨-, h₂, h₃⟩ := commonPrefix_step hw₁.shows (Nat.le_trans hm (Nat.min_le_right _ _)) hsrc
      (fun h₀ => (hend h₀).resolve_left (by omega)) (by omega)
    obtain ⟨-, hge⟩ := not_or.mp hc
    have hcommon : common = bytes.size := by omega
    have hnext : matched + common ≤ matchLengthAt source left offset := by
      rw [matchLengthAt, hcommon]
      exact Nat.le_min.mpr ⟨by omega, h₃ hcommon⟩
    exact ih ⟨hsrc₁, hw₁.shows, hw₁.position_eq⟩ hnext (by omega)
  | case6 src w matched hge =>
    have hle := matchLengthAt_le source left offset
    have heq : matchLengthAt source left offset = matched := by omega
    exact ⟨w, src, by rw [heq], h, by omega⟩

end BinaryDelta
