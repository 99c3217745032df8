import BinaryDelta.BlockTable.Basic
import BinaryDelta.Engine.Options
import BinaryDelta.Engine.Window
import BinaryDelta.Source.Basic

/-!
# Matches

Model of `best_match`, `fits_autocode`, `match_length`, `longest_match`, `read_some` and
`common_prefix`.

At each target position the block table proposes offsets of the source, and so does the end of the
previous copy, where a run of equal bytes is likely to go on. `Search.probes` lists the offsets that
are worth a comparison; `Search.longest` compares them and keeps the longest match.

The bytes are compared in steps, each as long as what has matched so far, so that no more of the
source or target is read than the match can use.

Results:
* `longest_eq_longestOf`: the offsets compared are those that `probes` lists.
* `looksAhead_longestOf`: looking for a match consumes nothing of the target.

Out of scope: builds without vector registers, which compare without the strides of 16 bytes.
-/

namespace BinaryDelta

/-- What is searched for matches, and by which rules. -/
structure Search where
  table : BlockTable
  options : EngineOptions
  /-- Where the source begins within the data that copies refer to. -/
  sourceOffset : Nat := 0
  /-- Where the target begins within the data that it is part of. -/
  targetOffset : Nat := 0

/-- A range of the source that matches the target, of at least one block. -/
structure Match (blockSize : Nat) where
  offset : Nat
  length : Nat
  le_length : blockSize ≤ length
  deriving Repr, DecidableEq

/-- The better of the best match so far and a match of `length` bytes at `offset`: the longer one,
and of two as long the earlier one. -/
def Match.better {blockSize : Nat} (best : Option (Match blockSize)) (offset length : Nat) :
    Option (Match blockSize) :=
  if h : blockSize ≤ length then
    match best with
    | none => some ⟨offset, length, h⟩
    | some m => if m.length < length then some ⟨offset, length, h⟩ else some m
  else best

/-! ## Comparing bytes -/

/-- The byte at `i`; zero behind the end. -/
def byteOf (bytes : ByteArray) (i : Nat) : UInt8 := if h : i < bytes.size then bytes[i] else 0

/-- The word of the `count` bytes from `i` on, the first of them lowest. -/
def wordOf (bytes : ByteArray) (i : Nat) : Nat → UInt64
  | 0 => 0
  | count + 1 => (byteOf bytes i).toUInt64 + 256 * wordOf bytes (i + 1) count

/-- Are the `count` bytes of `a` from `i` on those of `b` from `j` on? -/
def sameBytes (a b : ByteArray) (i j : Nat) : Nat → Bool
  | 0 => true
  | count + 1 => byteOf a i == byteOf b j && sameBytes a b (i + 1) (j + 1) count

/-- Passes strides from `i` on for as long as they end before `limit` and show no difference. -/
@[specialize] def passSame (stride limit : Nat) (same : Nat → Bool) (i : Nat) : Nat :=
  if 0 < stride ∧ i + stride ≤ limit ∧ same i then passSame stride limit same (i + stride) else i
termination_by limit - i

/-- The first place from `i` on where `a` has ended or differs from `b`, read `shift` places
further. -/
def firstDifference (a b : ByteArray) (shift i : Nat) : Nat :=
  if h : i < a.size ∧ shift + i < b.size then
    have := h.1
    have := h.2
    if a[i] = b[shift + i] then firstDifference a b shift (i + 1) else i
  else i
termination_by a.size - i

/-- How far `a` agrees with `b`, read from `shift` on: by 16 bytes at a time, then by words of
eight, then byte by byte. -/
def agreement (a b : ByteArray) (shift : Nat) : Nat :=
  let limit := min a.size (b.size - shift)
  let i := passSame 16 limit (fun i => sameBytes a b i (shift + i) 16) 0
  let i := passSame 8 limit (fun i => wordOf a i 8 == wordOf b (shift + i) 8) i
  firstDifference a b shift i

/-- The most bytes compared in one step. -/
def compareStep : Nat := 4096

/-- How far to compare next, when `matched` bytes are known to match. -/
def compareGoal (blockSize matched : Nat) : Nat :=
  min (matched + min (max matched blockSize) compareStep) longestMatch

variable {σ ρ : Type} [Source σ] [ByteReader ρ]

/-- Compares on behind the `matched` bytes that are known to match, and answers with the length of
the match. -/
def matchLengthFrom (blockSize : Nat) (source : σ) (w : TargetWindow ρ) (offset matched : Nat) :
    Except DeltaError (Nat × TargetWindow ρ) × σ :=
  if matched < longestMatch then
    let goal := compareGoal blockSize matched
    match w.fill goal with
    | (.error fault, _) => (.error (.io fault), source)
    | (.ok (), w) =>
      let reach := min w.available goal
      if reach ≤ matched then (.ok (matched, w), source)
      else
        match Source.readSomeAt source (offset + matched) (reach - matched) with
        | (.error fault, source) => (.error (.io fault), source)
        | (.ok bytes, source) =>
          let common := agreement bytes w.buffer (w.cursor + matched)
          if bytes.size = 0 ∨ common < bytes.size then (.ok (matched + common, w), source)
          else matchLengthFrom blockSize source w offset (matched + common)
  else (.ok (matched, w), source)
termination_by longestMatch - matched

/-! ## Probing offsets -/

namespace Search

/-- The size of the blocks in the table. -/
def blockSize (c : Search) : Nat := c.table.blockSize

/-- May a copy from `offset` be made at a target position? With autocode on, it has to start before
that position. -/
def permits (c : Search) (position offset : Nat) : Bool :=
  !c.options.autocode || c.sourceOffset + offset < position + c.targetOffset

/-- The first `budget` offsets of a chain from place `i` on, without `skipped`, up to the first one
that is not permitted. -/
def candidatesFrom (chain : Chain) (skipped : Option Nat) (permits : Nat → Bool) (i budget : Nat) :
    List Nat :=
  if h : i < chain.size ∧ 0 < budget then
    have := h.1
    let offset := chain[i]
    if skipped = some offset then candidatesFrom chain skipped permits (i + 1) budget
    else if permits offset then
      offset :: candidatesFrom chain skipped permits (i + 1) (budget - 1)
    else []
  else []
termination_by chain.size - i

/-- The end of the previous copy, if it can be relied on: where hashes are accepted without a
comparison, it has to be the offset of a matching block. -/
def reliable (c : Search) (hash : WindowHash) (continuation : Option Nat) : Option Nat :=
  continuation.filter fun offset => !c.options.acceptHash || c.table.contains hash offset

/-- The offsets to be compared with the target at a position, in order. The end of the previous copy
comes first. Chains ascend, so behind an offset that is not permitted there is none. -/
def probes (c : Search) (hash : WindowHash) (continuation : Option Nat) (position : Nat) :
    List Nat :=
  let kept := c.reliable hash continuation
  let first := kept.toList.filter (c.permits position)
  first ++ candidatesFrom (c.table.candidates hash) kept (c.permits position) 0
    (c.options.maxProbes - first.length)

/-- The length of the match at an offset. -/
def matchLength (c : Search) (source : σ) (w : TargetWindow ρ) (offset : Nat) :
    Except DeltaError (Nat × TargetWindow ρ) × σ :=
  if c.options.acceptHash then (.ok (c.blockSize, w), source)
  else matchLengthFrom c.blockSize source w offset 0

/-- The longest match at the offsets of a list, and of several as long the first. There is no need
to go on when a match is as long as can be. -/
def longestOf (c : Search) (source : σ) (w : TargetWindow ρ) (best : Option (Match c.blockSize)) :
    List Nat → Except DeltaError (Option (Match c.blockSize) × TargetWindow ρ) × σ
  | [] => (.ok (best, w), source)
  | offset :: offsets =>
    if best.any (longestMatch ≤ ·.length) then (.ok (best, w), source)
    else
      match c.matchLength source w offset with
      | (.error e, source) => (.error e, source)
      | (.ok (length, w), source) =>
        c.longestOf source w (Match.better best offset length) offsets

/-- The longest match at the offsets that `candidatesFrom` lists, found without listing them. -/
def longestIn (c : Search) (source : σ) (w : TargetWindow ρ) (best : Option (Match c.blockSize))
    (chain : Chain) (skipped : Option Nat) (permits : Nat → Bool) (i budget : Nat) :
    Except DeltaError (Option (Match c.blockSize) × TargetWindow ρ) × σ :=
  if h : i < chain.size ∧ 0 < budget then
    have := h.1
    if best.any (longestMatch ≤ ·.length) then (.ok (best, w), source)
    else
      let offset := chain[i]
      if skipped = some offset then c.longestIn source w best chain skipped permits (i + 1) budget
      else if permits offset then
        match c.matchLength source w offset with
        | (.error e, source) => (.error e, source)
        | (.ok (length, w), source) =>
          c.longestIn source w (Match.better best offset length) chain skipped permits (i + 1)
            (budget - 1)
      else (.ok (best, w), source)
  else (.ok (best, w), source)
termination_by chain.size - i

/-- The longest match at the offsets that are worth a comparison. -/
def longest (c : Search) (source : σ) (w : TargetWindow ρ) (hash : WindowHash)
    (continuation : Option Nat) :
    Except DeltaError (Option (Match c.blockSize) × TargetWindow ρ) × σ :=
  let kept := c.reliable hash continuation
  let permits := c.permits w.position
  let first := kept.toList.filter permits
  match c.longestOf source w none first with
  | (.error e, source) => (.error e, source)
  | (.ok (best, w), source) =>
    c.longestIn source w best (c.table.candidates hash) kept permits 0
      (c.options.maxProbes - first.length)

/-- A match as long as can be ends the search. -/
theorem longestOf_of_longest {c : Search} {source : σ} {w : TargetWindow ρ}
    {best : Option (Match c.blockSize)} (h : best.any (longestMatch ≤ ·.length) = true)
    (offsets : List Nat) : c.longestOf source w best offsets = (.ok (best, w), source) := by
  cases offsets with
  | nil => rfl
  | cons offset offsets => rw [longestOf, if_pos h]

/-- Searching a chain is searching the list of its offsets. -/
theorem longestIn_eq_longestOf (c : Search) (source : σ) (w : TargetWindow ρ)
    (best : Option (Match c.blockSize)) (chain : Chain) (skipped : Option Nat)
    (permits : Nat → Bool) (i budget : Nat) :
    c.longestIn source w best chain skipped permits i budget =
      c.longestOf source w best (candidatesFrom chain skipped permits i budget) := by
  fun_induction longestIn c source w best chain skipped permits i budget with
  | case1 source w best i budget h _ hb => rw [longestOf_of_longest hb]
  | case2 source w best i budget h _ hb offset hs ih =>
    rw [candidatesFrom, dif_pos h, if_pos hs, ih]
  | case3 source w best i budget h _ hb offset hs hp e source' hm =>
    rw [candidatesFrom, dif_pos h, if_neg hs, if_pos hp, longestOf, if_neg hb, hm]
  | case4 source w best i budget h _ hb offset hs hp length w' source' hm ih =>
    rw [candidatesFrom, dif_pos h, if_neg hs, if_pos hp, longestOf, if_neg hb, hm]
    exact ih
  | case5 source w best i budget h _ hb offset hs hp =>
    rw [candidatesFrom, dif_pos h, if_neg hs, if_neg hp, longestOf]
  | case6 source w best i budget h => rw [candidatesFrom, dif_neg h, longestOf]

/-- Searching two lists one after the other. -/
theorem longestOf_append (c : Search) (source : σ) (w : TargetWindow ρ)
    (best : Option (Match c.blockSize)) (first second : List Nat) :
    c.longestOf source w best (first ++ second) =
      match c.longestOf source w best first with
      | (.error e, source) => (.error e, source)
      | (.ok (best, w), source) => c.longestOf source w best second := by
  induction first generalizing source w best with
  | nil => rfl
  | cons offset first ih =>
    by_cases hb : best.any (longestMatch ≤ ·.length) = true
    · rw [longestOf_of_longest hb, longestOf_of_longest hb]
      exact (longestOf_of_longest hb second).symm
    · rw [List.cons_append, longestOf, longestOf, if_neg hb, if_neg hb]
      split
      · rfl
      · exact ih _ _ _

/-- The search compares exactly the offsets that `probes` lists, in that order, until it is over. -/
theorem longest_eq_longestOf (c : Search) (source : σ) (w : TargetWindow ρ) (hash : WindowHash)
    (continuation : Option Nat) :
    c.longest source w hash continuation =
      c.longestOf source w none (c.probes hash continuation w.position) := by
  rw [probes, longestOf_append, longest]
  split
  · rfl
  · exact longestIn_eq_longestOf c _ _ _ _ _ _ _ _

end Search

/-! ## What a search leaves alone -/

open TargetWindow (LooksAhead)

/-- Comparing bytes consumes nothing of the target. -/
theorem looksAhead_matchLengthFrom {blockSize : Nat} {source source' : σ} {w w' : TargetWindow ρ}
    {offset matched length : Nat}
    (h : matchLengthFrom blockSize source w offset matched = (.ok (length, w'), source')) :
    LooksAhead w w' := by
  fun_induction matchLengthFrom blockSize source w offset matched with
  | case1 => simp at h
  | case2 source w matched _ goal w₁ hf =>
    simp only [Prod.mk.injEq, Except.ok.injEq] at h
    exact h.1.2 ▸ TargetWindow.looksAhead_fill hf
  | case3 => simp at h
  | case4 source w matched _ goal w₁ hf =>
    simp only [Prod.mk.injEq, Except.ok.injEq] at h
    exact h.1.2 ▸ TargetWindow.looksAhead_fill hf
  | case5 source w matched _ goal w₁ hf _ _ _ _ _ _ _ ih =>
    exact (TargetWindow.looksAhead_fill hf).trans (ih h)
  | case6 source w matched =>
    simp only [Prod.mk.injEq, Except.ok.injEq] at h
    exact h.1.2 ▸ .refl w

theorem Search.looksAhead_matchLength {c : Search} {source source' : σ} {w w' : TargetWindow ρ}
    {offset length : Nat} (h : c.matchLength source w offset = (.ok (length, w'), source')) :
    LooksAhead w w' := by
  unfold matchLength at h
  split at h
  · simp only [Prod.mk.injEq, Except.ok.injEq] at h
    exact h.1.2 ▸ .refl w
  · exact looksAhead_matchLengthFrom h

/-- Looking for a match consumes nothing of the target. -/
theorem Search.looksAhead_longestOf {c : Search} {offsets : List Nat} {source source' : σ}
    {w w' : TargetWindow ρ} {best best' : Option (Match c.blockSize)}
    (h : c.longestOf source w best offsets = (.ok (best', w'), source')) : LooksAhead w w' := by
  induction offsets generalizing source w best with
  | nil =>
    simp only [longestOf, Prod.mk.injEq, Except.ok.injEq] at h
    exact h.1.2 ▸ .refl w
  | cons offset offsets ih =>
    unfold longestOf at h
    split at h
    · simp only [Prod.mk.injEq, Except.ok.injEq] at h
      exact h.1.2 ▸ .refl w
    · split at h
      · simp at h
      · rename_i hm
        exact (looksAhead_matchLength hm).trans (ih h)

end BinaryDelta
