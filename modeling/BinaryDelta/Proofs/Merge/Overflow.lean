import BinaryDelta.Proofs.FarCopies
import BinaryDelta.Proofs.Merge.Outcome
import Mathlib.Data.List.TakeWhile

/-!
# Offsets that leave the 64-bit range

Where a copy of the second patch asks for a range that begins within a copy of the first, the latter
is trimmed, and its offset grows by what is cut off in front. Nothing keeps a copy of the first
patch from reaching behind the last 64-bit position, so this sum may leave the 64-bit range, and
then the merge is given up. Nothing else that a merge adds up gets larger than the length of the
middle, and the copies that are handed on are the true ones.

* `recordEnds` lists where the outputs of records end, as they are summed up record by record.
* `resolved` is what a patch spells in front of the first copy that reaches behind the middle.

Results:
* `isFormatError_of_spell`: malformed records are no overflow.
* `Merger.exists_translated`: what a merger comes to, whichever copy is the first to fail.
* `Merger.exists_merge_translated`, `Merger.copiesOf_merge_of_error`: the copies that a merge hands
  on, however it ends.
* **`merge_overflow_iff`**: the sums stay in range unless a copy begins beyond it.
-/

namespace BinaryDelta

/-! ## Record ends -/

/-- Where the outputs of records end that begin at a target offset. -/
def recordEnds (position : Nat) : List Instruction → List Nat
  | [] => []
  | i :: is => (position + i.outputLength) :: recordEnds (position + i.outputLength) is

theorem le_of_mem_recordEnds {position stop : Nat} {is : List Instruction}
    (h : stop ∈ recordEnds position is) : stop ≤ position + outputLength is := by
  induction is generalizing position with
  | nil => cases h
  | cons i is ih =>
    rw [outputLength_cons]
    rcases List.mem_cons.mp h with rfl | hrest
    · omega
    · have := ih hrest
      omega

namespace PatchIndex

/-- Scanning and reading on from an entry sum up record ends within the target. -/
theorem Indexes.recordEnds_le {patch : List UInt8} {s : Spelling} {index : PatchIndex}
    (hx : index.Indexes patch s) {e : IndexEntry} (he : e ∈ index.entries) {stop : Nat}
    (hstop : stop ∈ recordEnds e.targetOffset
      (spell ⟨index.mode, e.baseOffset⟩ (patch.drop e.wireOffset)).instructions) :
    stop ≤ index.targetLength := by
  obtain ⟨-, front, hfront, hs⟩ := hx.marks e he
  have hle := le_of_mem_recordEnds hstop
  have hlength := hx.targetLength
  rw [congrArg Spelling.instructions hs, Spelling.behindAll, outputLength_append, hfront] at hlength
  omega

end PatchIndex

/-! ## Copies of a range -/

theorem copies_literals (parts : List ByteArray) : copies (parts.map .literal) = [] := by
  induction parts with
  | nil => rfl
  | cons part parts ih => exact ih

/-- Malformed records are no overflow. -/
theorem isFormatError_of_spell (b : OffsetBase) (bytes : List UInt8) :
    ∀ e ∈ (spell b bytes).ending.error?, e.isFormatError = true := by
  fun_induction spell b bytes with
  | case1 b bytes hp =>
    rintro _ ⟨⟩
    rfl
  | case2 b bytes rest hp => rintro _ ⟨⟩
  | case3 b bytes length rest hp hl ih => exact ih
  | case4 b bytes length rest hp hl =>
    rintro _ ⟨⟩
    rfl
  | case5 b bytes value length rest hp e b' hd =>
    rintro _ ⟨⟩
    simp only [OffsetBase.decode] at hd
    split at hd <;> split at hd <;> cases hd <;> rfl
  | case6 b bytes value length rest hp offset b' hd ih => exact ih

theorem copies_lt_of_addressed {steps : List SinkStep} (h : ∀ step ∈ steps, step.Addressed) :
    ∀ copy ∈ copies (steps.flatMap SinkStep.instructions), copy.1 < 0x10000000000000000 := by
  intro copy hcopy
  obtain ⟨step, hstep, hmem⟩ := List.mem_flatMap.mp (mem_copies_iff.mp hcopy)
  cases step with
  | copy offset length =>
    cases List.mem_singleton.mp hmem
    exact h _ hstep
  | byte value => cases List.mem_singleton.mp hmem
  | literal bytes => cases List.mem_singleton.mp hmem
  | flush => cases hmem

/-- A translation of copies that do not begin beyond has no copy from there. -/
theorem copies_translate_lt {is js : List Instruction}
    (hc : ∀ copy ∈ copies is, copy.1 < 0x10000000000000000)
    (hnear : ∀ copy ∈ copies js, ¬ BeginsBeyond is copy.1 copy.2) :
    ∀ copy ∈ copies (translate is js), copy.1 < 0x10000000000000000 := by
  intro copy hcopy
  obtain ⟨j, hj, hmem⟩ := List.mem_flatMap.mp (mem_copies_iff.mp hcopy)
  cases j with
  | copy offset length =>
    have hrange : ¬ BeginsBeyond is offset length :=
      hnear (offset, length) (mem_copies_iff.mpr hj)
    have hslice : copy ∈ copies (sliceOf is offset length).toList := mem_copies_iff.mpr hmem
    rw [sliceOf, Collector.copies_addAll] at hslice
    refine copies_lt_of_addressed (addressed_rangeSteps hc fun _ => ?_) copy hslice
    rwa [Nat.sub_zero, Nat.add_sub_cancel_left]
  | literal bytes => cases List.mem_singleton.mp hmem

/-- The copies of a translation begin where bytes of the middle come from. -/
theorem source_mem_of_copies_translate {is js : List Instruction}
    (hin : Within (outputLength is) js) :
    ∀ copy ∈ copies (translate is js), 0 < copy.2 ∧ .source copy.1 ∈ origins is := by
  intro copy hcopy
  obtain ⟨i, hi, hmem⟩ := List.mem_flatMap.mp (mem_copies_iff.mp hcopy)
  cases i with
  | copy offset length =>
    have hle := hin (offset, length) (mem_copies_iff.mpr hi)
    have hpos : 0 < copy.2 := by
      have hne := (coalesced_sliceOf is offset length).nonempty _ hmem
      exact Nat.pos_of_ne_zero (beq_eq_false_iff_ne.mp hne)
    have horigin : .source copy.1 ∈ origins (sliceOf is offset length).toList :=
      List.mem_flatMap.mpr ⟨_, hmem, List.mem_map.mpr ⟨copy.1, by simpa using hpos, rfl⟩⟩
    rw [origins_sliceOf hle] at horigin
    exact ⟨hpos, List.mem_of_mem_drop (List.mem_of_mem_take horigin)⟩
  | literal bytes => cases List.mem_singleton.mp hmem

/-! ## What is handed on -/

/-- The instructions in front of the first copy that reaches behind a middle of this length. -/
def upToBeyond (size : Nat) (is : List Instruction) : List Instruction :=
  is.takeWhile fun i => Within size [i]

theorem within_iff_forall {size : Nat} {is : List Instruction} :
    Within size is ↔ ∀ i ∈ is, Within size [i] := by
  induction is with
  | nil => exact iff_of_true (within_nil size) (List.forall_mem_nil _)
  | cons i is ih => rw [within_cons, ih, List.forall_mem_cons]

/-- Behind them comes nothing or such a copy. -/
theorem exists_upToBeyond (size : Nat) (is : List Instruction) :
    ∃ behind, is = upToBeyond size is ++ behind ∧ (behind = [] ∨
      ∃ offset length back, behind = .copy offset length :: back ∧ size < offset + length) := by
  have hwithin {front : List Instruction} (h : Within size front) (behind : List Instruction) :
      upToBeyond size (front ++ behind) = front ++ upToBeyond size behind :=
    List.takeWhile_append_of_pos fun i hi => decide_eq_true (within_iff_forall.mp h i hi)
  rcases within_or_beyond size is with hin | ⟨front, offset, length, back, rfl, hfront, hout⟩
  · have hall := hwithin hin []
    rw [List.append_nil] at hall
    refine ⟨[], ?_, .inl rfl⟩
    rw [List.append_nil, hall]
    exact (List.append_nil _).symm
  · have hstop : upToBeyond size (.copy offset length :: back) = [] := by
      refine List.takeWhile_cons_of_neg ?_
      rw [decide_eq_true_eq, within_copy]
      omega
    refine ⟨.copy offset length :: back, ?_, .inr ⟨offset, length, back, rfl, hout⟩⟩
    rw [hwithin hfront, hstop, List.append_nil]

/-- What a patch spells in front of the first copy that reaches behind a middle of this length. -/
def resolved (size : Nat) (patch : List UInt8) : List Instruction :=
  upToBeyond size ((spellPatch? patch).elim [] Spelling.instructions)

theorem within_upToBeyond (size : Nat) (is : List Instruction) :
    Within size (upToBeyond size is) :=
  within_iff_forall.mpr fun _ hi =>
    of_decide_eq_true (List.mem_takeWhile_imp (p := fun i => Within size [i]) hi)

namespace Merger

variable {σ ρ : Type} [Source σ] [ByteReader ρ] {H : σ → Prop} {first second : List UInt8}
  {s : Spelling} {rest : List UInt8}

/-- The copies that the sink has been handed. -/
def copiesOf (m : Merger σ Collector) : List (Nat × Nat) := copies m.sink.instructions.toList

/-- An ending adds no copies, and closing none either. -/
theorem copiesOf_convey (t : Spelling) (m : Merger σ Collector) (total : Nat) :
    (t.convey m total).2.copiesOf = (feed m t.steps).2.copiesOf := by
  rw [Spelling.convey]
  rcases feed m t.steps with ⟨e | _, m'⟩
  · rfl
  · rw [andThen_ok]
    cases t.ending.error? with
    | some e => rfl
    | none => rfl

/-- The calls in front of an ending add no copies, and do not fail. -/
theorem feed_ending {m : Merger σ Collector} (hm : Ready H first s m) (ending : Ending) :
    ∃ m', feed m ending.steps = (.ok (), m') ∧ m'.copiesOf = m.copiesOf := by
  cases ending with
  | cutPayload available =>
    obtain ⟨m', hf, -, hsink⟩ := feed_literals hm (fullPieces available)
    refine ⟨m', hf, ?_⟩
    rw [copiesOf, hsink, Collector.copies_addAll, copies_literals, List.append_nil]
    rfl
  | marker rest => exact ⟨m, rfl, rfl⟩
  | cutRecord => exact ⟨m, rfl, rfl⟩
  | unresolved e => exact ⟨m, rfl, rfl⟩

/-- What is in front of the first copy that fails is translated, and there is an overflow if and
only if a copy begins beyond before one reaches behind the middle. -/
theorem exists_translated (k : Source.Holding H first) (hend : s.ending = .marker rest)
    {m : Merger σ Collector} (hm : Ready H first s m) (js : List Instruction) :
    ∃ done answer m', feed m (js.flatMap Instruction.steps) = (answer, m') ∧
      (answer = .ok () → Ready H first s m') ∧
      m'.sink = m.sink.addAll (translate s.instructions done) ∧
      Within (outputLength s.instructions) done ∧
      (∀ copy ∈ copies done, ¬ BeginsBeyond s.instructions copy.1 copy.2) ∧
      (answer = .error (.overflow .sum) ↔
        ∃ copy ∈ copies (upToBeyond (outputLength s.instructions) js),
          BeginsBeyond s.instructions copy.1 copy.2) := by
  have hin := within_upToBeyond (outputLength s.instructions) js
  obtain ⟨behind, heq, hbehind⟩ := exists_upToBeyond (outputLength s.instructions) js
  generalize upToBeyond (outputLength s.instructions) js = whole at hin heq ⊢
  subst heq
  rcases forall_copies_or_first (fun copy => ¬ BeginsBeyond s.instructions copy.1 copy.2) whole with
    hnear | ⟨front, offset, length, back, rfl, hnear, hfar⟩
  · have hnone : ¬ ∃ copy ∈ copies whole, BeginsBeyond s.instructions copy.1 copy.2 := by
      rintro ⟨copy, hcopy, hbeyond⟩
      exact hnear copy hcopy hbeyond
    rcases hbehind with rfl | ⟨offset, length, back, rfl, hout⟩
    · obtain ⟨m', hf, hm', hsink⟩ := feed_within k hend hm hin hnear
      rw [List.append_nil]
      exact ⟨whole, _, m', hf, fun _ => hm', hsink, hin, hnear,
        iff_of_false (by rintro ⟨⟩) hnone⟩
    · obtain ⟨m', hf, hsink⟩ := feed_beyond k hend hm hin hnear hout back
      exact ⟨whole, _, m', hf, by rintro ⟨⟩, hsink, hin, hnear,
        iff_of_false (by rintro ⟨⟩) hnone⟩
  · have hmem : (offset, length) ∈ copies (front ++ .copy offset length :: back) :=
      mem_copies_iff.mpr (List.mem_append_right _ (List.mem_cons_self ..))
    have hfront : Within (outputLength s.instructions) front := by
      rw [Within, copies_append] at hin
      exact (List.forall_mem_append.mp hin).1
    have hfar := not_not.mp hfar
    obtain ⟨m', hf, hsink⟩ := feed_far k hend hm hfront hnear (hin _ hmem) hfar (back ++ behind)
    rw [List.append_assoc, List.cons_append]
    exact ⟨front, _, m', hf, by rintro ⟨⟩, hsink, hfront, hnear,
      iff_of_true rfl ⟨_, hmem, hfar⟩⟩

/-- Without an index no copy is handed on. -/
theorem copiesOf_feed_of_error {m : Merger σ Collector} (hindex : m.index = none) {e : DeltaError}
    {src' : σ} (hb : PatchIndex.build m.first m.options = (.error e, src'))
    (steps : List SinkStep) : (feed m steps).2.copiesOf = m.copiesOf := by
  induction steps generalizing m with
  | nil => rfl
  | cons step steps ih =>
    rcases m with ⟨src, options, index, sink⟩
    obtain rfl : index = none := hindex
    have hliteral : ∀ bytes : ByteArray,
        copiesOf (⟨src, options, none, sink.addLiteral bytes⟩ : Merger σ Collector) =
          copies sink.instructions.toList := by
      intro bytes
      have hadd := Collector.copies_addAll sink [.literal bytes]
      rwa [show copies [.literal bytes] = [] from rfl, List.append_nil] at hadd
    cases step with
    | copy offset length =>
      have hact : SinkStep.act (⟨src, options, none, sink⟩ : Merger σ Collector)
          (.copy offset length) = (.error e, ⟨src', options, none, sink⟩) := by
        show (⟨src, options, none, sink⟩ : Merger σ Collector).addCopy offset length = _
        simp only [addCopy, Overlap.catchUp_apart, hb]
      rw [feed_cons, hact]
      rfl
    | byte value =>
      have hnext := ih (m := ⟨src, options, none, sink.addLiteral (packBytes [value])⟩) rfl hb
      exact hnext.trans (hliteral _)
    | literal bytes =>
      have hnext := ih (m := ⟨src, options, none, sink.addLiteral bytes⟩) rfl hb
      exact hnext.trans (hliteral bytes)
    | flush => exact ih (m := ⟨src, options, none, sink⟩) rfl hb

/-- What a merge hands on, however it ends, and when that is an overflow. -/
theorem exists_merge_translated (k : Source.Holding H first) (hend : s.ending = .marker rest)
    {src : σ} {options : IndexOptions}
    (hm : Ready H first s ({ first := src, options, sink := {} } : Merger σ Collector)) {r : ρ}
    (hr : ByteReader.Delivers r second) :
    ∃ done, (merge src r ({} : Collector) options).2.copiesOf =
        copies (translate s.instructions done) ∧
      Within (outputLength s.instructions) done ∧
      (∀ copy ∈ copies done, ¬ BeginsBeyond s.instructions copy.1 copy.2) ∧
      ((merge src r ({} : Collector) options).1 = .error (.overflow .sum) ↔
        ∃ copy ∈ copies (resolved (outputLength s.instructions) second),
          BeginsBeyond s.instructions copy.1 copy.2) := by
  rw [merge, convert_eq hr, resolved]
  cases hs : spellPatch? second with
  | none =>
    refine ⟨[], rfl, within_nil _, List.forall_mem_nil _, iff_of_false ?_ ?_⟩
    · rintro ⟨⟩
    · rintro ⟨copy, ⟨⟩, -⟩
  | some t =>
    obtain ⟨done, answer, m', hf, hm', hsink, hin, hnear, hoverflow⟩ :=
      exists_translated k hend hm t.instructions
    have hcopies : m'.copiesOf = copies (translate s.instructions done) := by
      rw [copiesOf, hsink, Collector.copies_addAll]
      rfl
    refine ⟨done, ?_, hin, hnear, ?_⟩
    · rw [copiesOf_convey, Spelling.steps, feed_append, hf, ← hcopies]
      cases answer with
      | error e => rfl
      | ok u =>
        obtain ⟨m₁, hf₁, h₁⟩ := feed_ending (hm' rfl) t.ending
        rw [andThen_ok, hf₁, h₁]
    · refine Iff.trans ?_ hoverflow
      simp only [Spelling.convey, Spelling.steps, feed_append, hf]
      cases answer with
      | error e => simp only [andThen_error, Except.error.injEq]
      | ok u =>
        obtain ⟨m₁, hf₁, -⟩ := feed_ending (hm' rfl) t.ending
        simp only [andThen_ok, hf₁]
        refine iff_of_false ?_ (by rintro ⟨⟩)
        cases he : t.ending.error? with
        | none => rintro ⟨⟩
        | some e =>
          rintro ⟨⟩
          obtain ⟨mode, records, -, rfl⟩ := spellPatch?_eq_some_iff.mp hs
          cases isFormatError_of_spell _ records _ he

theorem copiesOf_merge_of_error {src src' : σ} {options : IndexOptions} {e : DeltaError}
    (hb : PatchIndex.build src options = (.error e, src')) {r : ρ}
    (hr : ByteReader.Delivers r second) :
    (merge src r ({} : Collector) options).2.copiesOf = [] := by
  rw [merge, convert_eq hr]
  cases spellPatch? second with
  | none => rfl
  | some t => exact (copiesOf_convey t _ 0).trans (copiesOf_feed_of_error rfl hb t.steps)

end Merger

/-! ## Sums in the 64-bit range -/

/-- **When sums stay in range.** Any two byte strings are merged into a collector. If the first
cannot be indexed, no copy is handed on. Otherwise no record end that is summed up passes the length
of the middle, and the offsets of the copies handed on, however the merge ends, are true positions
in the source, and 64-bit numbers. The offset of a trimmed copy leaves the 64-bit range if and only
if some copy of the second begins at a byte which the first copies from behind it, and none before
reaches behind the middle. -/
theorem merge_overflow_iff {σ ρ : Type} [Source σ] [ByteReader ρ] {src : σ} {r : ρ}
    {first second : List UInt8} (h : Source.Holds src first) (hr : ByteReader.Delivers r second)
    (options : IndexOptions) :
    (∀ e src', PatchIndex.build src options = (.error e, src') →
      (merge src r ({} : Collector) options).2.copiesOf = []) ∧
    ∀ index src', PatchIndex.build src options = (.ok index, src') →
      ∃ is, WellFormed first is ∧ index.targetLength = outputLength is ∧
        (∀ e ∈ index.entries, ∀ stop ∈ recordEnds e.targetOffset
          (spell ⟨index.mode, e.baseOffset⟩ (first.drop e.wireOffset)).instructions,
            stop ≤ index.targetLength) ∧
        (∀ copy ∈ (merge src r ({} : Collector) options).2.copiesOf,
          0 < copy.2 ∧ .source copy.1 ∈ origins is ∧ copy.1 < 0x10000000000000000) ∧
        ((merge src r ({} : Collector) options).1 = .error (.overflow .sum) ↔
          ∃ copy ∈ copies (resolved index.targetLength second),
            BeginsBeyond is copy.1 copy.2) := by
  have k := Source.holding_holds (σ := σ) first
  refine ⟨fun e src' hb => Merger.copiesOf_merge_of_error hb hr, fun index src' hb => ?_⟩
  obtain ⟨s, rest, hs, hend, hx⟩ := PatchIndex.of_build k h hb
  obtain ⟨s', rest', hs', hend', hlength, hm⟩ := Merger.ready_of_build k h hb {}
  rw [hs] at hs'
  cases hs'
  have hoffsets : ∀ copy ∈ copies s.instructions, copy.1 < 0x10000000000000000 := by
    obtain ⟨mode, records, -, rfl⟩ := spellPatch?_eq_some_iff.mp hs
    exact fun copy hcopy => (offset_lt_of_spell _ _ copy hcopy).1
  obtain ⟨done, hcopies, hin, hnear, hoverflow⟩ := Merger.exists_merge_translated k hend hm hr
  refine ⟨s.instructions, wellFormed_iff.mpr ⟨rest, by rw [hs, ← hend]⟩, hlength,
    fun e he stop hstop => hx.recordEnds_le he hstop, ?_, by rw [hoverflow, hlength]⟩
  rw [hcopies]
  intro copy hcopy
  obtain ⟨hpos, hmem⟩ := source_mem_of_copies_translate hin copy hcopy
  exact ⟨hpos, hmem, copies_translate_lt hoffsets hnear copy hcopy⟩

/-- Four bytes of the third copy are asked for, from its ninth on. -/
theorem merge_overflow_iff_far :
    let first : MemoryStream := ⟨farPatch, 0⟩
    let second : MemoryStream := ⟨packBytes (patchOf .normal [.copy 10 4]), 0⟩
    BeginsBeyond farInstructions 10 4 ∧
      (merge first second ({} : Collector) {}).1 = .error (.overflow .sum) := by
  intro first second
  have hbeyond : BeginsBeyond farInstructions 10 4 :=
    ⟨by decide, 0x10000000000000007, rfl, by decide⟩
  obtain ⟨index, src', hb⟩ := exists_build_of_wellFormed wellFormed_farPatch
  have hsecond : ByteReader.Delivers second second.bytes.data.toList :=
    MemoryStream.delivers second
  obtain ⟨is, hfirst, hlength, -, -, hiff⟩ :=
    (merge_overflow_iff (MemoryStream.holds first) hsecond {}).2 index src' hb
  obtain rfl : is = farInstructions := hfirst.unique wellFormed_farPatch
  have hwell : WellFormed second.bytes.data.toList [.copy 10 4] :=
    wellFormed_patchOf .normal (by decide)
  obtain ⟨rest, hs⟩ := wellFormed_iff.mp hwell
  refine ⟨hbeyond, hiff.mpr ⟨(10, 4), ?_, hbeyond⟩⟩
  rw [resolved, hs, hlength]
  exact List.mem_singleton_self _

/-- Both patches are complete, and the second asks for nothing from behind the middle. Still the
merge is given up, into a collector and into a patch. -/
theorem merge_far_copy :
    let second := packBytes (patchOf .normal [.copy 10 4])
    WellFormed farPatch.data.toList farInstructions ∧
      WellFormed second.data.toList [.copy 10 4] ∧
      Within (outputLength farInstructions) [.copy 10 4] ∧
      (merge (⟨farPatch, 0⟩ : MemoryStream) (⟨second, 0⟩ : MemoryStream) ({} : Collector) {}).1 =
        .error (.overflow .sum) ∧
      mergeBytes farPatch second {} = .error (.overflow .sum) :=
  ⟨wellFormed_farPatch, wellFormed_patchOf .normal (by decide), by decide, by decide +kernel,
    by decide +kernel⟩

end BinaryDelta
