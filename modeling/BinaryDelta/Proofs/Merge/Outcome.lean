import BinaryDelta.Proofs.Merge.Associative
import BinaryDelta.Proofs.Merge.Slice

/-!
# What a merge comes to

A second patch is carried over to a first one instruction by instruction: a copy becomes the range
of the first that it copies, and a literal stays. The first copy that reaches behind the middle ends
this, an empty one too, since its range is looked at before its length is. So what the sink holds
then is the second patch up to that copy.

* `Instruction.over` is what becomes of an instruction, `translate` of a patch.
* `Translation` says of instructions that they are a translation, and where their bytes come from.

Results:
* `origins_translate`: each byte of a translation has the origin that it has in the middle.
* `Merger.feed_within`, `Merger.feed_beyond`, `Merger.feed_far`: what a merger comes to without a
  copy that fails, with one that reaches behind the middle, and with one that begins beyond the
  64-bit range.
* `within_or_beyond`: there is such a copy or there is none.
* **`merge_outcome`**: when merging succeeds, with which error it fails, and what the sink holds in
  either case.
-/

namespace BinaryDelta

/-! ## Translations -/

/-- What becomes of an instruction behind a first patch. -/
def Instruction.over (first : List Instruction) : Instruction → List Instruction
  | copy offset length => (sliceOf first offset length).toList
  | literal bytes => [.literal bytes]

/-- What becomes of a second patch behind a first one. -/
def translate (first second : List Instruction) : List Instruction :=
  second.flatMap (Instruction.over first)

/-- The origin in the source of a byte that comes from the middle; there is none behind its end. -/
def Origin.over (first : List Instruction) : Origin → Option Origin
  | source position => (BinaryDelta.origins first)[position]?
  | given byte => some (.given byte)

theorem translate_cons (first : List Instruction) (i : Instruction) (is : List Instruction) :
    translate first (i :: is) = i.over first ++ translate first is := rfl

/-- Does every copy end within a middle of this length? -/
def Within (size : Nat) (is : List Instruction) : Prop :=
  ∀ copy ∈ copies is, copy.1 + copy.2 ≤ size

instance (size : Nat) (is : List Instruction) : Decidable (Within size is) :=
  inferInstanceAs (Decidable (∀ _ ∈ _, _))

theorem within_nil (size : Nat) : Within size [] :=
  List.forall_mem_nil _

theorem within_cons {size : Nat} {i : Instruction} {is : List Instruction} :
    Within size (i :: is) ↔ Within size [i] ∧ Within size is := by
  rw [Within, ← List.singleton_append, copies_append]
  exact List.forall_mem_append

theorem within_copy {size offset length : Nat} :
    Within size [.copy offset length] ↔ offset + length ≤ size :=
  List.forall_mem_singleton

/-- Copies that are not empty end within the middle if they take nothing from behind it. -/
theorem within_iff_below {size : Nat} {is : List Instruction} (h : ∀ copy ∈ copies is, 0 < copy.2) :
    Within size is ↔ Below size (cells (atoms is)) := by
  constructor
  · exact below_of_copies
  · intro hbelow copy hcopy
    have hsolid : (Atom.copy copy.1 copy.2).isSolid := bne_iff_ne.mpr (Nat.ne_of_gt (h copy hcopy))
    exact le_of_below hbelow (copy_mem_atoms_iff.mpr (mem_copies_iff.mp hcopy)) hsolid

/-- A slice of origins, position by position. -/
theorem map_getElem?_range' {xs : List Origin} {offset length : Nat}
    (h : offset + length ≤ xs.length) :
    ((xs.drop offset).take length).map some =
      (List.range' offset length).map fun position => xs[position]? := by
  apply List.ext_getElem
  · simp
    omega
  · intro i h₁ h₂
    have hi : i < length := by simpa using h₂
    simp only [List.getElem_map, List.getElem_take, List.getElem_drop, List.getElem_range',
      Nat.one_mul]
    exact (List.getElem?_eq_getElem (by omega)).symm

/-- Each byte of a translation has the origin that it has in the middle. -/
theorem origins_translate {first second : List Instruction}
    (h : Within (outputLength first) second) :
    (origins (translate first second)).map some = (origins second).map (Origin.over first) := by
  induction second with
  | nil => rfl
  | cons i second ih =>
    obtain ⟨hi, hsecond⟩ := within_cons.mp h
    rw [translate_cons, origins_append, List.map_append, ih hsecond, origins_cons, List.map_append]
    congr 1
    cases i with
    | copy offset length =>
      have hle : offset + length ≤ outputLength first := within_copy.mp hi
      rw [Instruction.over, origins_sliceOf hle, Instruction.origins, List.map_map,
        map_getElem?_range' (by rwa [length_origins])]
      rfl
    | literal bytes =>
      rw [Instruction.over, origins_cons, origins_nil, List.append_nil, Instruction.origins,
        List.map_map, List.map_map]
      rfl

/-- These instructions are the translation of a second patch, with literals run together; so their
bytes come from where the first patch takes them. -/
structure Translation (first second : List Instruction) (is : Array Instruction) : Prop where
  eq_addAll : is = (({} : Collector).addAll (translate first second)).instructions
  origins_eq : (origins is.toList).map some = (origins second).map (Origin.over first)

theorem translation_addAll {first second : List Instruction}
    (h : Within (outputLength first) second) :
    Translation first second (({} : Collector).addAll (translate first second)).instructions := by
  refine ⟨rfl, ?_⟩
  rw [Collector.origins_addAll, ← origins_translate h]
  rfl

/-- A collector holds a slice as it holds the calls for the range. -/
theorem Collector.addAll_sliceOf (c : Collector) (is : List Instruction) (offset length : Nat) :
    c.addAll (sliceOf is offset length).toList =
      c.addAll ((rangeSteps 0 offset (offset + length) is).flatMap SinkStep.instructions) := by
  refine Collector.addAll_congr ?_ c
  rw [sliceOf, Collector.atoms_addAll]
  rfl

/-! ## Feeding a merger -/

namespace Merger

variable {σ : Type} [Source σ] {H : σ → Prop} {patch : List UInt8} {s : Spelling}
  {rest : List UInt8} {m : Merger σ Collector}

/-- A range of the middle is added as the slice of the first patch. -/
theorem addCopy_within (k : Source.Holding H patch) (hend : s.ending = .marker rest)
    (hm : Ready H patch s m) {offset length : Nat}
    (hin : offset + length ≤ outputLength s.instructions)
    (hnear : ¬ BeginsBeyond s.instructions offset length) :
    ∃ m', m.addCopy offset length = (.ok (), m') ∧ Ready H patch s m' ∧
      m'.sink = m.sink.addAll (sliceOf s.instructions offset length).toList := by
  obtain ⟨first, index, h, hx, hact⟩ := hm.exists_addCopy offset length
  obtain ⟨first', hr, h'⟩ := PatchIndex.resolveInto_of_near k h hx hend hin hnear m.sink
  rw [Collector.feed_collector, ← Collector.addAll_sliceOf] at hr
  rw [hact, resolve, hr]
  exact ⟨_, rfl, ⟨h', by rintro index ⟨⟩; exact hx, by rintro ⟨⟩⟩, rfl⟩

/-- A range that begins beyond is given up, and adds nothing. -/
theorem addCopy_far (k : Source.Holding H patch) (hend : s.ending = .marker rest)
    (hm : Ready H patch s m) {offset length : Nat}
    (hin : offset + length ≤ outputLength s.instructions)
    (hfar : BeginsBeyond s.instructions offset length) :
    ∃ m', m.addCopy offset length = (.error (.overflow .sum), m') ∧ m'.sink = m.sink := by
  obtain ⟨first, index, h, hx, hact⟩ := hm.exists_addCopy offset length
  obtain ⟨first', hr, -⟩ := PatchIndex.resolveInto_of_beginsBeyond k h hx hend hin hfar m.sink
  rw [hact, resolve, hr]
  exact ⟨_, rfl, rfl⟩

/-- A range that reaches behind the middle is an error, and adds nothing. -/
theorem addCopy_beyond (hm : Ready H patch s m) {offset length : Nat}
    (hout : outputLength s.instructions < offset + length) :
    ∃ m', m.addCopy offset length =
        (.error (.rangeOutOfBounds offset length (outputLength s.instructions)), m') ∧
      m'.sink = m.sink := by
  obtain ⟨first, index, -, hx, hact⟩ := hm.exists_addCopy offset length
  rw [← hx.targetLength] at hout ⊢
  rw [hact, resolve, PatchIndex.resolveInto_of_lt hout]
  exact ⟨_, rfl, rfl⟩

theorem feed_literals (hm : Ready H patch s m) (parts : List ByteArray) :
    ∃ m', feed m (parts.map .literal) = (.ok (), m') ∧ Ready H patch s m' ∧
      m'.sink = m.sink.addAll (parts.map .literal) := by
  induction parts generalizing m with
  | nil => exact ⟨m, rfl, hm, rfl⟩
  | cons part parts ih =>
    rcases m with ⟨first, options, index, sink⟩
    obtain ⟨m', hf, hm', hsink⟩ := ih (hm.of_sink (sink.addLiteral part))
    exact ⟨m', hf, hm', hsink⟩

/-- Instructions without a copy that reaches behind the middle or begins beyond are translated. -/
theorem feed_within (k : Source.Holding H patch) (hend : s.ending = .marker rest)
    (hm : Ready H patch s m) {is : List Instruction}
    (hin : Within (outputLength s.instructions) is)
    (hnear : ∀ copy ∈ copies is, ¬ BeginsBeyond s.instructions copy.1 copy.2) :
    ∃ m', feed m (is.flatMap Instruction.steps) = (.ok (), m') ∧ Ready H patch s m' ∧
      m'.sink = m.sink.addAll (translate s.instructions is) := by
  induction is generalizing m with
  | nil => exact ⟨m, rfl, hm, rfl⟩
  | cons i is ih =>
    obtain ⟨hi, his⟩ := within_cons.mp hin
    rw [← List.singleton_append, copies_append] at hnear
    obtain ⟨hnear, hnears⟩ := List.forall_mem_append.mp hnear
    have hfirst : ∃ m₁, feed m i.steps = (.ok (), m₁) ∧ Ready H patch s m₁ ∧
        m₁.sink = m.sink.addAll (i.over s.instructions) := by
      cases i with
      | copy offset length =>
        rw [Instruction.steps, feed_singleton]
        exact addCopy_within k hend hm (within_copy.mp hi) (hnear _ (List.mem_singleton_self _))
      | literal bytes =>
        obtain ⟨m₁, hf, hm₁, hsink⟩ := feed_literals hm (pieces bytes.data.toList)
        have hpieces := Collector.addAll_steps m.sink (.literal bytes)
        rw [Instruction.steps, instructions_literals] at hpieces
        exact ⟨m₁, hf, hm₁, hsink.trans hpieces⟩
    obtain ⟨m₁, hf₁, hm₁, hsink₁⟩ := hfirst
    obtain ⟨m₂, hf₂, hm₂, hsink₂⟩ := ih hm₁ his hnears
    refine ⟨m₂, ?_, hm₂, ?_⟩
    · rw [List.flatMap_cons, feed_append, hf₁, andThen_ok, hf₂]
    · rw [hsink₂, hsink₁, translate_cons, Collector.addAll_append]

/-- A copy that fails ends the translation; what is in front of it is translated. -/
theorem feed_stuck (k : Source.Holding H patch) (hend : s.ending = .marker rest)
    (hm : Ready H patch s m) {front : List Instruction}
    (hfront : Within (outputLength s.instructions) front)
    (hnear : ∀ copy ∈ copies front, ¬ BeginsBeyond s.instructions copy.1 copy.2)
    {offset length : Nat} {e : DeltaError}
    (hcopy : ∀ {m : Merger σ Collector}, Ready H patch s m →
      ∃ m', m.addCopy offset length = (.error e, m') ∧ m'.sink = m.sink)
    (back : List Instruction) :
    ∃ m', feed m ((front ++ .copy offset length :: back).flatMap Instruction.steps) =
        (.error e, m') ∧ m'.sink = m.sink.addAll (translate s.instructions front) := by
  obtain ⟨m₁, hf₁, hm₁, hsink₁⟩ := feed_within k hend hm hfront hnear
  obtain ⟨m₂, hcopy, hsink₂⟩ := hcopy hm₁
  have hact : SinkStep.act m₁ (.copy offset length) = (.error e, m₂) := hcopy
  refine ⟨m₂, ?_, hsink₂.trans hsink₁⟩
  rw [List.flatMap_append, feed_append, hf₁, andThen_ok, List.flatMap_cons, Instruction.steps,
    List.singleton_append, feed_cons, hact, andThen_error]

/-- The first copy that reaches behind the middle fails. -/
theorem feed_beyond (k : Source.Holding H patch) (hend : s.ending = .marker rest)
    (hm : Ready H patch s m) {front : List Instruction}
    (hfront : Within (outputLength s.instructions) front)
    (hnear : ∀ copy ∈ copies front, ¬ BeginsBeyond s.instructions copy.1 copy.2)
    {offset length : Nat} (hout : outputLength s.instructions < offset + length)
    (back : List Instruction) :
    ∃ m', feed m ((front ++ .copy offset length :: back).flatMap Instruction.steps) =
        (.error (.rangeOutOfBounds offset length (outputLength s.instructions)), m') ∧
      m'.sink = m.sink.addAll (translate s.instructions front) :=
  feed_stuck k hend hm hfront hnear (addCopy_beyond · hout) back

/-- The first copy that begins beyond is given up. -/
theorem feed_far (k : Source.Holding H patch) (hend : s.ending = .marker rest)
    (hm : Ready H patch s m) {front : List Instruction}
    (hfront : Within (outputLength s.instructions) front)
    (hnear : ∀ copy ∈ copies front, ¬ BeginsBeyond s.instructions copy.1 copy.2)
    {offset length : Nat} (hin : offset + length ≤ outputLength s.instructions)
    (hfar : BeginsBeyond s.instructions offset length) (back : List Instruction) :
    ∃ m', feed m ((front ++ .copy offset length :: back).flatMap Instruction.steps) =
        (.error (.overflow .sum), m') ∧
      m'.sink = m.sink.addAll (translate s.instructions front) :=
  feed_stuck k hend hm hfront hnear (addCopy_far k hend · hin hfar) back

/-- A merger is ready at first if the first patch can be indexed. -/
theorem ready_of_build (k : Source.Holding H patch) {src src' : σ} (h : H src)
    {options : IndexOptions} {index : PatchIndex}
    (hb : PatchIndex.build src options = (.ok index, src')) (sink : Collector) :
    ∃ s rest, spellPatch? patch = some s ∧ s.ending = .marker rest ∧
      index.targetLength = outputLength s.instructions ∧
      Ready H patch s ({ first := src, options, sink } : Merger σ Collector) := by
  obtain ⟨s, rest, hs, hend, hx⟩ := PatchIndex.of_build k h hb
  by_cases hopt : options.interval = 0 ∨ options.maxAttempts = 0
  · rw [PatchIndex.build, if_pos hopt] at hb
    cases hb
  · obtain ⟨hi, ha⟩ := not_or.mp hopt
    refine ⟨s, rest, hs, hend, hx.targetLength, ready_start k h hs hend
      (Nat.pos_of_ne_zero hi) (Nat.pos_of_ne_zero ha) ?_ sink⟩
    intro attempts interval
    rw [hb]
    rintro ⟨⟩

end Merger

/-- All copies are of a kind, or there is a first one that is not. -/
theorem forall_copies_or_first (P : Nat × Nat → Prop) (is : List Instruction) :
    (∀ copy ∈ copies is, P copy) ∨ ∃ front offset length back,
      is = front ++ .copy offset length :: back ∧ (∀ copy ∈ copies front, P copy) ∧
        ¬ P (offset, length) := by
  induction is with
  | nil => exact .inl (List.forall_mem_nil _)
  | cons i is ih =>
    have hcopies (rest : List Instruction) : copies (i :: rest) = copies [i] ++ copies rest := by
      rw [← copies_append, List.singleton_append]
    by_cases hi : ∀ copy ∈ copies [i], P copy
    · rcases ih with his | ⟨front, offset, length, back, rfl, hfront, hout⟩
      · exact .inl (hcopies is ▸ List.forall_mem_append.mpr ⟨hi, his⟩)
      · refine .inr ⟨i :: front, offset, length, back, rfl, ?_, hout⟩
        exact hcopies front ▸ List.forall_mem_append.mpr ⟨hi, hfront⟩
    · cases i with
      | copy offset length =>
        exact .inr ⟨[], offset, length, is, rfl, List.forall_mem_nil _,
          fun h => hi (List.forall_mem_singleton.mpr h)⟩
      | literal bytes => exact absurd (List.forall_mem_nil _) hi

/-- There is a first copy that reaches behind the middle, or there is none. -/
theorem within_or_beyond (size : Nat) (is : List Instruction) :
    Within size is ∨ ∃ front offset length back, is = front ++ .copy offset length :: back ∧
      Within size front ∧ size < offset + length := by
  refine (forall_copies_or_first (fun copy => copy.1 + copy.2 ≤ size) is).imp_right ?_
  rintro ⟨front, offset, length, back, heq, hfront, hout⟩
  exact ⟨front, offset, length, back, heq, hfront, Nat.lt_of_not_le hout⟩

/-! ## Whole patches -/

section Merge

variable {σ ρ : Type} [Source σ] [ByteReader ρ] {H : σ → Prop} {first second : List UInt8}
  {src : σ} {r : ρ} {s : Spelling} {rest : List UInt8} {js : List Instruction}
  {options : IndexOptions}

/-- Without a copy that reaches behind the middle the whole second patch is translated. -/
theorem merge_within (k : Source.Holding H first) (hend : s.ending = .marker rest)
    (hm : Merger.Ready H first s ({ first := src, options, sink := {} } : Merger σ Collector))
    (hr : ByteReader.Delivers r second) (hjs : WellFormed second js)
    (hin : Within (outputLength s.instructions) js)
    (hnear : ∀ copy ∈ copies js, ¬ BeginsBeyond s.instructions copy.1 copy.2) :
    ∃ m, merge src r ({} : Collector) options = (.ok (outputLength js), m) ∧
      m.sink.closed = true ∧ Translation s.instructions js m.sink.instructions := by
  obtain ⟨rest', hs⟩ := wellFormed_iff.mp hjs
  obtain ⟨⟨first', options', index', sink'⟩, hf, -, hsink⟩ := Merger.feed_within k hend hm hin hnear
  have hsteps : Spelling.steps ⟨js, .marker rest'⟩ = js.flatMap Instruction.steps :=
    Spelling.steps_of_marker rfl
  refine ⟨⟨first', options', index', { sink' with closed := true }⟩, ?_, rfl, ?_⟩
  · rw [merge, convert_eq hr, hs]
    simp only [Spelling.convey, hsteps, hf, andThen_ok, Ending.error?, Nat.zero_add]
    rfl
  · obtain rfl : sink' = _ := hsink
    exact translation_addAll hin

/-- The first copy that reaches behind the middle is the error, and the instructions in front of it
have been translated. -/
theorem merge_beyond (k : Source.Holding H first) (hend : s.ending = .marker rest)
    (hm : Merger.Ready H first s ({ first := src, options, sink := {} } : Merger σ Collector))
    (hr : ByteReader.Delivers r second) {front back : List Instruction} {offset length : Nat}
    (hjs : WellFormed second (front ++ .copy offset length :: back))
    (hfront : Within (outputLength s.instructions) front)
    (hnear : ∀ copy ∈ copies front, ¬ BeginsBeyond s.instructions copy.1 copy.2)
    (hout : outputLength s.instructions < offset + length) :
    ∃ m, merge src r ({} : Collector) options =
        (.error (.rangeOutOfBounds offset length (outputLength s.instructions)), m) ∧
      m.sink.closed = false ∧ Translation s.instructions front m.sink.instructions := by
  obtain ⟨rest', hs⟩ := wellFormed_iff.mp hjs
  obtain ⟨m, hf, hsink⟩ := Merger.feed_beyond k hend hm hfront hnear hout back
  have hsteps := Spelling.steps_of_marker
    (rfl : (⟨front ++ .copy offset length :: back, .marker rest'⟩ : Spelling).ending = _)
  refine ⟨m, ?_, ?_, ?_⟩
  · rw [merge, convert_eq hr, hs]
    simp only [Spelling.convey, hsteps, hf, andThen_error]
  · rw [hsink, Collector.closed_addAll]
  · rw [hsink]
    exact translation_addAll hfront

/-- **Merging fails for ranges only.** Let a first patch be indexed of which all copies end at 2^64
or below, and let a second one be complete. Merging them into a collector succeeds if no copy of the
second reaches behind the middle, an empty one included, and without empty copies that is to take
nothing from behind it. The collector is closed then and holds the translation of the second patch.
Otherwise the first copy that reaches behind the middle is the error, and the collector is open and
holds the translation of what is in front of it. -/
theorem merge_outcome {src' : σ} {index : PatchIndex} (h : Source.Holds src first)
    (hb : PatchIndex.build src options = (.ok index, src')) (hr : ByteReader.Delivers r second)
    (hjs : WellFormed second js) :
    ∃ is, WellFormed first is ∧ index.targetLength = outputLength is ∧
      ((∀ copy ∈ copies is, copy.1 + copy.2 ≤ 0x10000000000000000) →
        ((∃ n, (merge src r ({} : Collector) options).1 = .ok n) ↔ Within index.targetLength js) ∧
        ((∀ copy ∈ copies js, 0 < copy.2) →
          (Within index.targetLength js ↔ Below index.targetLength (cells (atoms js)))) ∧
        ((∃ m, merge src r ({} : Collector) options = (.ok (outputLength js), m) ∧
            m.sink.closed = true ∧ Translation is js m.sink.instructions) ∨
          ∃ front offset length back m, js = front ++ .copy offset length :: back ∧
            Within index.targetLength front ∧ index.targetLength < offset + length ∧
            merge src r ({} : Collector) options =
              (.error (.rangeOutOfBounds offset length index.targetLength), m) ∧
            m.sink.closed = false ∧ Translation is front m.sink.instructions)) := by
  have k := Source.holding_holds (σ := σ) first
  obtain ⟨s, rest, hs, hend, hlength, hm⟩ := Merger.ready_of_build k h hb {}
  have hfirst : WellFormed first s.instructions :=
    wellFormed_iff.mpr ⟨rest, by rw [hs, ← hend]⟩
  refine ⟨s.instructions, hfirst, hlength, fun hc => ?_⟩
  have hnear (is : List Instruction) :
      ∀ copy ∈ copies is, ¬ BeginsBeyond s.instructions copy.1 copy.2 :=
    fun copy _ => Addressable.not_beginsBeyond hc copy.1 copy.2
  refine ⟨?_, within_iff_below, ?_⟩
  · rw [hlength]
    constructor
    · rintro ⟨n, hn⟩
      rcases within_or_beyond (outputLength s.instructions) js with
        hin | ⟨front, offset, length, back, rfl, hfront, hout⟩
      · exact hin
      · obtain ⟨m, hmerge, -⟩ := merge_beyond k hend hm hr hjs hfront (hnear front) hout
        rw [hmerge] at hn
        cases hn
    · intro hin
      obtain ⟨m, hmerge, -⟩ := merge_within k hend hm hr hjs hin (hnear js)
      exact ⟨_, congrArg Prod.fst hmerge⟩
  · rw [hlength]
    rcases within_or_beyond (outputLength s.instructions) js with
      hin | ⟨front, offset, length, back, rfl, hfront, hout⟩
    · exact .inl (merge_within k hend hm hr hjs hin (hnear js))
    · obtain ⟨m, hmerge, hm⟩ := merge_beyond k hend hm hr hjs hfront (hnear front) hout
      exact .inr ⟨front, offset, length, back, m, rfl, hfront, hout, hmerge, hm⟩

end Merge

/-- A well-formed patch can be indexed with the default settings. -/
theorem exists_build_of_wellFormed {first : ByteArray} {is : List Instruction}
    (h : WellFormed first.data.toList is) :
    ∃ index src', PatchIndex.build (⟨first, 0⟩ : MemoryStream) {} = (.ok index, src') := by
  obtain ⟨rest, hs⟩ := wellFormed_iff.mp h
  have hbytes : (⟨first, 0⟩ : MemoryStream).bytes = first := rfl
  have hoptions : 0 < ({} : IndexOptions).interval ∧ 0 < ({} : IndexOptions).maxAttempts := by
    decide
  obtain ⟨index, src', hb, -⟩ | ⟨hlimit, -⟩ := PatchIndex.exists_build
    (MemoryStream.holding_bytes first) hbytes hs rfl hoptions.1 hoptions.2
  · exact ⟨index, src', hb⟩
  · exact absurd rfl hlimit

/-- A copy that ends where the middle does, an empty one, and one that reaches behind the middle. -/
theorem merge_outcome_behind :
    let is : List Instruction := [.copy 7 4, .literal (packBytes [1, 2, 3])]
    let js : List Instruction :=
      [.copy 2 5, .copy 3 0, .literal (packBytes [9]), .copy 6 2, .copy 0 1]
    let first : MemoryStream := ⟨packBytes (patchOf .differential is), 0⟩
    let second : MemoryStream := ⟨packBytes (patchOf .normal js), 0⟩
    (∃ index src', PatchIndex.build first {} = (.ok index, src') ∧ index.targetLength = 7) ∧
      ∃ front offset length back m, js = front ++ .copy offset length :: back ∧
        merge first second ({} : Collector) {} = (.error (.rangeOutOfBounds offset length 7), m) ∧
        m.sink.closed = false ∧ Translation is front m.sink.instructions := by
  intro is js first second
  have hwell : WellFormed first.bytes.data.toList is :=
    wellFormed_patchOf .differential (by decide)
  obtain ⟨index, src', hb⟩ := exists_build_of_wellFormed hwell
  have hsecond : WellFormed (patchOf .normal js) js := wellFormed_patchOf .normal (by decide)
  obtain ⟨is', hfirst, hlength, hall⟩ := merge_outcome (MemoryStream.holds first) hb
    (MemoryStream.delivers second) hsecond
  obtain rfl : is' = is := hfirst.unique hwell
  obtain ⟨hok, -, hcases⟩ := hall (by decide)
  have hseven : index.targetLength = 7 := hlength
  rw [hseven] at hok hcases
  refine ⟨⟨index, src', hb, hseven⟩, ?_⟩
  obtain ⟨m, hmerge, -⟩ | ⟨front, offset, length, back, m, hjs, -, -, hmerge, hm⟩ := hcases
  · exact absurd (hok.mp ⟨_, congrArg Prod.fst hmerge⟩) (by decide)
  · exact ⟨front, offset, length, back, m, hjs, hmerge, hm⟩

/-- An empty copy takes nothing from behind the middle, and is an error if it points there. -/
theorem merge_empty_copy_behind :
    let first : MemoryStream :=
      ⟨packBytes (patchOf .normal [.literal (packBytes [1, 2, 3, 4])]), 0⟩
    let second : MemoryStream := ⟨packBytes (patchOf .normal [.copy 9 0]), 0⟩
    (∃ index src', PatchIndex.build first {} = (.ok index, src') ∧ index.targetLength = 4) ∧
      Below 4 (cells (atoms [.copy 9 0])) ∧
      (merge first second ({} : Collector) {}).1 = .error (.rangeOutOfBounds 9 0 4) := by
  intro first second
  have hwell : WellFormed first.bytes.data.toList _ := wellFormed_patchOf .normal (by decide)
  obtain ⟨index, src', hb⟩ := exists_build_of_wellFormed hwell
  have k := MemoryStream.holding_bytes first.bytes
  obtain ⟨s, rest, hs, hend, hlength, hm⟩ := Merger.ready_of_build k (rfl : first.bytes = _) hb {}
  have hfirst : WellFormed first.bytes.data.toList s.instructions :=
    wellFormed_iff.mpr ⟨rest, by rw [hs, ← hend]⟩
  have his : s.instructions = [.literal (packBytes [1, 2, 3, 4])] := hfirst.unique hwell
  have hsecond : WellFormed (patchOf .normal [.copy 9 0]) ([] ++ .copy 9 0 :: []) :=
    wellFormed_patchOf .normal (by decide)
  have hout : outputLength s.instructions < 9 + 0 := by rw [his]; decide
  obtain ⟨m, hmerge, -⟩ := merge_beyond k hend hm (MemoryStream.delivers second) hsecond
    (within_nil _) (List.forall_mem_nil _) hout
  rw [his] at hlength hmerge
  exact ⟨⟨index, src', hb, hlength⟩, nofun, congrArg Prod.fst hmerge⟩

end BinaryDelta
