import BinaryDelta.Proofs.Merge.Index
import BinaryDelta.Proofs.RoundTrip
import BinaryDelta.Merge.Basic

/-!
# Merging and patching in turn

Merging two patches that follow each other comes to the same as applying one after the other. A
merger answers each call with calls to its own sink, and the cells that it was told go through the
first patch on the way: a range of the middle becomes the cells that it has there, and literal bytes
stay. This holds call by call.

* `Merger.Ready` is the invariant: the index of the first patch is there, or building it will
  succeed.

Results:
* `Merger.becomes_act`, `Merger.becomes_feed`: what calls tell goes through the first patch, if that
  is addressable, as long as no copy reaches behind the middle.
* `Merger.within_of_feed`: where they succeed, none does.
* `merge_eq`: merging feeds the sink the second patch as it goes through the first.
* `within_of_merge`: it succeeds only if no copy of the second patch reaches behind the middle.
* `exists_merge`: so the sink is told what rebuilds the end of the chain.
* **`decode_merge`**: merging succeeds, and the merged patch gives the end of the chain.
-/

namespace BinaryDelta

/-- Is the call no flush, and no copy that reaches behind this length? -/
def SinkStep.Within (size : Nat) : SinkStep → Prop
  | copy offset length => offset + length ≤ size
  | flush => False
  | _ => True

namespace Merger

variable {σ κ : Type} [Source σ] [InstructionSink κ] {H : σ → Prop} {patch : List UInt8}
  {s : Spelling} {rest : List UInt8} {m : Merger σ κ}

/-- The index of the first patch is there, or building it will succeed. -/
structure Ready (H : σ → Prop) (patch : List UInt8) (s : Spelling) (m : Merger σ κ) : Prop where
  holds : H m.first
  indexed : ∀ index ∈ m.index, index.Indexes patch s
  builds : m.index = none → ∃ index src', PatchIndex.build m.first m.options = (.ok index, src') ∧
    H src' ∧ index.Indexes patch s

/-- What comes of telling the merger cells: calls to its own sink that tell what becomes of the
cells when they go through the first patch. -/
def Becomes (H : σ → Prop) (patch : List UInt8) (s : Spelling) (cs : List Cell) (m : Merger σ κ)
    (outcome : Except DeltaError Unit × Merger σ κ) : Prop :=
  ∃ inner, (∀ step ∈ inner, step.Short) ∧ (∀ a ∈ inner.flatMap SinkStep.atoms, a.isSolid) ∧
    cells (inner.flatMap SinkStep.atoms) = through (cells (atoms s.instructions)) cs ∧
    outcome.1 = (feed m.sink inner).1 ∧ outcome.2.sink = (feed m.sink inner).2 ∧
    Ready H patch s outcome.2

/-- A range of the middle becomes the cells that it has in the first patch. -/
theorem becomes_resolve (k : Source.Holding H patch) (hend : s.ending = .marker rest)
    (hnear : Addressable s.instructions) {first : σ} (h : H first) {index : PatchIndex}
    (hx : index.Indexes patch s) (options : IndexOptions) {offset length : Nat}
    (hrange : offset + length ≤ outputLength s.instructions) :
    Becomes H patch s (cells [.copy offset length]) m
      (resolve first options index m.sink offset length) := by
  obtain ⟨first', hr, h'⟩ := PatchIndex.resolveInto_of_near k h hx hend hrange
    (hnear.not_beginsBeyond offset length) m.sink
  rw [resolve, hr]
  refine ⟨rangeSteps 0 offset (offset + length) s.instructions, hx.short _ _,
    solid_rangeSteps _ _ _ _, ?_, rfl, rfl, h', by rintro index ⟨⟩; exact hx, nofun⟩
  rw [cells_rangeSteps _ _ _ (by omega), Nat.sub_zero, Nat.max_eq_left (Nat.zero_le _),
    Nat.add_sub_cancel_left, cells_cons, cells_nil, List.append_nil]
  exact (through_copy (by rwa [length_cells])).symm

theorem Becomes.ready {cs : List Cell} {outcome : Except DeltaError Unit × Merger σ κ}
    (h : Becomes H patch s cs m outcome) : Ready H patch s outcome.2 := by
  obtain ⟨inner, -, -, -, -, -, hm⟩ := h
  exact hm

/-- What is done one after the other becomes calls one after the other. -/
theorem Becomes.append {cs cs' : List Cell} {outcome : Except DeltaError Unit × Merger σ κ}
    {next : Merger σ κ → Except DeltaError Unit × Merger σ κ} (h : Becomes H patch s cs m outcome)
    (h' : Becomes H patch s cs' outcome.2 (next outcome.2)) :
    Becomes H patch s (cs ++ cs') m (andThen outcome next) := by
  obtain ⟨inner, hs, hsolid, hc, ha, hsink, hm⟩ := h
  obtain ⟨inner', hs', hsolid', hc', ha', hsink', hm'⟩ := h'
  rcases outcome with ⟨answer, m'⟩
  refine ⟨inner ++ inner', List.forall_mem_append.mpr ⟨hs, hs'⟩, ?_, ?_, ?_⟩
  · rw [List.flatMap_append]
    exact List.forall_mem_append.mpr ⟨hsolid, hsolid'⟩
  · rw [List.flatMap_append, cells_append, through_append, hc, hc']
  · rw [feed_append]
    rcases hf : feed m.sink inner with ⟨answer', sink'⟩
    rw [hf] at ha hsink
    simp only at ha hsink hm ha' hsink' hm'
    subst ha hsink
    cases answer with
    | error e => exact ⟨rfl, rfl, hm⟩
    | ok done => exact ⟨ha', hsink', hm'⟩

omit [InstructionSink κ] in
theorem Ready.of_sink {first : σ} {options : IndexOptions} {index : Option PatchIndex} {sink : κ}
    (h : Ready H patch s ⟨first, options, index, sink⟩) (sink' : κ) :
    Ready H patch s (⟨first, options, index, sink'⟩ : Merger σ κ) :=
  ⟨h.holds, h.indexed, h.builds⟩

/-- Literal bytes are told to the sink as they are. -/
theorem becomes_onSink (hm : Ready H patch s m) {step : SinkStep} (hshort : step.Short)
    (values : List UInt8) (hvalues : step.atoms = values.map .byte) :
    Becomes H patch s (cells step.atoms) m (m.onSink fun sink => step.act sink) := by
  rcases m with ⟨first, options, index, sink⟩
  refine ⟨[step], List.forall_mem_singleton.mpr hshort, ?_, ?_, ?_⟩
  · rw [List.flatMap_singleton, hvalues]
    exact isSolid_bytes values
  · rw [List.flatMap_singleton, hvalues, through_bytes]
  · rw [feed_singleton]
    exact ⟨rfl, rfl, hm.of_sink _⟩

/-- A merger that is ready resolves a copy over an index of the first patch. -/
theorem Ready.exists_addCopy (hm : Ready H patch s m) (offset length : Nat) :
    ∃ first index, H first ∧ index.Indexes patch s ∧
      m.addCopy offset length = resolve first m.options index m.sink offset length := by
  rcases m with ⟨first, options, index, sink⟩
  cases index with
  | some index => exact ⟨first, index, hm.holds, hm.indexed index rfl, rfl⟩
  | none =>
    obtain ⟨index, first', hbuild, h', hx⟩ := hm.builds rfl
    refine ⟨first', index, h', hx, ?_⟩
    simp only [addCopy, Overlap.catchUp_apart, hbuild]

/-- What a call tells goes through the first patch. -/
theorem becomes_act (k : Source.Holding H patch) (hend : s.ending = .marker rest)
    (hnear : Addressable s.instructions) (hm : Ready H patch s m) {step : SinkStep}
    (hs : step.Within (outputLength s.instructions)) :
    Becomes H patch s (cells step.atoms) m (step.act m) := by
  cases step with
  | copy offset length =>
    obtain ⟨first, index, h, hx, hact⟩ := hm.exists_addCopy offset length
    have hcopy := becomes_resolve (m := m) k hend hnear h hx m.options hs
    rwa [← hact] at hcopy
  | byte value => exact becomes_onSink hm trivial [value] rfl
  | literal bytes => exact becomes_onSink hm trivial bytes.data.toList rfl
  | flush => exact hs.elim

/-- The same of any number of calls. -/
theorem becomes_feed (k : Source.Holding H patch) (hend : s.ending = .marker rest)
    (hnear : Addressable s.instructions) (hm : Ready H patch s m) {steps : List SinkStep}
    (hs : ∀ step ∈ steps, step.Within (outputLength s.instructions)) :
    Becomes H patch s (cells (steps.flatMap SinkStep.atoms)) m (feed m steps) := by
  induction steps generalizing m with
  | nil => exact ⟨[], nofun, nofun, rfl, rfl, rfl, hm⟩
  | cons step steps ih =>
    obtain ⟨hwithin, hs⟩ := List.forall_mem_cons.mp hs
    have hact := becomes_act k hend hnear hm hwithin
    rw [List.flatMap_cons, cells_append]
    exact hact.append (ih hact.ready hs)

/-- A copy that reaches behind the middle fails. -/
theorem within_of_act (hm : Ready H patch s m) {step : SinkStep} (hne : step ≠ .flush)
    (h : (step.act m).1 = .ok ()) : step.Within (outputLength s.instructions) := by
  cases step with
  | copy offset length =>
    by_contra hout
    obtain ⟨first, index, -, hx, hact⟩ := hm.exists_addCopy offset length
    have hlt : index.targetLength < offset + length := by
      rw [hx.targetLength]
      exact Nat.lt_of_not_le hout
    have hfail : (SinkStep.act m (.copy offset length)).1 =
        .error (.rangeOutOfBounds offset length index.targetLength) := by
      show (m.addCopy offset length).1 = _
      rw [hact, resolve, PatchIndex.resolveInto_of_lt hlt]
    rw [hfail] at h
    cases h
  | byte value => trivial
  | literal bytes => trivial
  | flush => exact absurd rfl hne

/-- Where calls succeed, no copy reaches behind the middle. -/
theorem within_of_feed (k : Source.Holding H patch) (hend : s.ending = .marker rest)
    (hnear : Addressable s.instructions) (hm : Ready H patch s m) {steps : List SinkStep}
    (hne : ∀ step ∈ steps, step ≠ .flush) (h : (feed m steps).1 = .ok ()) :
    ∀ step ∈ steps, step.Within (outputLength s.instructions) := by
  induction steps generalizing m with
  | nil => exact nofun
  | cons step steps ih =>
    obtain ⟨hstep, hne⟩ := List.forall_mem_cons.mp hne
    rw [feed_cons] at h
    rcases hact : step.act m with ⟨e | _, m'⟩
    · rw [hact] at h
      cases h
    · have hwithin := within_of_act hm hstep (by rw [hact])
      have hready := (becomes_act k hend hnear hm hwithin).ready
      rw [hact] at h hready
      exact List.forall_mem_cons.mpr ⟨hwithin, ih hready hne h⟩

end Merger

/-! ## Whole patches -/

/-- No copy of the patch is empty. -/
def CopiesNonempty (patch : List UInt8) : Prop :=
  ∀ s ∈ spellPatch? patch, ∀ copy ∈ copies s.instructions, 0 < copy.2

theorem copiesNonempty_patchOf (mode : Mode) {is : List Instruction} (hi : ∀ i ∈ is, i.Writable)
    (hc : ∀ copy ∈ copies is, 0 < copy.2) : CopiesNonempty (patchOf mode is) := by
  have hs := spellPatch?_patchOf mode hi []
  rw [List.append_nil] at hs
  intro s hs'
  rw [hs] at hs'
  cases hs'
  exact hc

/-- Copies stay within a length if the calls do that hand them over. -/
theorem within_steps_iff {size : Nat} {is : List Instruction} :
    (∀ step ∈ is.flatMap Instruction.steps, step.Within size) ↔
      ∀ copy ∈ copies is, copy.1 + copy.2 ≤ size := by
  constructor
  · intro h copy hcopy
    have hi := mem_copies_iff.mp hcopy
    exact h (.copy copy.1 copy.2) (List.mem_flatMap.mpr ⟨_, hi, List.mem_singleton_self _⟩)
  · intro hc step hstep
    obtain ⟨i, hi, hstep⟩ := List.mem_flatMap.mp hstep
    cases i with
    | copy offset length =>
      obtain rfl := List.mem_singleton.mp hstep
      exact hc (offset, length) (mem_copies_iff.mpr hi)
    | literal bytes =>
      obtain ⟨piece, -, rfl⟩ := List.mem_map.mp hstep
      trivial

section Merge

variable {σ ρ κ : Type} [Source σ] [ByteReader ρ] [InstructionSink κ] {H : σ → Prop}
  {first second source middle target : List UInt8}

/-- Merging feeds the sink the second patch as it goes through the first. -/
theorem merge_eq (k : Source.Holding H first) {m : Merger σ κ} {s₁ s₂ : Spelling}
    {rest₁ rest₂ : List UInt8} (hend₁ : s₁.ending = .marker rest₁) {r : ρ}
    (hr : ByteReader.Delivers r second) (hs₂ : spellPatch? second = some s₂)
    (hend₂ : s₂.ending = .marker rest₂) (hm : Merger.Ready H first s₁ m)
    (hnear : Addressable s₁.instructions)
    (hc : ∀ copy ∈ copies s₂.instructions, copy.1 + copy.2 ≤ outputLength s₁.instructions) :
    ∃ inner, (∀ step ∈ inner, step.Short) ∧ (∀ a ∈ inner.flatMap SinkStep.atoms, a.isSolid) ∧
      cells (inner.flatMap SinkStep.atoms) =
        through (cells (atoms s₁.instructions)) (cells (atoms s₂.instructions)) ∧
      (convert r m).1 = (complete m.sink inner).1.map (fun _ => outputLength s₂.instructions) ∧
      (convert r m).2.sink = (complete m.sink inner).2 := by
  obtain ⟨inner, hs, hsolid, hcells, hanswer, hsink, -⟩ :=
    Merger.becomes_feed k hend₁ hnear hm (within_steps_iff.mpr hc)
  rw [atoms_flatMap_steps] at hcells
  refine ⟨inner, hs, hsolid, hcells, ?_⟩
  rw [convert_eq hr, hs₂]
  simp only [Spelling.convey, Spelling.steps_of_marker hend₂, hend₂, Ending.error?, complete,
    Nat.zero_add]
  rcases hfm : feed m (s₂.instructions.flatMap Instruction.steps) with
    ⟨answer, first', options', index', sink'⟩
  rcases hf : feed m.sink inner with ⟨answer', sink''⟩
  rw [hfm, hf] at hanswer hsink
  simp only at hanswer hsink
  subst hanswer hsink
  cases answer with
  | error e => exact ⟨rfl, rfl⟩
  | ok done =>
    simp only [andThen_ok, InstructionSink.close, Merger.onSink]
    rcases InstructionSink.close sink' with ⟨e | _, sink₁⟩
    · exact ⟨rfl, rfl⟩
    · exact ⟨rfl, rfl⟩

/-- Where merging succeeds, no copy of the second patch reaches behind the middle. -/
theorem within_of_merge (k : Source.Holding H first) {m : Merger σ κ} {s₁ s₂ : Spelling}
    {rest₁ rest₂ : List UInt8} (hend₁ : s₁.ending = .marker rest₁) {r : ρ}
    (hr : ByteReader.Delivers r second) (hs₂ : spellPatch? second = some s₂)
    (hend₂ : s₂.ending = .marker rest₂) (hm : Merger.Ready H first s₁ m)
    (hnear : Addressable s₁.instructions) {length : Nat} (h : (convert r m).1 = .ok length) :
    ∀ copy ∈ copies s₂.instructions, copy.1 + copy.2 ≤ outputLength s₁.instructions := by
  rw [convert_eq hr, hs₂] at h
  replace h := fst_of_andThen h
  rw [Spelling.steps_of_marker hend₂] at h
  refine within_steps_iff.mp (Merger.within_of_feed k hend₁ hnear hm ?_ h)
  intro step hstep
  obtain ⟨i, -, hstep⟩ := List.mem_flatMap.mp hstep
  cases i with
  | copy offset length =>
    obtain rfl := List.mem_singleton.mp hstep
    exact nofun
  | literal bytes =>
    obtain ⟨piece, -, rfl⟩ := List.mem_map.mp hstep
    exact nofun

omit [InstructionSink κ] in
/-- A merger is ready at first, unless the index of the first patch gets too long. -/
theorem Merger.ready_start (k : Source.Holding H first) {src : σ} (h : H src) {s : Spelling}
    (hs : spellPatch? first = some s) {rest : List UInt8} (hend : s.ending = .marker rest)
    {options : IndexOptions} (hi : 0 < options.interval) (ha : 0 < options.maxAttempts)
    (hbuild : ∀ attempts interval,
      (PatchIndex.build src options).1 ≠ .error (.indexExhausted attempts interval)) (sink : κ) :
    Ready H first s ({ first := src, options, sink } : Merger σ κ) := by
  refine ⟨h, nofun, fun _ => ?_⟩
  rcases PatchIndex.exists_build k h hs hend hi ha with hb | ⟨-, attempts, interval, src', hb⟩
  · exact hb
  · exact absurd (congrArg Prod.fst hb) (hbuild attempts interval)

/-- A patch that can be applied over a source is addressable, if the source is. -/
theorem addressable_of_rebuilds {b : OffsetBase} {patch source target : List UInt8}
    (hl : source.length ≤ 0x10000000000000000)
    (h : Rebuilds source (spell b patch).instructions target) :
    Addressable (spell b patch).instructions := by
  intro copy hcopy
  rcases (rebuilds_iff.mp h).1 _ (mem_copies_iff.mp hcopy) with hempty | hle
  · have hlt := (offset_lt_of_spell b patch copy hcopy).1
    omega
  · exact Nat.le_trans hle hl

/-- Merging feeds the sink calls that rebuild the end of the chain over its beginning. -/
theorem exists_merge (k : Source.Holding H first) (src : σ) (h : H src) {r : ρ}
    (hl : source.length ≤ 0x10000000000000000)
    (hr : ByteReader.Delivers r second) (h₁ : Describes first source middle)
    (h₂ : Describes second middle target) (hc : CopiesNonempty second) {options : IndexOptions}
    (hi : 0 < options.interval) (ha : 0 < options.maxAttempts)
    (hbuild : ∀ attempts interval,
      (PatchIndex.build src options).1 ≠ .error (.indexExhausted attempts interval)) (sink : κ) :
    ∃ inner, (∀ step ∈ inner, step.Short) ∧
      Rebuilds source (inner.flatMap SinkStep.instructions) target ∧
      (merge src r sink options).1 = (complete sink inner).1.map (fun _ => target.length) ∧
      (merge src r sink options).2.sink = (complete sink inner).2 := by
  obtain ⟨s₁, rest₁, hs₁, hend₁, ht₁⟩ := h₁
  obtain ⟨s₂, rest₂, hs₂, hend₂, ht₂⟩ := h₂
  have hwithin : ∀ copy ∈ copies s₂.instructions,
      copy.1 + copy.2 ≤ outputLength s₁.instructions := by
    intro copy hcopy
    have hpos := hc s₂ hs₂ copy hcopy
    have hin := (rebuilds_iff.mp ht₂).1 _ (mem_copies_iff.mp hcopy)
    rw [← length_of_rebuilds ht₁]
    exact hin.resolve_left (Nat.ne_of_gt hpos)
  have hnear : Addressable s₁.instructions := by
    obtain ⟨mode, records, -, rfl⟩ := spellPatch?_eq_some_iff.mp hs₁
    exact addressable_of_rebuilds hl ht₁
  have hm := Merger.ready_start k h hs₁ hend₁ hi ha hbuild sink
  obtain ⟨inner, hs, -, hcells, hanswer, hsink⟩ := merge_eq k hend₁ hr hs₂ hend₂ hm hnear hwithin
  rw [SinkStep.cells_flatMap_atoms] at hcells
  rw [← length_of_rebuilds ht₂] at hanswer
  exact ⟨inner, hs, rebuilds_of_through ht₁ ht₂ hcells, hanswer, hsink⟩

end Merge

/-- **Merging is patching in turn.** Let a first patch give the middle of a chain over its
beginning, and a second one, without empty copies, the end over the middle. Unless the index of the
first gets too long, merging them succeeds in either mode, and the merged patch gives the end over
the beginning. -/
theorem decode_merge {first second source middle target : ByteArray}
    (hl : source.size < 0x8000000000000000) (h₁ : decode first source = .ok middle)
    (h₂ : decode second middle = .ok target) (hc : CopiesNonempty second.data.toList)
    {options : IndexOptions} (hi : 0 < options.interval) (ha : 0 < options.maxAttempts)
    (hbuild : ∀ attempts interval, (PatchIndex.build (⟨first, 0⟩ : MemoryStream) options).1 ≠
      .error (.indexExhausted attempts interval)) (differential : Bool) :
    ∃ writer merged, PatchWriter.create ByteArray.empty { differential } = .ok writer ∧
      merge (⟨first, 0⟩ : MemoryStream) (⟨second, 0⟩ : MemoryStream) writer options =
        (.ok target.size, merged) ∧
      decode merged.sink.output source = .ok target := by
  have hsecond : ByteReader.Delivers (⟨second, 0⟩ : MemoryStream) second.data.toList :=
    MemoryStream.delivers ⟨second, 0⟩
  have hempty : ByteArray.empty.data.toList = [] := rfl
  obtain ⟨w, hw, -⟩ :=
    PatchWriter.exists_create ByteOutput.reliable_byteArray hempty { differential } rfl
  obtain ⟨inner, hs, hr, hanswer, hsink⟩ := exists_merge (MemoryStream.holding_bytes first)
    ⟨first, 0⟩ rfl (by rw [length_toList]; omega) hsecond ((decode_eq_ok_iff _ _ _).mp h₁)
    ((decode_eq_ok_iff _ _ _).mp h₂) hc hi ha hbuild w
  obtain ⟨w₁, w', hw₁, h', hd⟩ := PatchWriter.exists_describes { differential } rfl rfl rfl hs
    (by rwa [length_toList]) hr
  rw [hw] at hw₁
  cases hw₁
  rw [h'] at hanswer hsink
  refine ⟨w, _, hw, Prod.ext (hanswer.trans ?_) rfl, (decode_eq_ok_iff _ _ _).mpr ?_⟩
  · rw [Except.map, length_toList]
  · rw [hsink]
    exact hd

/-- A first patch in differential mode, and a second one that copies across the borders of its
instructions. -/
theorem decode_merge_across :
    let front : List Instruction := [.copy 2 4, .literal (packBytes [9, 9]), .copy 0 3]
    let back : List Instruction := [.copy 2 3, .literal (packBytes [7]), .copy 7 2]
    let source := packBytes [1, 2, 3, 4, 5, 6, 7, 8]
    let target := packBytes [5, 6, 9, 7, 2, 3]
    let first := packBytes (patchOf .differential front)
    let second := packBytes (patchOf .normal back)
    ∃ writer merged, PatchWriter.create ByteArray.empty { differential := true } = .ok writer ∧
      merge (⟨first, 0⟩ : MemoryStream) (⟨second, 0⟩ : MemoryStream) writer { interval := 1 } =
        (.ok target.size, merged) ∧
      decode merged.sink.output source = .ok target := by
  intro front back source target first second
  let middle := packBytes [3, 4, 5, 6, 9, 9, 1, 2, 3]
  have hfront : ∀ i ∈ front, i.Writable := by decide
  have hback : ∀ i ∈ back, i.Writable := by decide
  have h₁ : decode first source = .ok middle := decode_patchOf .differential hfront (by decide)
  have h₂ : decode second middle = .ok target := decode_patchOf .normal hback (by decide)
  have hc : CopiesNonempty second.data.toList := copiesNonempty_patchOf .normal hback (by decide)
  have hbuild := PatchIndex.build_ne_exhausted (MemoryStream.holding_bytes first) ⟨first, 0⟩
    rfl (spellPatch?_patchOf .differential hfront []) rfl { interval := 1 } (by decide)
    (by decide) rfl
  exact decode_merge (by decide) h₁ h₂ hc (by decide) (by decide) hbuild true

end BinaryDelta
