import BinaryDelta.Merge.Basic
import BinaryDelta.Patch.Apply
import BinaryDelta.Proofs.Merge.Index
import BinaryDelta.Proofs.Sink.Lockstep
import BinaryDelta.Proofs.Source.Seeking

/-!
# However bytes arrive

A patch may arrive in pieces, a source may answer with less than was asked for, and both may be
interrupted. Nothing that is done with them depends on it: what a patch is applied to, indexed for
or merged with comes to the same as with the same bytes in memory, and so does every failure. Two
sources that hold the same bytes are followed through each operation side by side.

* `Both` says that two sources hold the same bytes, and `Rebuilder.Twins`, `Merger.Twins` that two
  sinks differ in nothing but such sources.

Results:
* `PatchIndex.scanFrom_agree`, `PatchIndex.build_agree`: the index is the same, entry by entry.
* `Rebuilder.lockstep_twins`, `Merger.lockstep_twins`: such sinks are in lockstep.
* **`delivery_irrelevant`**: applying, converting and merging.
-/

namespace BinaryDelta

/-- Two sources, each with its own property. -/
def Both {σ σ' : Type} (H : σ → Prop) (H' : σ' → Prop) (s : σ) (s' : σ') : Prop := H s ∧ H' s'

variable {σ σ' : Type} [Source σ] [Source σ'] {H : σ → Prop} {H' : σ' → Prop}
  {bytes : List UInt8}

/-- An exact read of a range that is not empty. -/
theorem Source.Holding.readExactAt_agree (k : Holding H bytes) (k' : Holding H' bytes) {s : σ}
    {s' : σ'} (h : Both H H' s s') (position : Nat) {n : Nat} (hn : 0 < n) :
    Agree (Both H H') (Source.readExactAt s position n) (Source.readExactAt s' position n) := by
  by_cases hle : position + n ≤ bytes.length
  · obtain ⟨s₁, hs, h₁⟩ := k.readExactAt h.1 position hle
    obtain ⟨s₁', hs', h₁'⟩ := k'.readExactAt h.2 position hle
    rw [hs, hs']
    exact .intro _ ⟨h₁, h₁'⟩
  · obtain ⟨s₁, hs, h₁⟩ := k.readExactAt_short h.1 position hn (Nat.lt_of_not_le hle)
    obtain ⟨s₁', hs', h₁'⟩ := k'.readExactAt_short h.2 position hn (Nat.lt_of_not_le hle)
    rw [hs, hs']
    exact .intro _ ⟨h₁, h₁'⟩

/-! ## Rebuilding -/

namespace Rebuilder

variable {ω : Type} [ByteOutput ω]

/-- Two rebuilders with the same output, over sources that hold the same bytes. -/
structure Twins (H : σ → Prop) (H' : σ' → Prop) (r : Rebuilder σ ω) (r' : Rebuilder σ' ω) :
    Prop where
  sources : Both H H' r.source r'.source
  output_eq : r.output = r'.output

variable {r : Rebuilder σ ω} {r' : Rebuilder σ' ω}

omit [Source σ] [Source σ'] in
theorem write_agree (h : Twins H H' r r') (bytes : ByteArray) :
    Agree (Twins H H') (r.write bytes) (r'.write bytes) := by
  rcases r with ⟨source, output⟩
  rcases r' with ⟨source', output'⟩
  obtain ⟨hs, rfl : output = output'⟩ := h
  simp only [write]
  rcases ByteOutput.write output bytes with ⟨fault | _, output₁⟩
  · exact .intro _ ⟨hs, rfl⟩
  · exact .intro _ ⟨hs, rfl⟩

omit [Source σ] [Source σ'] in
theorem flush_agree (h : Twins H H' r r') : Agree (Twins H H') r.flush r'.flush := by
  rcases r with ⟨source, output⟩
  rcases r' with ⟨source', output'⟩
  obtain ⟨hs, rfl : output = output'⟩ := h
  simp only [flush]
  rcases ByteOutput.flush output with ⟨fault | _, output₁⟩
  · exact .intro _ ⟨hs, rfl⟩
  · exact .intro _ ⟨hs, rfl⟩

/-- A range is copied piece by piece. -/
theorem copyRange_agree (k : Source.Holding H bytes) (k' : Source.Holding H' bytes)
    (h : Twins H H' r r') (offset length : Nat) :
    Agree (Twins H H') (r.copyRange offset length) (r'.copyRange offset length) := by
  have hpiece : 0 < pieceSize := by decide
  induction length using Nat.strongRecOn generalizing r r' offset with
  | _ length ih =>
    rcases r with ⟨source, output⟩
    rcases r' with ⟨source', output'⟩
    obtain ⟨hs, rfl : output = output'⟩ := h
    rw [copyRange, copyRange]
    by_cases h₀ : length = 0
    · rw [if_pos h₀, if_pos h₀]
      exact .intro _ ⟨hs, rfl⟩
    · rw [if_neg h₀, if_neg h₀, Overlap.catchUp_apart, Overlap.catchUp_apart]
      have hread := k.readExactAt_agree k' hs offset (n := min length pieceSize) (by omega)
      generalize Source.readExactAt source offset (min length pieceSize) = x at hread
      generalize Source.readExactAt source' offset (min length pieceSize) = x' at hread
      cases hread with
      | intro answer hs₁ =>
        cases answer with
        | error e => exact .intro _ ⟨hs₁, rfl⟩
        | ok piece =>
          simp only
          rcases ByteOutput.write output piece with ⟨fault | _, output₁⟩
          · exact .intro _ ⟨hs₁, rfl⟩
          · exact ih (length - pieceSize) (by omega) ⟨hs₁, rfl⟩ (offset + pieceSize)

/-- Such rebuilders are in lockstep. -/
theorem lockstep_twins (k : Source.Holding H bytes) (k' : Source.Holding H' bytes) :
    Lockstep (Twins H H' : Rebuilder σ ω → Rebuilder σ' ω → Prop) where
  act h step := by
    cases step with
    | copy offset length => exact copyRange_agree k k' h offset length
    | byte value => exact write_agree h _
    | literal bytes => exact write_agree h bytes
    | flush => exact flush_agree h
  close h := flush_agree h

end Rebuilder

/-! ## Indexing -/

namespace PatchIndex

variable {patch : List UInt8}

omit [Source σ] [Source σ'] in
theorem position_eq_of_at {c : SourceCursor σ} {c' : SourceCursor σ'} {rest : List UInt8}
    (h : SourceCursor.At H patch c rest) (h' : SourceCursor.At H' patch c' rest) :
    c.position = c'.position := by
  have := h.length_rest
  have := h'.length_rest
  omega

/-- Scanning on from the same record comes to the same index, or the same error. -/
theorem scanFrom_agree (k : Source.Holding H patch) (k' : Source.Holding H' patch)
    {c : SourceCursor σ} {c' : SourceCursor σ'} {b : OffsetBase} {rest : List UInt8}
    (h : SourceCursor.At H patch c rest) (h' : SourceCursor.At H' patch c' rest) (interval : Nat)
    (maxEntries : Option Nat) (number targetOffset : Nat) (entries : Array IndexEntry) :
    Agree (Both H H') (scanFrom interval maxEntries c b number targetOffset entries)
      (scanFrom interval maxEntries c' b number targetOffset entries) := by
  have d := SourceCursor.delivery_at k
  have d' := SourceCursor.delivery_at k'
  induction hn : rest.length using Nat.strongRecOn
    generalizing c c' b rest number targetOffset entries with
  | _ n ih =>
    subst hn
    cases hp : Record.parse? b.mode rest with
    | none =>
      obtain ⟨c₁, hr, h₁⟩ := d.readRecord_cut h hp c.position
      obtain ⟨c₁', hr', h₁'⟩ := d'.readRecord_cut h' hp c'.position
      rw [scanFrom_of_error hr, scanFrom_of_error hr']
      exact .intro _ ⟨h₁.holds, h₁'.holds⟩
    | some parsed =>
      rcases parsed with ⟨record, rest'⟩
      have hlt := Record.length_lt_of_parse? hp
      obtain ⟨c₁, hr, h₁⟩ := d.readRecord h hp c.position
      obtain ⟨c₁', hr', h₁'⟩ := d'.readRecord h' hp c'.position
      have hboth : Both H H' c₁.source c₁'.source := ⟨h₁.holds, h₁'.holds⟩
      rw [scanFrom_of_read hr, scanFrom_of_read hr', position_eq_of_at h h']
      refine .ite (.intro _ hboth) ?_
      cases record with
      | eof => exact .intro _ hboth
      | literal length =>
        have hsrc := k.length h₁.holds
        have hsrc' := k'.length h₁'.holds
        have hin := h₁.length_rest
        have hpos := position_eq_of_at h₁ h₁'
        simp only [hsrc, hsrc', ← hpos]
        by_cases hl : length ≤ rest'.length
        · have hmoved := h₁'.moved h₁'.holds hl
          rw [← hpos] at hmoved
          rw [if_neg (by omega), if_neg (by omega)]
          exact ih _ (by rw [List.length_drop]; omega) (h₁.moved h₁.holds hl) hmoved _ _ _ rfl
        · rw [if_pos (by omega), if_pos (by omega)]
          exact .intro _ hboth
      | copy value length =>
        simp only
        rcases b.decode value with ⟨e | offset, b'⟩
        · exact .intro _ hboth
        · exact ih _ hlt h₁ h₁' _ _ _ rfl

section Build

variable {src : σ} {src' : σ'}

theorem scan_agree (k : Source.Holding H patch) (k' : Source.Holding H' patch)
    (h : Both H H' src src') (interval : Nat) (maxEntries : Option Nat) :
    Agree (Both H H') (scan interval maxEntries src) (scan interval maxEntries src') := by
  cases hm : modeOfPreamble? patch with
  | none =>
    have hs : spellPatch? patch = none := by rw [spellPatch?, hm, Option.map_none]
    obtain ⟨src₁, hscan, h₁⟩ := scan_of_none k h.1 hs interval maxEntries
    obtain ⟨src₁', hscan', h₁'⟩ := scan_of_none k' h.2 hs interval maxEntries
    rw [hscan, hscan']
    exact .intro _ ⟨h₁, h₁'⟩
  | some mode =>
    have hstart : SourceCursor.At H patch ⟨src, 0⟩ patch := ⟨h.1, Nat.zero_le _, rfl⟩
    have hstart' : SourceCursor.At H' patch ⟨src', 0⟩ patch := ⟨h.2, Nat.zero_le _, rfl⟩
    obtain ⟨c, hr, hc⟩ := (SourceCursor.delivery_at k).readPreamble hstart hm
    obtain ⟨c', hr', hc'⟩ := (SourceCursor.delivery_at k').readPreamble hstart' hm
    rw [scan, scan, hr, hr']
    exact scanFrom_agree k k' hc hc' interval maxEntries 0 0 #[]

theorem buildFrom_agree (k : Source.Holding H patch) (k' : Source.Holding H' patch)
    (h : Both H H' src src') (options : IndexOptions) (interval attempts : Nat) :
    Agree (Both H H') (buildFrom options interval src attempts)
      (buildFrom options interval src' attempts) := by
  induction attempts generalizing interval src src' with
  | zero => exact .intro _ h
  | succ attempts ih =>
    have hscan := scan_agree k k' h interval options.maxEntries
    rw [buildFrom, buildFrom]
    generalize scan interval options.maxEntries src = outcome at hscan
    generalize scan interval options.maxEntries src' = outcome' at hscan
    cases hscan with
    | intro answer h₁ =>
      rcases answer with e | index?
      · exact .intro _ h₁
      · cases index? with
        | some index => exact .intro _ h₁
        | none => exact .ite (.intro _ h₁) (ih h₁ _)

/-- Sources that hold the same patch are indexed alike. -/
theorem build_agree (k : Source.Holding H patch) (k' : Source.Holding H' patch)
    (h : Both H H' src src') (options : IndexOptions) :
    Agree (Both H H') (build src options) (build src' options) :=
  .ite (.intro _ h) (buildFrom_agree k k' h options options.interval options.maxAttempts)

end Build

end PatchIndex

/-! ## Merging -/

namespace Merger

variable {κ : Type} [InstructionSink κ] {patch : List UInt8}

/-- Two mergers that go on to the same sink with the same index, over sources that hold the same
first patch. -/
structure Twins (patch : List UInt8) (H : σ → Prop) (H' : σ' → Prop) (m : Merger σ κ)
    (m' : Merger σ' κ) : Prop where
  sources : Both H H' m.first m'.first
  options_eq : m.options = m'.options
  index_eq : m.index = m'.index
  indexed : ∀ index ∈ m.index, ∃ s rest, s.ending = .marker rest ∧ index.Indexes patch s
  sink_eq : m.sink = m'.sink

/-- What is handed on for a range of the first patch depends on its bytes alone. -/
theorem resolve_agree (k : Source.Holding H patch) (k' : Source.Holding H' patch) {src : σ}
    {src' : σ'} (h : Both H H' src src') {index : PatchIndex} {s : Spelling} {rest : List UInt8}
    (hend : s.ending = .marker rest) (hx : index.Indexes patch s) (options : IndexOptions)
    (sink : κ) (offset length : Nat) :
    Agree (Twins patch H H') (resolve src options index sink offset length)
      (resolve src' options index sink offset length) := by
  have hindexed : ∀ i ∈ some index, ∃ s rest, s.ending = .marker rest ∧
      PatchIndex.Indexes patch s i := by
    rintro i ⟨⟩
    exact ⟨s, rest, hend, hx⟩
  rw [resolve, resolve]
  by_cases hlt : index.targetLength < offset + length
  · rw [PatchIndex.resolveInto_of_lt hlt, PatchIndex.resolveInto_of_lt hlt]
    exact .intro _ ⟨h, rfl, rfl, hindexed, rfl⟩
  · have hrange : offset + length ≤ outputLength s.instructions := by
      rw [← hx.targetLength]
      exact Nat.le_of_not_lt hlt
    obtain ⟨src₁, hr, h₁⟩ := PatchIndex.resolveInto_eq k h.1 hx hend hrange sink
    obtain ⟨src₁', hr', h₁'⟩ := PatchIndex.resolveInto_eq k' h.2 hx hend hrange sink
    rw [hr, hr']
    exact .intro _ ⟨⟨h₁, h₁'⟩, rfl, rfl, hindexed, rfl⟩

variable {m : Merger σ κ} {m' : Merger σ' κ}

/-- The first copy builds the index. -/
theorem addCopy_agree (k : Source.Holding H patch) (k' : Source.Holding H' patch)
    (h : Twins patch H H' m m') (offset length : Nat) :
    Agree (Twins patch H H') (m.addCopy offset length) (m'.addCopy offset length) := by
  rcases m with ⟨first, options, index, sink⟩
  rcases m' with ⟨first', options', index', sink'⟩
  obtain ⟨hs, rfl : options = options', rfl : index = index', hx, rfl : sink = sink'⟩ := h
  cases index with
  | some index =>
    obtain ⟨s, rest, hend, hindexes⟩ := hx index rfl
    exact resolve_agree k k' hs hend hindexes options sink offset length
  | none =>
    have hbuild := PatchIndex.build_agree k k' hs options
    have hindexes : ∀ {index : PatchIndex} {src : σ},
        PatchIndex.build first options = (.ok index, src) →
        ∃ s rest, spellPatch? patch = some s ∧ s.ending = .marker rest ∧ index.Indexes patch s :=
      fun hb => PatchIndex.of_build k hs.1 hb
    simp only [addCopy, Overlap.catchUp_apart]
    generalize PatchIndex.build first options = outcome at hbuild hindexes
    generalize PatchIndex.build first' options = outcome' at hbuild
    cases hbuild with
    | intro answer h₁ =>
      cases answer with
      | error e => exact .intro _ ⟨h₁, rfl, rfl, nofun, rfl⟩
      | ok index =>
        obtain ⟨s, rest, -, hend, hx⟩ := hindexes rfl
        exact resolve_agree k k' h₁ hend hx options sink offset length

omit [Source σ] [Source σ'] [InstructionSink κ] in
theorem onSink_agree (h : Twins patch H H' m m') (act : κ → Except DeltaError Unit × κ) :
    Agree (Twins patch H H') (m.onSink act) (m'.onSink act) := by
  rcases m with ⟨first, options, index, sink⟩
  rcases m' with ⟨first', options', index', sink'⟩
  obtain ⟨hs, rfl : options = options', rfl : index = index', hx, rfl : sink = sink'⟩ := h
  exact .intro _ ⟨hs, rfl, rfl, hx, rfl⟩

/-- Such mergers are in lockstep. -/
theorem lockstep_twins (k : Source.Holding H patch) (k' : Source.Holding H' patch) :
    Lockstep (Twins patch H H' : Merger σ κ → Merger σ' κ → Prop) where
  act h step := by
    cases step with
    | copy offset length => exact addCopy_agree k k' h offset length
    | byte value => exact onSink_agree h (InstructionSink.addByte · value)
    | literal bytes => exact onSink_agree h (InstructionSink.addLiteral · bytes)
    | flush => exact onSink_agree h InstructionSink.flush
  close h := onSink_agree h InstructionSink.close

end Merger

/-! ## Whole patches -/

/-- Whatever is done with a patch and with a source, or a first patch in its place, comes to the
same as with these bytes in memory: every sink is left as it would be, every output gets the same
bytes, and every failure is the same. -/
structure LikeMemory {σ ρ : Type} [Source σ] [ByteReader ρ] (src : σ) (r : ρ)
    (held patch : ByteArray) : Prop where
  convert : ∀ {κ : Type} [InstructionSink κ] (sink : κ),
    convert r sink = convert (⟨patch, 0⟩ : MemoryStream) sink
  apply : ∀ {ω : Type} [ByteOutput ω] (out : ω),
    let fromMemory := apply (⟨held, 0⟩ : MemoryStream) (⟨patch, 0⟩ : MemoryStream) out
    (apply src r out).1 = fromMemory.1 ∧ (apply src r out).2.output = fromMemory.2.output
  merge : ∀ {κ : Type} [InstructionSink κ] (sink : κ) (options : IndexOptions),
    let fromMemory := merge (⟨held, 0⟩ : MemoryStream) (⟨patch, 0⟩ : MemoryStream) sink options
    (merge src r sink options).1 = fromMemory.1 ∧
      (merge src r sink options).2.sink = fromMemory.2.sink

/-- A source and a reader of the bytes do as well as the bytes in memory. -/
theorem likeMemory_of_holds {ρ : Type} [ByteReader ρ] {src : σ} {r : ρ} {held patch : ByteArray}
    (hs : Source.Holds src held.data.toList) (hr : ByteReader.Delivers r patch.data.toList) :
    LikeMemory src r held patch := by
  obtain ⟨H, k, hs⟩ := hs
  have k₀ := MemoryStream.holding_bytes held
  have hr₀ : ByteReader.Delivers (⟨patch, 0⟩ : MemoryStream) patch.data.toList :=
    MemoryStream.delivers ⟨patch, 0⟩
  constructor
  case convert =>
    intro κ _ sink
    have h := lockstep_eq.convert (rfl : sink = sink) hr hr₀
    exact Prod.ext h.answer_eq h.related
  case apply =>
    intro ω _ out
    have htwins : Rebuilder.Twins H (·.bytes = held) ⟨src, out⟩ ⟨(⟨held, 0⟩ : MemoryStream), out⟩ :=
      ⟨⟨hs, rfl⟩, rfl⟩
    have h := (Rebuilder.lockstep_twins k k₀).convert htwins hr hr₀
    exact ⟨h.answer_eq, h.related.output_eq⟩
  case merge =>
    intro κ _ sink options
    have htwins : Merger.Twins held.data.toList H (·.bytes = held) { first := src, options, sink }
        { first := (⟨held, 0⟩ : MemoryStream), options, sink } :=
      ⟨⟨hs, rfl⟩, rfl, rfl, nofun, rfl⟩
    have h := (Merger.lockstep_twins k k₀).convert htwins hr hr₀
    exact ⟨h.answer_eq, h.related.sink_eq⟩

/-- **It does not matter how bytes arrive.** Let a patch be delivered in any pieces, with
interruptions, and let a source, or a first patch in its place, answer every read with some of the
bytes that it holds, or be interrupted. Then applying, converting and merging come to the same as
with the bytes in memory. Such a source is also anything that reads and seeks, over which a position
is remembered, wherever interruptions have left it. -/
theorem delivery_irrelevant {ρ : Type} [ByteReader ρ] {r : ρ} {held patch : ByteArray}
    (hr : ByteReader.Delivers r patch.data.toList) :
    (∀ {σ : Type} [Source σ] {src : σ}, Source.Holds src held.data.toList →
      LikeMemory src r held patch) ∧
    ∀ {ι : Type} [SeekableReader ι] {P : ι → Nat → Prop} {src : SeekingSource ι},
      SeekableReader.Standing P held.data.toList → src.Tracks P held.data.toList →
        LikeMemory src r held patch :=
  ⟨fun hs => likeMemory_of_holds hs hr, fun d hs =>
    likeMemory_of_holds ⟨_, SeekingSource.holding_tracks d, hs⟩ hr⟩

/-- A patch byte by byte and a first patch, or source, three bytes at a time, every other call to
either of them interrupted. The second time nothing is known of where the latter stands, and a seek
of it is interrupted too. -/
theorem delivery_irrelevant_interrupted :
    let held := packBytes (patchOf .normal [.copy 300 7, .literal (packBytes [5, 6])])
    let patch := packBytes (patchOf .differential [.copy 2 5, .literal (packBytes [9, 9]),
      .copy 0 9, .copy 7 4])
    let r : FaultyStream := { bytes := patch, chunk := some 1, interrupts := true }
    let src : FaultyStream := { bytes := held, position := 5, chunk := some 3, interrupts := true }
    let moving : FaultyStream := { src with interruptsSeekTo := some 5 }
    (∃ measured, SeekingSource.ofReader src = .ok measured ∧ LikeMemory measured r held patch) ∧
      LikeMemory (⟨moving, { length := 13 }, none⟩ : SeekingSource FaultyStream) r held patch := by
  intro held patch r src moving
  have hr : ByteReader.Delivers r patch.data.toList :=
    FaultyStream.delivers (p := 0) ⟨rfl, rfl, nofun, rfl, rfl⟩
  have hstanding : src.Standing held 5 := ⟨rfl, rfl, nofun, rfl, rfl⟩
  have hmoving : moving.Standing held 5 := ⟨rfl, rfl, nofun, rfl, rfl⟩
  have d := FaultyStream.standing held
  have hmeasured : SeekingSource.ofReader src = .ok _ := rfl
  have hholds := SeekingSource.holds_of_ofReader d hstanding hmeasured
  exact ⟨⟨_, hmeasured, (delivery_irrelevant hr).1 hholds⟩,
    (delivery_irrelevant hr).2 d ⟨rfl, 5, hmoving, nofun⟩⟩

end BinaryDelta
