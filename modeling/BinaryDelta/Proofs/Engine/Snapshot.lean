import BinaryDelta.Proofs.BlockTable.Built
import BinaryDelta.Proofs.Engine.Answers
import BinaryDelta.Proofs.Engine.Retained
import BinaryDelta.Proofs.Stream.Taking

/-!
# Loaded tables

A stored table can be loaded by another engine, which then has no need to scan the source. Whether a
table has been built is not stored, and what is loaded counts as built. A kept table that a change
of the chunk size has emptied is thus built again by the engine that kept it, and is used as it is,
empty, by an engine that has loaded it.

Results:
* `Engine.exists_readChecksums`: what an engine in use has stored can be loaded, and gives a table
  that answers alike.
* `Engine.emitsAlike_loaded_iff`: such a table is as good as the kept one if and only if that was
  built or the source is shorter than a block.
* **`Engine.loaded_emitsAlike_iff`**: the engine that has loaded a table makes the calls of the one
  that has stored it if and only if that table was built or the source is shorter than a block.
-/

namespace BinaryDelta

namespace Engine

variable {bytes : List UInt8} {e : Engine} {t t' : BlockTable}

theorem Fits.blockSize_eq {blockSize : Nat} {duplicate : Bool}
    (h : Fits bytes blockSize duplicate t) : t.blockSize = blockSize := by
  obtain ⟨_, hclear⟩ := h.clear_eq
  exact BlockTable.blockSize_of_clear hclear

theorem Fits.isDuplicate_eq {blockSize : Nat} {duplicate : Bool}
    (h : Fits bytes blockSize duplicate t) : t.isDuplicate = duplicate := by
  obtain ⟨_, hclear⟩ := h.clear_eq
  exact BlockTable.isDuplicate_of_clear hclear

theorem Fits.storable {blockSize : Nat} {duplicate : Bool} (h : Fits bytes blockSize duplicate t)
    (hb : blockSize < 0x80000000) (hl : bytes.length / blockSize < 0x100000000) : t.Storable := by
  cases h with
  | empty _ => exact BlockTable.storable_empty hb
  | full _ => exact BlockTable.storable_ofBytes hb hl

/-- What an engine in use has stored can be loaded, and gives its options and a table that answers
alike. -/
theorem exists_readChecksums (h : Current bytes e) (ht : e.table = some t)
    (hl : bytes.length / e.options.chunkSize < 0x100000000) {ρ : Type} [ByteReader ρ] {r : ρ}
    (hr : ByteReader.Delivers r t.stored) {fresh : Engine}
    (ha : fresh.options.autocode = e.options.autocode)
    (hh : fresh.options.acceptHash = e.options.acceptHash)
    (hm : fresh.options.maxProbes = e.options.maxProbes) :
    ∃ t' r', fresh.readChecksums r = (.ok ⟨e.options, some t'⟩, r') ∧ t.Alike t' ∧
      t'.built = true := by
  obtain ⟨R, d, hr⟩ := hr
  have hfits := h.fits t ht
  have hsmall : longestMatch < 0x80000000 := by decide
  have hstorable := hfits.storable
    (Nat.lt_of_le_of_lt (EngineOptions.chunkSize_le h.problem) hsmall) hl
  obtain ⟨t', r', hread, halike, hbuilt⟩ := BlockTable.exists_readSnapshot d hstorable hr
  have hsize : t'.blockSize = e.options.chunkSize :=
    halike.blockSize_eq.trans hfits.blockSize_eq
  have hdup : t'.isDuplicate = e.options.duplicate :=
    halike.isDuplicate_eq.trans hfits.isDuplicate_eq
  have hkeeps : e.options.keepSource = true := h.keeps t ht
  refine ⟨t', r', ?_, halike, hbuilt⟩
  have hproblem := (EngineOptions.problem?_eq_none_iff.mp h.problem).1
  rw [readChecksums, load, hread]
  simp only [hsize, hproblem, hdup, ha, hh, hm, ← hkeeps]

/-- A built table that fits the options is used as it is. -/
theorem prepares_of_built {options : EngineOptions} (hk : options.keepSource = true)
    (hb : t.blockSize = options.chunkSize) (hd : t.isDuplicate = options.duplicate)
    (hbuilt : t.built = true) : Prepares bytes ⟨options, some t⟩ t := by
  have hfit : fittingTable? ⟨options, some t⟩ = some t := by
    simp [fittingTable?, hk, hb, hd]
  exact ⟨fun _ h => ⟨_, prepareTable_of_built hfit hbuilt _, h⟩⟩

/-- The plan over the table of a source can be carried out. -/
theorem goesOn_ofBytes {o : EngineOptions} (ho : o.problem? = none) (hpos : 0 < o.chunkSize)
    (source target : List UInt8) :
    ∀ step ∈ Search.plan { table := .ofBytes source o.chunkSize o.duplicate hpos, options := o }
        source target none none 0,
      Search.GoesOn 0 source.length step := by
  refine Greedy.goesOn_plan_of_lists (EngineOptions.problem?_eq_none_iff.mp ho).2
    (fun {hash offset} hl => ?_) target
  have hsize : (BlockTable.ofBytes source o.chunkSize o.duplicate hpos).blockSize = o.chunkSize :=
    BlockTable.blockSize_of_clear (BlockTable.clear_ofBytes source)
  have he : (BlockTable.ofBytes source o.chunkSize o.duplicate hpos).Enumerates source
      (source.length / (BlockTable.ofBytes source o.chunkSize o.duplicate hpos).blockSize) := by
    rw [hsize]
    exact BlockTable.enumerates_ofBytes source
  exact (he.lists_iff.mp hl).complete

/-- The copies that an engine makes are those of the reference over its table. -/
theorem Prepares.copies_eq (hp : Prepares bytes e t) (he : e.options.problem? = none) {σ ρ : Type}
    [Source σ] [ByteReader ρ] {source : σ} {r : ρ} {target : List UInt8}
    (hs : Source.Holds source bytes) (hr : ByteReader.Delivers r target)
    (hgoes : ∀ step ∈ Search.plan { table := t, options := e.options } bytes target none none 0,
      Search.GoesOn 0 bytes.length step) :
    copies (e.compute source r ({} : Collector)).sink.instructions.toList =
      copies (Greedy.encode { table := t, options := e.options } bytes target) := by
  obtain ⟨H, k, hs⟩ := hs
  obtain ⟨source', hprep, hs'⟩ := hp.prepareTable_eq k hs
  rw [(compute_of_goesOn k hr he hprep hs' hgoes).2]
  exact Collector.copies_addAll {} _

theorem eq_of_ofOptions {options : EngineOptions} (h : ofOptions options = .ok e) :
    e = { options } := by
  unfold ofOptions at h
  split at h
  · cases h
  · cases h
    rfl

/-- What is stored is the snapshot of the kept table. -/
theorem exists_of_writeChecksums {ω : Type} [ByteOutput ω] {out out' : ω}
    (h : e.writeChecksums out = (.ok (), out')) :
    ∃ t, e.table = some t ∧ ByteOutput.write out t.snapshot = (.ok (), out') := by
  unfold writeChecksums at h
  split at h
  · cases (Prod.mk.inj h).1
  · rename_i t ht
    refine ⟨t, ht, ?_⟩
    unfold BlockTable.writeSnapshot at h
    split at h
    · cases (Prod.mk.inj h).1
    · rename_i hout
      cases h
      exact hout

/-- An engine that makes copies over the table of a source does not emit alike with one that makes
none. -/
theorem not_emitsAlike {e' : Engine} (ho : e'.options = e.options)
    (he : e.options.problem? = none) {hpos : 0 < e.options.chunkSize}
    (hp : Prepares bytes e (.ofBytes bytes e.options.chunkSize e.options.duplicate hpos))
    (hp' : Prepares bytes e' t') {target : List UInt8}
    (hc : copies (Greedy.encode
        ⟨.ofBytes bytes e.options.chunkSize e.options.duplicate hpos, e.options, 0, 0⟩
        bytes target) ≠ [])
    (hc' : copies (Greedy.encode { table := t', options := e.options } bytes target) = []) :
    ¬ EmitsAlike bytes e e' := by
  intro halike
  have hs : Source.Holds (⟨packBytes bytes, 0⟩ : MemoryStream) bytes := MemoryStream.holds _
  have hr : ByteReader.Delivers (⟨packBytes target, 0⟩ : MemoryStream) target :=
    MemoryStream.delivers _
  have hprobes : e.options.maxProbes ≠ 0 := (EngineOptions.problem?_eq_none_iff.mp he).2
  have hcopies := hp.copies_eq he hs hr (goesOn_ofBytes he hpos bytes target)
  have hgoes : ∀ step ∈ Search.plan ⟨t', e'.options, 0, 0⟩ bytes target none none 0,
      Search.GoesOn 0 bytes.length step := by
    refine Greedy.goesOn_of_countable ?_
    rw [ho, Greedy.instructions_plan hprobes bytes target Option.getD_none]
    intro copy hm
    rw [Greedy.encode] at hc'
    rw [hc'] at hm
    cases hm
  have hcopies' := hp'.copies_eq (ho ▸ he) hs hr hgoes
  rw [← (halike.compute_eq hs hs hr hr ({} : Collector)).2, ho, hc'] at hcopies'
  exact hc (hcopies.symm.trans hcopies')

/-- An engine with a table that answers like the kept one, and that counts as built, makes the same
calls if and only if the kept one is built or the source has no block. -/
theorem emitsAlike_loaded_iff (h : Current bytes e) (ht : e.table = some t) (ha : t.Alike t')
    (hbuilt : t'.built = true) : EmitsAlike bytes e ⟨e.options, some t'⟩ ↔
      t.built = true ∨ bytes.length < e.options.chunkSize := by
  have hfits := h.fits t ht
  obtain ⟨hpos, hprep⟩ := h.prepares
  have hprep' : Prepares bytes ⟨e.options, some t'⟩ t' :=
    prepares_of_built (h.keeps t ht) (ha.blockSize_eq.trans hfits.blockSize_eq)
      (ha.isDuplicate_eq.trans hfits.isDuplicate_eq) hbuilt
  have hsame : BlockTable.Alike (.ofBytes bytes e.options.chunkSize e.options.duplicate hpos) t' →
      EmitsAlike bytes e ⟨e.options, some t'⟩ := by
    intro halike
    refine emitsAlike_of_plan rfl h.problem hprep hprep' ?_
    intro target
    have hsearch : Search.Alike ⟨.ofBytes bytes _ _ hpos, e.options, 0, 0⟩ ⟨t', e.options, 0, 0⟩ :=
      ⟨halike, rfl, rfl, rfl⟩
    exact hsearch.plan_eq bytes target none none 0
  cases hfits with
  | full _ => exact iff_of_true (hsame ha) (.inl rfl)
  | empty _ =>
    by_cases hl : bytes.length < e.options.chunkSize
    · refine iff_of_true (hsame ?_) (.inr hl)
      rw [BlockTable.ofBytes_of_lt hl]
      exact ha.of_finish bytes.length
    · obtain ⟨target, hcopies⟩ :=
        Greedy.exists_copies_ofBytes h.problem hpos (Nat.le_of_not_lt hl)
      have hnone : ∀ hash, t'.candidates hash = #[] := by
        intro hash
        rw [ha.candidates_eq, BlockTable.candidates_empty]
      refine iff_of_false (not_emitsAlike rfl h.problem hprep hprep' hcopies ?_) ?_
      · exact Greedy.copies_encodeFrom_of_empty hnone bytes target 0
      · rintro (hb | hlt)
        · cases hb
        · exact hl hlt

/-- **A stored table is as good as the kept one, if that was built.** An engine with the same
settings that loads what an engine in use has stored makes the same calls for every target if and
only if the stored table was built or the source has no block. -/
theorem loaded_emitsAlike_iff (he : UsedOver bytes e)
    (hl : bytes.length / e.options.chunkSize < 0x100000000) {ω : Type} [ByteOutput ω]
    {R : ω → List UInt8 → Prop} (k : ByteOutput.Recording R) {out out' : ω} (ho : R out [])
    (hw : e.writeChecksums out = (.ok (), out')) :
    ∃ stored, R out' stored ∧
      ∀ {ρ : Type} [ByteReader ρ] {r : ρ}, ByteReader.Delivers r stored →
      ∀ {options : EngineOptions} {fresh : Engine}, ofOptions options = .ok fresh →
        options.autocode = e.options.autocode → options.acceptHash = e.options.acceptHash →
        options.maxProbes = e.options.maxProbes →
        ∃ loaded r', fresh.readChecksums r = (.ok loaded, r') ∧
          (EmitsAlike bytes e loaded ↔
            (∀ t ∈ e.table, t.built = true) ∨ bytes.length < e.options.chunkSize) := by
  have hcurrent := he.current
  obtain ⟨t, ht, hwritten⟩ := exists_of_writeChecksums hw
  refine ⟨t.stored, ?_, ?_⟩
  · have hout := k.write ho hwritten
    rwa [List.nil_append, BlockTable.toList_snapshot] at hout
  · intro ρ _ r hr options fresh hfresh ha hh hm
    have hoptions : fresh.options = options := by rw [eq_of_ofOptions hfresh]
    obtain ⟨t', r', hread, halike, hbuilt⟩ := exists_readChecksums hcurrent ht hl hr
      (hoptions ▸ ha) (hoptions ▸ hh) (hoptions ▸ hm)
    have hiff := emitsAlike_loaded_iff hcurrent ht halike hbuilt
    refine ⟨_, r', hread, ?_⟩
    rw [hiff, ht]
    simp

/-- An engine that compares its matches has the table of the source after a computation. -/
theorem UsedOver.table_of_compared (h : UsedOver bytes e) (hk : e.options.keepSource = true)
    (ha : e.options.acceptHash = false) {σ ρ : Type} [Source σ] [ByteReader ρ] {source : σ} {r : ρ}
    {target : List UInt8} (hs : Source.Holds source bytes) (hr : ByteReader.Delivers r target) :
    ∃ hpos, (e.computeSegment source r ({} : Collector) 0 0).engine.table =
      some (.ofBytes bytes e.options.chunkSize e.options.duplicate hpos) := by
  obtain ⟨_, -, hfeed⟩ :=
    exists_computeSegment (κ := Collector) hs hr h.current.problem ha 0 0
  have hresult := (hfeed {}).1
  rw [Collector.feed_collector] at hresult
  exact h.current.table_computeSegment hk hs hresult

/-- A table that was built, stored in memory and loaded from there. -/
theorem loaded_emitsAlike_iff_built :
    let data : MemoryStream := ⟨packBytes [1, 2, 3, 4, 5, 6, 7, 8], 0⟩
    let new : Engine := { options := { chunkSize := 2, keepSource := true } }
    let e := (new.computeSegment data data ({} : Collector) 0 0).engine
    ∃ (stored : ByteArray) (loaded : Engine) (r' : MemoryStream),
      e.writeChecksums ByteArray.empty = (.ok (), stored) ∧
        new.readChecksums (⟨stored, 0⟩ : MemoryStream) = (.ok loaded, r') ∧
        EmitsAlike data.bytes.data.toList e loaded := by
  intro data new e
  have hnew : ofOptions new.options = .ok new := rfl
  have hoptions : e.options = new.options := options_computeSegment new data data _ 0 0
  have hused : UsedOver data.bytes.data.toList e :=
    .computeSegment (.new hnew) ⟨_, (MemoryStream.holding_bytes data.bytes).serving, rfl⟩ data _ 0 0
  obtain ⟨hpos, ht⟩ := (UsedOver.new hnew).table_of_compared rfl rfl (MemoryStream.holds data)
    (MemoryStream.delivers data)
  have hw : e.writeChecksums ByteArray.empty = (.ok (), ByteArray.empty ++
      (BlockTable.ofBytes data.bytes.data.toList 2 false hpos).snapshot) := by
    rw [writeChecksums, ht]
    rfl
  obtain ⟨stored, hstored, hload⟩ := loaded_emitsAlike_iff hused (by rw [hoptions]; decide)
    ByteOutput.recording_byteArray rfl hw
  subst hstored
  obtain ⟨loaded, r', hread, hiff⟩ := hload (MemoryStream.delivers ⟨_, 0⟩) hnew
    (by rw [hoptions]) (by rw [hoptions]) (by rw [hoptions])
  refine ⟨_, loaded, r', hw, hread, hiff.mpr (.inl ?_)⟩
  intro t hmem
  rw [ht] at hmem
  cases hmem
  rfl

/-- A table that was emptied by another chunk size, stored in memory and loaded from there. -/
theorem not_emitsAlike_emptied :
    let data : MemoryStream := ⟨packBytes [1, 2, 3, 4, 5, 6, 7, 8], 0⟩
    let new : Engine := { options := { chunkSize := 2, keepSource := true } }
    let used := (new.computeSegment data data ({} : Collector) 0 0).engine
    let other : Engine := { options := { chunkSize := 4, keepSource := true } }
    ∃ (e : Engine) (stored : ByteArray) (loaded : Engine) (r' : MemoryStream),
      used.setChunkSize 4 = .ok e ∧ e.writeChecksums ByteArray.empty = (.ok (), stored) ∧
        other.readChecksums (⟨stored, 0⟩ : MemoryStream) = (.ok loaded, r') ∧
        ¬ EmitsAlike data.bytes.data.toList e loaded := by
  intro data new used other
  have hnew : ofOptions new.options = .ok new := rfl
  have hused : UsedOver data.bytes.data.toList used :=
    .computeSegment (.new hnew) ⟨_, (MemoryStream.holding_bytes data.bytes).serving, rfl⟩ data _ 0 0
  obtain ⟨_, ht⟩ := (UsedOver.new hnew).table_of_compared rfl rfl (MemoryStream.holds data)
    (MemoryStream.delivers data)
  have hoptions : used.options = new.options := options_computeSegment new data data _ 0 0
  have hfour : chunkSizeProblem? 4 = none := rfl
  obtain ⟨hpos, he⟩ := hused.current.setChunkSize_eq hfour (by rw [hoptions]; decide)
  rw [ht, hoptions] at he
  have hcurrent := (hused.chunkSize he).current
  have hblocks : 8 / 4 < 0x100000000 := by decide
  have hdelivers : ByteReader.Delivers
      (⟨(BlockTable.empty 4 false hpos).snapshot, 0⟩ : MemoryStream)
      (BlockTable.empty 4 false hpos).stored := by
    rw [← BlockTable.toList_snapshot]
    exact MemoryStream.delivers _
  have hautocode : other.options.autocode = false := rfl
  obtain ⟨t', r', hread, halike, hbuilt⟩ :=
    exists_readChecksums hcurrent rfl hblocks hdelivers hautocode rfl rfl
  refine ⟨_, (BlockTable.empty 4 false hpos).snapshot, _, r', he, ?_, hread, ?_⟩
  · show BlockTable.writeSnapshot (.empty 4 false hpos) ByteArray.empty = _
    simp [BlockTable.writeSnapshot]
  · rw [emitsAlike_loaded_iff hcurrent rfl halike hbuilt]
    rintro (hb | hshort)
    · cases hb
    · have hlong : ¬ 8 < 4 := by decide
      exact hlong hshort

end Engine

end BinaryDelta
