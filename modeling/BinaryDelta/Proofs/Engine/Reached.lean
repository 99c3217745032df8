import BinaryDelta.Engine.Basic

/-!
# Engines in use

What the single operations do to the options of an engine and to its table. Every operation either
fails or leaves the options in range.

Results:
* `Engine.resize_cases`: a new chunk size is refused, or options and table are changed to it.
* `Engine.of_fittingTable?`: a kept table is used only if it suits the options.
* `Engine.engine_computeSegment`: a computation leaves the options alone, and keeps the table that
  it used or none.
* `Engine.engine_compute`: closing the sink changes nothing about the engine.
-/

namespace BinaryDelta

theorem EngineOptions.problem?_eq_none_iff {options : EngineOptions} :
    options.problem? = none ↔
      chunkSizeProblem? options.chunkSize = none ∧ options.maxProbes ≠ 0 := by
  unfold problem?
  cases chunkSizeProblem? options.chunkSize with
  | some problem => simp
  | none => simp

theorem chunkSizeProblem?_eq_none_iff {size : Nat} :
    chunkSizeProblem? size = none ↔ 0 < size ∧ size ≤ longestMatch := by
  unfold chunkSizeProblem?
  split
  · rename_i h
    exact ⟨fun _ => h, fun _ => rfl⟩
  · rename_i h
    exact ⟨nofun, fun h' => absurd h' h⟩

theorem EngineOptions.chunkSize_pos {options : EngineOptions} (h : options.problem? = none) :
    0 < options.chunkSize :=
  (chunkSizeProblem?_eq_none_iff.mp (problem?_eq_none_iff.mp h).1).1

theorem EngineOptions.chunkSize_le {options : EngineOptions} (h : options.problem? = none) :
    options.chunkSize ≤ longestMatch :=
  (chunkSizeProblem?_eq_none_iff.mp (problem?_eq_none_iff.mp h).1).2

namespace BlockTable

/-- The table is made for blocks of this size, and for one checksum or two. -/
structure Suits (t : BlockTable) (blockSize : Nat) (duplicate : Bool) : Prop where
  blockSize_eq : t.blockSize = blockSize
  isDuplicate_eq : t.isDuplicate = duplicate

theorem isDuplicate_clear (t : BlockTable) : t.clear.isDuplicate = t.isDuplicate :=
  Option.isSome_map

/-- A positive block size can be set, and leaves the number of checksums. -/
theorem exists_setBlockSize (t : BlockTable) {size : Nat} (hpos : 0 < size) :
    ∃ t', t.setBlockSize size = .ok t' ∧ t'.Suits size t.isDuplicate := by
  rw [setBlockSize, dif_pos hpos]
  split
  · rename_i heq
    exact ⟨t, rfl, heq.symm, rfl⟩
  · exact ⟨_, rfl, rfl, t.isDuplicate_clear⟩

end BlockTable

namespace Engine

theorem problem?_of_ofOptions {options : EngineOptions} {e : Engine}
    (h : ofOptions options = .ok e) : e.options.problem? = none := by
  unfold ofOptions at h
  split at h
  · cases h
  · rename_i hp
    cases h
    exact hp

/-- A chunk size is refused, and then nothing changes, or options and table are changed to it. A
table in which nothing had to be changed is the one that was kept. -/
theorem resize_cases (e : Engine) (size : Nat) :
    (∃ problem, chunkSizeProblem? size = some problem ∧
      e.resize size = (.error (.invalidConfig problem), e)) ∨
    (chunkSizeProblem? size = none ∧ ∃ table : Option BlockTable,
      e.resize size = (.ok (), ⟨{ e.options with chunkSize := size }, table⟩) ∧
      ∀ t, table = some t → ∃ kept, e.table = some kept ∧
        (size = e.options.chunkSize ∧ t = kept ∨ t.Suits size kept.isDuplicate)) := by
  unfold resize
  cases hsize : chunkSizeProblem? size with
  | some problem => exact .inl ⟨problem, rfl, rfl⟩
  | none =>
    refine .inr ⟨rfl, ?_⟩
    by_cases hsame : size = e.options.chunkSize
    · subst hsame
      exact ⟨e.table, if_pos rfl, fun t ht => ⟨t, ht, .inl ⟨rfl, rfl⟩⟩⟩
    · simp only [if_neg hsame]
      cases htable : e.table with
      | none => exact ⟨none, rfl, nofun⟩
      | some kept =>
        have hpos : 0 < size := (chunkSizeProblem?_eq_none_iff.mp hsize).1
        obtain ⟨t, ht, hsuits⟩ := kept.exists_setBlockSize hpos
        simp only [ht]
        refine ⟨some t, rfl, ?_⟩
        rintro _ ⟨⟩
        exact ⟨kept, rfl, .inr hsuits⟩

/-- The chunk size of an engine comes to be changed without a failure. -/
theorem resize_of_setChunkSize {e e' : Engine} {size : Nat} (h : e.setChunkSize size = .ok e') :
    e.resize size = (.ok (), e') := by
  unfold setChunkSize at h
  split at h
  · cases h
  · rename_i hr
    cases h
    exact hr

theorem problem?_of_setChunkSize {e e' : Engine} {size : Nat} (he : e.options.problem? = none)
    (h : e.setChunkSize size = .ok e') : e'.options.problem? = none := by
  obtain ⟨-, hprobes⟩ := EngineOptions.problem?_eq_none_iff.mp he
  have h := resize_of_setChunkSize h
  rcases e.resize_cases size with ⟨problem, -, heq⟩ | ⟨hsize, table, heq, -⟩
  · rw [heq] at h
    cases h
  · rw [heq] at h
    cases h
    exact EngineOptions.problem?_eq_none_iff.mpr ⟨hsize, hprobes⟩

/-- A kept table is used only if it suits the options. -/
theorem of_fittingTable? {e : Engine} {t : BlockTable} (h : e.fittingTable? = some t) :
    e.table = some t ∧ t.Suits e.options.chunkSize e.options.duplicate := by
  unfold fittingTable? at h
  split at h
  · obtain ⟨hmem, hfit⟩ := Option.filter_eq_some_iff.mp h
    obtain ⟨hblock, hduplicate⟩ := Bool.and_eq_true_iff.mp hfit
    exact ⟨hmem, eq_of_beq hblock, eq_of_beq hduplicate⟩
  · cases h

section Compute

variable {σ ρ κ : Type} [Source σ] [ByteReader ρ] [InstructionSink κ] [Overlap σ κ] (e : Engine)
  (source : σ) (target : ρ) (sink : κ)

/-- A computation leaves the engine alone if its options are out of range. Else it leaves the
options alone, and the engine keeps the table that was used, if it is to keep one, or none. -/
theorem engine_computeSegment (sourceOffset targetOffset : Nat) :
    let after := (e.computeSegment source target sink sourceOffset targetOffset).engine
    after = e ∨ after = e.clearSource ∨
      ∃ t source', e.prepareTable source = (.ok t, source') ∧
        after = ⟨e.options, if e.options.keepSource then some t else none⟩ := by
  unfold computeSegment
  split
  · exact .inl rfl
  · split
    · exact .inr (.inl rfl)
    · rename_i t source' hp
      simp only
      split
      · rename_i problem _ _ _ _
        cases problem.isOverflow with
        | true => exact .inr (.inl rfl)
        | false => exact .inr (.inr ⟨t, source', hp, rfl⟩)
      · split
        · exact .inr (.inr ⟨t, source', hp, rfl⟩)
        · exact .inr (.inr ⟨t, source', hp, rfl⟩)

theorem options_computeSegment (sourceOffset targetOffset : Nat) :
    (e.computeSegment source target sink sourceOffset targetOffset).engine.options = e.options := by
  rcases e.engine_computeSegment source target sink sourceOffset targetOffset with
    heq | heq | ⟨t, source', -, heq⟩
  · rw [heq]
  · rw [heq]
    rfl
  · rw [heq]

/-- Closing the sink changes nothing about the engine. -/
theorem engine_compute :
    (e.compute source target sink).engine = (e.computeSegment source target sink 0 0).engine := by
  unfold compute
  split
  · rename_i heq
    rw [heq]
  · rename_i heq
    rw [heq]
    split
    · rfl
    · rfl

end Compute

end Engine

end BinaryDelta
