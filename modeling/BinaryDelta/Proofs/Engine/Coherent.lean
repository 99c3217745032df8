import BinaryDelta.Proofs.BlockTable.Built
import BinaryDelta.Sink.CallLog

/-!
# Options and table agree

The options of an engine say for which block size and how many checksums its table is made, and
whether it may be kept at all. Several calls change one side of this or both: the settings, a loaded
table, and a computation, which takes the table out and puts one back only if it comes that far. A
call that forgot the other side would leave a table that is looked up with hashes of other blocks.

* `Engine.Call` is one call to an engine, whatever comes of it. Sources, targets, sinks and stored
  tables are arbitrary, so a call may fail at any point.
* `Engine.InUse` holds of the engines that new ones become by calls.
* `Engine.Coherent` is the invariant: the options are in range, and a kept table is one that they
  ask for.

Results:
* `suits_of_prepareTable`: a computation comes to use a table that the options ask for.
* `Coherent.call`: each call keeps the invariant.
* **`inUse_coherent`**: an engine in use is coherent, and a new chunk size or a stored table that is
  refused leaves it as it was.
-/

namespace BinaryDelta

namespace BlockTable

/-- A scan changes neither the block size nor the number of checksums. -/
theorem suits_of_build {σ : Type} [Source σ] {t t' : BlockTable} {source source' : σ}
    {answer : Except DeltaError Unit} (h : t.build source = (answer, t', source')) :
    t'.Suits t.blockSize t.isDuplicate := by
  have hclear := clear_of_build h
  have hblock : t'.clear.blockSize = t.clear.blockSize := congrArg _ hclear
  refine ⟨hblock, ?_⟩
  rw [← t'.isDuplicate_clear, hclear, isDuplicate_clear]

end BlockTable

namespace Engine

/-! ## Calls -/

/-- One call to an engine, whatever comes of it. -/
inductive Call : Engine → Engine → Prop where
  | resize (e : Engine) (size : Nat) : Call e (e.resize size).2
  | keepSource (e : Engine) (keepSource : Bool) : Call e (e.setKeepSource keepSource)
  | autocode (e : Engine) (autocode : Bool) : Call e (e.setAutocode autocode)
  | acceptHash (e : Engine) (acceptHash : Bool) : Call e (e.setAcceptHash acceptHash)
  | duplicate (e : Engine) (duplicate : Bool) : Call e (e.setDuplicate duplicate)
  | clearSource (e : Engine) : Call e e.clearSource
  | load {ρ : Type} [ByteReader ρ] (e : Engine) (r : ρ) : Call e (e.load r).2.1
  | computeSegment {σ ρ κ : Type} [Source σ] [ByteReader ρ] [InstructionSink κ] [Overlap σ κ]
      (e : Engine) (source : σ) (target : ρ) (sink : κ) (sourceOffset targetOffset : Nat) :
      Call e (e.computeSegment source target sink sourceOffset targetOffset).engine
  | compute {σ ρ κ : Type} [Source σ] [ByteReader ρ] [InstructionSink κ] [Overlap σ κ]
      (e : Engine) (source : σ) (target : ρ) (sink : κ) :
      Call e (e.compute source target sink).engine

/-- What new engines become by calls. -/
inductive InUse : Engine → Prop where
  | new : InUse {}
  | ofOptions {options : EngineOptions} {e : Engine} (h : ofOptions options = .ok e) : InUse e
  | call {e e' : Engine} (h : Call e e') : InUse e → InUse e'

/-! ## The invariant -/

/-- The options are in range, and a kept table is one that they ask for. -/
structure Coherent (e : Engine) : Prop where
  chunkSize_pos : 0 < e.options.chunkSize
  chunkSize_le : e.options.chunkSize ≤ longestMatch
  maxProbes_pos : 0 < e.options.maxProbes
  keeps : ∀ t ∈ e.table, e.options.keepSource = true
  suits : ∀ t ∈ e.table, t.Suits e.options.chunkSize e.options.duplicate

variable {e e' : Engine}

theorem coherent_of_table (h : e.options.problem? = none)
    (ht : ∀ t ∈ e.table, e.options.keepSource = true ∧
      t.Suits e.options.chunkSize e.options.duplicate) : Coherent e where
  chunkSize_pos := EngineOptions.chunkSize_pos h
  chunkSize_le := EngineOptions.chunkSize_le h
  maxProbes_pos := Nat.pos_of_ne_zero (EngineOptions.problem?_eq_none_iff.mp h).2
  keeps t hmem := (ht t hmem).1
  suits t hmem := (ht t hmem).2

theorem coherent_of_none (h : e.options.problem? = none) (ht : e.table = none) : Coherent e :=
  coherent_of_table h fun _ hmem => by rw [ht] at hmem; cases hmem

theorem Coherent.problem?_eq_none (h : Coherent e) : e.options.problem? = none :=
  EngineOptions.problem?_eq_none_iff.mpr
    ⟨chunkSizeProblem?_eq_none_iff.mpr ⟨h.chunkSize_pos, h.chunkSize_le⟩,
      Nat.ne_of_gt h.maxProbes_pos⟩

/-! ## Settings -/

theorem Coherent.resize (h : Coherent e) (size : Nat) : Coherent (e.resize size).2 := by
  rcases e.resize_cases size with ⟨problem, -, heq⟩ | ⟨hsize, table, heq, htable⟩
  · rw [heq]
    exact h
  · rw [heq]
    have hprobes := (EngineOptions.problem?_eq_none_iff.mp h.problem?_eq_none).2
    refine coherent_of_table (EngineOptions.problem?_eq_none_iff.mpr ⟨hsize, hprobes⟩) ?_
    intro t ht
    obtain ⟨kept, hkept, hnew⟩ := htable t ht
    obtain ⟨hblock, hduplicate⟩ := h.suits kept hkept
    refine ⟨h.keeps kept hkept, ?_⟩
    rcases hnew with ⟨hsame, rfl⟩ | hsuits
    · exact ⟨hblock.trans hsame.symm, hduplicate⟩
    · exact ⟨hsuits.blockSize_eq, hsuits.isDuplicate_eq.trans hduplicate⟩

theorem Coherent.setKeepSource (h : Coherent e) (keepSource : Bool) :
    Coherent (e.setKeepSource keepSource) := by
  cases keepSource with
  | false => exact coherent_of_none h.problem?_eq_none rfl
  | true => exact coherent_of_table h.problem?_eq_none fun t ht => ⟨rfl, h.suits t ht⟩

theorem Coherent.setDuplicate (h : Coherent e) (duplicate : Bool) :
    Coherent (e.setDuplicate duplicate) := by
  unfold Engine.setDuplicate
  split
  · exact h
  · exact coherent_of_none h.problem?_eq_none rfl

/-! ## Loading -/

/-- A stored table that is refused changes nothing. -/
theorem load_of_error {ρ : Type} [ByteReader ρ] {e : Engine} {r : ρ} {problem : DeltaError}
    (h : (e.load r).1 = .error problem) : (e.load r).2.1 = e := by
  unfold load at h ⊢
  split
  · rfl
  · split
    · rfl
    · rename_i hread _ hsize
      rw [hread] at h
      simp only [hsize] at h
      cases h

theorem Coherent.load {ρ : Type} [ByteReader ρ] (h : Coherent e) (r : ρ) :
    Coherent (e.load r).2.1 := by
  unfold Engine.load
  split
  · exact h
  · split
    · exact h
    · rename_i t _ _ hsize
      have hprobes := (EngineOptions.problem?_eq_none_iff.mp h.problem?_eq_none).2
      refine coherent_of_table (EngineOptions.problem?_eq_none_iff.mpr ⟨hsize, hprobes⟩) ?_
      rintro _ ⟨⟩
      exact ⟨rfl, rfl, rfl⟩

/-! ## Computing -/

/-- A computation comes to use a table that suits the options, whatever the source. -/
theorem suits_of_prepareTable {σ : Type} [Source σ] {source source' : σ} {t : BlockTable}
    (h : e.prepareTable source = (.ok t, source')) :
    t.Suits e.options.chunkSize e.options.duplicate := by
  unfold prepareTable at h
  simp only at h
  split at h
  · cases h
  · rename_i t₀ hstart
    -- kept or new, the table to begin with suits the options, and a scan leaves it that way
    have hsuits : t₀.Suits e.options.chunkSize e.options.duplicate := by
      split at hstart
      · rename_i hfits
        cases hstart
        exact (of_fittingTable? hfits).2
      · unfold BlockTable.ofBlockSize at hstart
        split at hstart
        · cases hstart
          exact ⟨rfl, BlockTable.isDuplicate_of_clear BlockTable.clear_empty⟩
        · cases hstart
    split at h
    · cases h
      exact hsuits
    · split at h
      · cases h
      · rename_i hbuild
        cases h
        have hkept := BlockTable.suits_of_build hbuild
        exact ⟨hkept.blockSize_eq.trans hsuits.blockSize_eq,
          hkept.isDuplicate_eq.trans hsuits.isDuplicate_eq⟩

theorem Coherent.computeSegment {σ ρ κ : Type} [Source σ] [ByteReader ρ] [InstructionSink κ]
    [Overlap σ κ] (h : Coherent e) (source : σ) (target : ρ) (sink : κ)
    (sourceOffset targetOffset : Nat) :
    Coherent (e.computeSegment source target sink sourceOffset targetOffset).engine := by
  rcases e.engine_computeSegment source target sink sourceOffset targetOffset with
    heq | heq | ⟨t, source', hp, heq⟩
  · rw [heq]
    exact h
  · rw [heq]
    exact coherent_of_none h.problem?_eq_none rfl
  · rw [heq]
    refine coherent_of_table h.problem?_eq_none fun kept hkept => ?_
    cases hkeeps : e.options.keepSource with
    | false =>
      rw [hkeeps] at hkept
      cases hkept
    | true =>
      rw [hkeeps] at hkept
      cases hkept
      exact ⟨rfl, suits_of_prepareTable (e := e) hp⟩

/-! ## Engines in use -/

/-- Each call keeps the invariant. -/
theorem Coherent.call (h : Coherent e) (hc : Call e e') : Coherent e' := by
  cases hc with
  | resize _ size => exact h.resize size
  | keepSource _ keepSource => exact h.setKeepSource keepSource
  | autocode _ autocode =>
    exact ⟨h.chunkSize_pos, h.chunkSize_le, h.maxProbes_pos, h.keeps, h.suits⟩
  | acceptHash _ acceptHash =>
    exact ⟨h.chunkSize_pos, h.chunkSize_le, h.maxProbes_pos, h.keeps, h.suits⟩
  | duplicate _ duplicate => exact h.setDuplicate duplicate
  | clearSource => exact coherent_of_none h.problem?_eq_none rfl
  | load _ r => exact h.load r
  | computeSegment _ source target sink sourceOffset targetOffset =>
    exact h.computeSegment source target sink sourceOffset targetOffset
  | compute _ source target sink =>
    rw [engine_compute]
    exact h.computeSegment source target sink 0 0

theorem coherent_of_ofOptions {options : EngineOptions} (h : Engine.ofOptions options = .ok e) :
    Coherent e := by
  have hproblem := problem?_of_ofOptions h
  unfold Engine.ofOptions at h
  split at h
  · cases h
  · cases h
    exact coherent_of_none hproblem rfl

theorem InUse.coherent (h : InUse e) : Coherent e := by
  induction h with
  | new => exact coherent_of_none rfl rfl
  | ofOptions h => exact coherent_of_ofOptions h
  | call h _ ih => exact ih.call h

/-- **Options and table agree at any time.** Whatever calls an engine has seen and wherever they
failed, its options are in range, and a kept table is one that they ask for. A chunk size or a
stored table that is refused leaves options and table as they were. -/
theorem inUse_coherent (h : InUse e) :
    Coherent e ∧
      (∀ (size : Nat) (problem : DeltaError), (e.resize size).1 = .error problem →
        (e.resize size).2 = e) ∧
      ∀ {ρ : Type} [ByteReader ρ] (r : ρ) (problem : DeltaError), (e.load r).1 = .error problem →
        (e.load r).2.1 = e := by
  refine ⟨h.coherent, ?_, fun r problem hfailed => load_of_error hfailed⟩
  intro size problem hfailed
  rcases e.resize_cases size with ⟨_, -, heq⟩ | ⟨-, _, heq, -⟩
  · rw [heq]
  · rw [heq] at hfailed
    cases hfailed

/-- A table of blocks of two bytes is kept although the sink has failed, and emptied by another
chunk size. Then a chunk size of zero and three bytes in place of a stored table are refused. -/
theorem inUse_coherent_refused :
    let source : MemoryStream := ⟨packBytes [1, 2, 3, 4, 5, 6, 7, 8], 0⟩
    let target : MemoryStream := ⟨packBytes [5, 6, 7, 8, 1, 2], 0⟩
    let sink : CallLog := { allowed := some 0 }
    let stored : MemoryStream := ⟨packBytes [1, 2, 3], 0⟩
    let new : Engine := (resize {} 2).2.setKeepSource true
    let used := (new.computeSegment source target sink 0 0).engine
    let e := (used.resize 4).2
    InUse e ∧ e.hasSource = true ∧ Coherent e ∧ (e.resize 0).2 = e ∧ (e.load stored).2.1 = e := by
  intro source target sink stored new used e
  have hnew : InUse new := .call (.keepSource _ true) (.call (.resize {} 2) .new)
  have hused : InUse used := .call (.computeSegment new source target sink 0 0) hnew
  have he : InUse e := .call (.resize used 4) hused
  have hkept : e.hasSource = true := by decide +kernel
  obtain ⟨hcoherent, hresize, hload⟩ := inUse_coherent he
  have hrefused : (e.load stored).1.toBool = false := by decide +kernel
  refine ⟨he, hkept, hcoherent, hresize 0 _ rfl, ?_⟩
  cases hanswer : (e.load stored).1 with
  | error problem => exact hload stored problem hanswer
  | ok =>
    rw [hanswer] at hrefused
    cases hrefused

end Engine

end BinaryDelta
