import BinaryDelta.Proofs.Engine.Sound
import BinaryDelta.Sink.CallLog

/-!
# Retained tables

An engine that keeps its table skips the scan of the next computation. Between two computations its
settings may change, and a computation may fail, in the scan, at the target or at the sink. None of
this leaves a table behind that describes the source less well than a new one would: a table that no
longer fits the options is emptied or dropped, one whose scan has failed is dropped too, and an
emptied one is built again before it is used.

* `UsedOver bytes` holds of the engines that new ones become in use, if every computation is over a
  source of these bytes.
* `Current bytes` is the invariant: the kept table is of the block size and the number of checksums
  that the options ask for, and if it is built, it is the table of the bytes.
* `Prepares` says which table an engine comes to use over a source, `EmitsAlike` that two engines
  make the same calls.

Results:
* `table_of_prepareTable`: a computation over the bytes uses their table, or fails before its first
  call.
* `Current.setChunkSize`, `Current.setKeepSource`, `Current.setDuplicate`, `Current.computeSegment`:
  each operation keeps the invariant.
* **`emitsAlike_fresh`**: an engine in use makes the calls of a new engine with its options.
-/

namespace BinaryDelta.Engine

/-! ## Engines in use -/

/-- What becomes of new engines in use, if all computations are over sources of these bytes.
Sources, targets and sinks may fail at any time. -/
inductive UsedOver (bytes : List UInt8) : Engine → Prop where
  | new {options : EngineOptions} {e : Engine} (h : ofOptions options = .ok e) : UsedOver bytes e
  | chunkSize {e e' : Engine} {size : Nat} (he : UsedOver bytes e)
      (h : e.setChunkSize size = .ok e') : UsedOver bytes e'
  | keepSource {e : Engine} (keepSource : Bool) (he : UsedOver bytes e) :
      UsedOver bytes (e.setKeepSource keepSource)
  | autocode {e : Engine} (autocode : Bool) (he : UsedOver bytes e) :
      UsedOver bytes (e.setAutocode autocode)
  | acceptHash {e : Engine} (acceptHash : Bool) (he : UsedOver bytes e) :
      UsedOver bytes (e.setAcceptHash acceptHash)
  | duplicate {e : Engine} (duplicate : Bool) (he : UsedOver bytes e) :
      UsedOver bytes (e.setDuplicate duplicate)
  | clearSource {e : Engine} (he : UsedOver bytes e) : UsedOver bytes e.clearSource
  | computeSegment {σ ρ κ : Type} [Source σ] [ByteReader ρ] [InstructionSink κ] [Overlap σ κ]
      {e : Engine} (he : UsedOver bytes e) {source : σ} (hs : Source.Serves source bytes)
      (target : ρ) (sink : κ) (sourceOffset targetOffset : Nat) :
      UsedOver bytes (e.computeSegment source target sink sourceOffset targetOffset).engine
  | compute {σ ρ κ : Type} [Source σ] [ByteReader ρ] [InstructionSink κ] [Overlap σ κ] {e : Engine}
      (he : UsedOver bytes e) {source : σ} (hs : Source.Serves source bytes) (target : ρ)
      (sink : κ) : UsedOver bytes (e.compute source target sink).engine

/-- The table is for blocks of this size and has as many checksums as it should, and it is either
empty or the table of these bytes. -/
inductive Fits (bytes : List UInt8) (blockSize : Nat) (duplicate : Bool) : BlockTable → Prop where
  | empty (h : 0 < blockSize) : Fits bytes blockSize duplicate (.empty blockSize duplicate h)
  | full (h : 0 < blockSize) : Fits bytes blockSize duplicate (.ofBytes bytes blockSize duplicate h)

theorem Fits.clear_eq {bytes : List UInt8} {blockSize : Nat} {duplicate : Bool} {t : BlockTable}
    (h : Fits bytes blockSize duplicate t) : ∃ hpos, t.clear = .empty blockSize duplicate hpos := by
  cases h with
  | empty hpos => exact ⟨hpos, BlockTable.clear_empty⟩
  | full hpos => exact ⟨hpos, BlockTable.clear_ofBytes bytes⟩

/-- The options are in range. A table is only kept if it is to be, and then it fits them. -/
structure Current (bytes : List UInt8) (e : Engine) : Prop where
  problem : e.options.problem? = none
  keeps : ∀ t ∈ e.table, e.options.keepSource = true
  fits : ∀ t ∈ e.table, Fits bytes e.options.chunkSize e.options.duplicate t

variable {bytes : List UInt8} {e : Engine}

/-- An engine without a table is current. -/
theorem current_of_none (h : e.options.problem? = none) (hn : e.table = none) : Current bytes e :=
  ⟨h, by simp [hn], by simp [hn]⟩

/-! ## Preparing the table -/

section Prepare

variable {σ : Type} [Source σ] {source source' : σ}

/-- A computation begins with a table that fits, kept or new. -/
theorem exists_prepareTable_eq (h : Current bytes e) (source : σ) :
    ∃ t, Fits bytes e.options.chunkSize e.options.duplicate t ∧ e.prepareTable source =
      if t.built then (.ok t, source)
      else
        match t.build source with
        | (.error problem, _, source) => (.error problem, source)
        | (.ok (), t, source) => (.ok t, source) := by
  have hpos := EngineOptions.chunkSize_pos h.problem
  unfold prepareTable
  cases hf : e.fittingTable? with
  | none =>
    refine ⟨_, .empty hpos, ?_⟩
    rewrite [BlockTable.ofBlockSize, dif_pos hpos]
    rfl
  | some t => exact ⟨t, h.fits t (of_fittingTable? hf).1, rfl⟩

/-- A computation over the bytes uses their table, unless it fails before it has one. -/
theorem table_of_prepareTable (h : Current bytes e) (hs : Source.Serves source bytes)
    {t : BlockTable} (hp : e.prepareTable source = (.ok t, source')) :
    ∃ hpos, t = .ofBytes bytes e.options.chunkSize e.options.duplicate hpos := by
  obtain ⟨H, k, hs⟩ := hs
  obtain ⟨t₀, hfits, hprep⟩ := exists_prepareTable_eq h source
  rw [hprep] at hp
  cases hfits with
  | full hpos =>
    cases hp
    exact ⟨hpos, rfl⟩
  | empty hpos =>
    rw [if_neg (by exact Bool.false_ne_true)] at hp
    split at hp
    · cases hp
    · rename_i hbuild
      cases hp
      exact ⟨hpos, BlockTable.eq_ofBytes_of_build k hs BlockTable.clear_empty hbuild⟩

end Prepare

/-! ## Each operation -/

theorem current_of_ofOptions {options : EngineOptions} (h : ofOptions options = .ok e) :
    Current bytes e := by
  have hproblem := problem?_of_ofOptions h
  unfold ofOptions at h
  split at h
  · cases h
  · cases h
    exact current_of_none hproblem rfl

/-- Another chunk size empties a kept table. -/
theorem Current.setChunkSize_eq (h : Current bytes e) {size : Nat}
    (hs : chunkSizeProblem? size = none) (hne : size ≠ e.options.chunkSize) :
    ∃ hpos, e.setChunkSize size = .ok ⟨{ e.options with chunkSize := size },
      e.table.map fun _ => .empty size e.options.duplicate hpos⟩ := by
  have hpos : 0 < size := (chunkSizeProblem?_eq_none_iff.mp hs).1
  refine ⟨hpos, ?_⟩
  unfold Engine.setChunkSize resize
  rw [hs]
  simp only [if_neg hne]
  cases ht : e.table with
  | none => rfl
  | some t =>
    obtain ⟨_, hclear⟩ := (h.fits t ht).clear_eq
    simp only [BlockTable.setBlockSize_of_ne hclear hne hpos]
    rfl

theorem Current.setChunkSize (h : Current bytes e) {e' : Engine} {size : Nat}
    (hs : e.setChunkSize size = .ok e') : Current bytes e' := by
  have hproblem := problem?_of_setChunkSize h.problem hs
  cases hsize : chunkSizeProblem? size with
  | some problem =>
    rw [Engine.setChunkSize, resize, hsize] at hs
    cases hs
  | none =>
    by_cases hne : size = e.options.chunkSize
    · rw [Engine.setChunkSize, resize, hsize] at hs
      simp only [if_pos hne] at hs
      cases hs
      exact h
    · obtain ⟨hpos, heq⟩ := h.setChunkSize_eq hsize hne
      rw [heq] at hs
      cases hs
      refine ⟨hproblem, ?_, ?_⟩
      · intro t ht
        obtain ⟨kept, hkept, -⟩ := Option.map_eq_some_iff.mp ht
        exact h.keeps kept hkept
      · intro t ht
        obtain ⟨kept, -, rfl⟩ := Option.map_eq_some_iff.mp ht
        exact .empty hpos

theorem Current.setKeepSource (h : Current bytes e) (keepSource : Bool) :
    Current bytes (e.setKeepSource keepSource) := by
  cases keepSource with
  | false => exact current_of_none h.problem rfl
  | true => exact ⟨h.problem, fun _ _ => rfl, h.fits⟩

theorem Current.setDuplicate (h : Current bytes e) (duplicate : Bool) :
    Current bytes (e.setDuplicate duplicate) := by
  unfold Engine.setDuplicate
  split
  · exact h
  · exact current_of_none h.problem rfl

/-- A computation keeps the table that it used, or none. -/
theorem Current.computeSegment {σ ρ κ : Type} [Source σ] [ByteReader ρ] [InstructionSink κ]
    [Overlap σ κ] (h : Current bytes e) {source : σ} (hs : Source.Serves source bytes) (target : ρ)
    (sink : κ) (sourceOffset targetOffset : Nat) :
    Current bytes (e.computeSegment source target sink sourceOffset targetOffset).engine := by
  rcases e.engine_computeSegment source target sink sourceOffset targetOffset with
    heq | heq | ⟨t, source', hp, heq⟩
  · rw [heq]
    exact h
  · rw [heq]
    exact current_of_none h.problem rfl
  · rw [heq]
    obtain ⟨hpos, rfl⟩ := table_of_prepareTable h hs hp
    cases hk : e.options.keepSource with
    | false => exact current_of_none h.problem rfl
    | true =>
      refine ⟨h.problem, fun _ _ => hk, ?_⟩
      rintro _ ⟨⟩
      exact .full hpos

/-- The table of an engine in use fits its options at any time. -/
theorem UsedOver.current (h : UsedOver bytes e) : Current bytes e := by
  induction h with
  | new h => exact current_of_ofOptions h
  | chunkSize _ h ih => exact ih.setChunkSize h
  | keepSource keepSource _ ih => exact ih.setKeepSource keepSource
  | autocode _ _ ih => exact ⟨ih.problem, ih.keeps, ih.fits⟩
  | acceptHash _ _ ih => exact ⟨ih.problem, ih.keeps, ih.fits⟩
  | duplicate duplicate _ ih => exact ih.setDuplicate duplicate
  | clearSource _ ih => exact current_of_none ih.problem rfl
  | computeSegment _ hs target sink sourceOffset targetOffset ih =>
    exact ih.computeSegment hs target sink sourceOffset targetOffset
  | compute _ hs target sink ih =>
    rw [engine_compute]
    exact ih.computeSegment hs target sink 0 0

/-! ## The next computation -/

/-- Over a source of these bytes, the engine comes to use this table. -/
structure Prepares (bytes : List UInt8) (e : Engine) (t : BlockTable) : Prop where
  prepareTable_eq : ∀ {σ : Type} [Source σ] {H : σ → Prop} {source : σ},
    Source.Holding H bytes → H source →
      ∃ source', e.prepareTable source = (.ok t, source') ∧ H source'

/-- Over sources of these bytes, the two engines come to the same results by the same calls. -/
structure EmitsAlike (bytes : List UInt8) (e e' : Engine) : Prop where
  compute_eq : ∀ {σ ρ κ : Type} [Source σ] [ByteReader ρ] [InstructionSink κ] {source source' : σ}
    {r r' : ρ} {target : List UInt8}, Source.Holds source bytes → Source.Holds source' bytes →
    ByteReader.Delivers r target → ByteReader.Delivers r' target → ∀ sink : κ,
      (e.compute source r sink).result = (e'.compute source' r' sink).result ∧
        (e.compute source r sink).sink = (e'.compute source' r' sink).sink

/-- An engine in use comes to use the table of the bytes. -/
theorem Current.prepares (h : Current bytes e) :
    ∃ hpos, Prepares bytes e (.ofBytes bytes e.options.chunkSize e.options.duplicate hpos) := by
  refine ⟨EngineOptions.chunkSize_pos h.problem, ⟨?_⟩⟩
  intro σ _ H source k hs
  obtain ⟨t, source', hp, hs', -⟩ := exists_prepareTable k h.problem hs
  obtain ⟨_, rfl⟩ := table_of_prepareTable h ⟨H, k.serving, hs⟩ hp
  exact ⟨source', hp, hs'⟩

/-- After a computation that succeeds, an engine that keeps its table has that of the bytes. -/
theorem Current.table_computeSegment {σ ρ κ : Type} [Source σ] [ByteReader ρ] [InstructionSink κ]
    [Overlap σ κ] (h : Current bytes e) (hk : e.options.keepSource = true) {source : σ}
    (hs : Source.Holds source bytes) {target : ρ} {sink : κ} {sourceOffset targetOffset : Nat}
    {stats : DeltaStats}
    (hok : (e.computeSegment source target sink sourceOffset targetOffset).result = .ok stats) :
    ∃ hpos, (e.computeSegment source target sink sourceOffset targetOffset).engine.table =
      some (.ofBytes bytes e.options.chunkSize e.options.duplicate hpos) := by
  obtain ⟨hpos, hprep⟩ := h.prepares
  obtain ⟨H, k, hs⟩ := hs
  obtain ⟨source', hp, -⟩ := hprep.prepareTable_eq k hs
  refine ⟨hpos, ?_⟩
  simp only [Engine.computeSegment, h.problem, hp, hk, if_true] at hok ⊢
  split at hok
  · cases hok
  · split at hok
    · cases hok
    · rfl

/-- Engines with the same options, and with tables for which the same calls are planned, make the
same calls. -/
theorem emitsAlike_of_plan {e' : Engine} (ho : e'.options = e.options)
    (he : e.options.problem? = none) {t t' : BlockTable} (hp : Prepares bytes e t)
    (hp' : Prepares bytes e' t')
    (hplan : ∀ target : List UInt8,
      Search.plan { table := t', options := e.options } bytes target none none 0 =
        Search.plan { table := t, options := e.options } bytes target none none 0) :
    EmitsAlike bytes e e' := by
  constructor
  intro σ ρ κ _ _ _ source source' r r' target hs hs' hr hr' sink
  obtain ⟨H, k, hs⟩ := hs
  obtain ⟨H', k', hs'⟩ := hs'
  obtain ⟨R, d, hr⟩ := hr
  obtain ⟨R', d', hr'⟩ := hr'
  obtain ⟨source₁, hprep, hs₁⟩ := hp.prepareTable_eq k hs
  obtain ⟨source₂, hprep', hs₂⟩ := hp'.prepareTable_eq k' hs'
  obtain ⟨hresult, hsink⟩ := compute_of_computeSegment
    (computeSegment_of_prepareTable k d hr he hprep hs₁ 0 0 sink)
  obtain ⟨hresult', hsink'⟩ := compute_of_computeSegment
    (computeSegment_of_prepareTable k' d' hr' (ho ▸ he) hprep' hs₂ 0 0 sink)
  rw [ho, hplan] at hresult' hsink'
  exact ⟨hresult.trans hresult'.symm, hsink.trans hsink'.symm⟩

/-- **A kept table changes nothing.** After any use over the bytes, an engine comes to the results
of a new one with its options, by the same calls. -/
theorem emitsAlike_fresh (h : UsedOver bytes e) :
    ∃ fresh, ofOptions e.options = .ok fresh ∧ EmitsAlike bytes e fresh := by
  have hcurrent := h.current
  have hnew : ofOptions e.options = .ok { options := e.options } := by
    unfold ofOptions
    rw [hcurrent.problem]
  obtain ⟨_, hprep⟩ := hcurrent.prepares
  have hfresh : Current bytes { options := e.options } := current_of_ofOptions hnew
  obtain ⟨_, hprep'⟩ := hfresh.prepares
  exact ⟨_, hnew, emitsAlike_of_plan rfl hcurrent.problem hprep hprep' fun _ => rfl⟩

/-- A sink that gives up at the first call, after the table was kept, and then another chunk size:
the kept table is emptied, and built again by the next computation. -/
theorem emitsAlike_fresh_emptied :
    let source : MemoryStream := ⟨packBytes [1, 2, 3, 4, 5, 6, 7, 8], 0⟩
    let target : MemoryStream := ⟨packBytes [5, 6, 7, 8, 1, 2], 0⟩
    let new : Engine := { options := { chunkSize := 2, keepSource := true } }
    let sink : CallLog := { allowed := some 0 }
    let collector : Collector := {}
    let used := (new.computeSegment source target sink 0 0).engine
    ∃ e fresh, used.setChunkSize 4 = .ok e ∧ ofOptions e.options = .ok fresh ∧
      (e.compute source target collector).result = (fresh.compute source target collector).result ∧
      (e.compute source target collector).sink = (fresh.compute source target collector).sink := by
  intro source target new sink collector used
  have hserves : Source.Serves source source.bytes.data.toList :=
    ⟨_, (MemoryStream.holding_bytes source.bytes).serving, rfl⟩
  have hnew : ofOptions new.options = .ok new := rfl
  have hused : UsedOver source.bytes.data.toList used :=
    .computeSegment (.new hnew) hserves target sink 0 0
  have hother : 4 ≠ used.options.chunkSize := by
    rw [options_computeSegment]
    decide
  obtain ⟨_, he⟩ := hused.current.setChunkSize_eq rfl hother
  obtain ⟨fresh, hfresh, halike⟩ := emitsAlike_fresh (hused.chunkSize he)
  exact ⟨_, fresh, he, hfresh, halike.compute_eq (MemoryStream.holds _) (MemoryStream.holds _)
    (MemoryStream.delivers _) (MemoryStream.delivers _) collector⟩

end BinaryDelta.Engine
