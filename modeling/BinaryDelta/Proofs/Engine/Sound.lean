import BinaryDelta.Proofs.BlockTable.Scan
import BinaryDelta.Proofs.Engine.Reached
import BinaryDelta.Proofs.Sink.Collect

/-!
# What an engine describes is the target

Nothing ties a block table to the source it is used with: it may be stale, loaded from anywhere, or
out of order. What a table proposes is therefore compared with the target before it is copied, and a
match that was compared is one, whoever proposed it. The table has a say in how short the
description is, and none in whether it is right.

* `Search.Compared` holds of a match that a comparison found.
* `Sound` is what a list of calls owes to source and target.

Results:
* `Search.compared_bestOf`: unless hashes are accepted without a comparison, the best match was
  compared.
* `Search.sound_plan`: so the plan rebuilds the target, from copies that lie in the source.
* `BlockTable.exists_build`, `Engine.exists_prepareTable`: a table can be had of any source.
* **`Engine.computeSegment_sound`**: the instructions that an engine collects rebuild the target,
  whatever table it kept, and the statistics are theirs.
-/

namespace BinaryDelta

/-! ## Matches -/

namespace Search

/-- The match is as long as source and target agree. -/
def Compared {blockSize : Nat} (source left : List UInt8) (found : Match blockSize) : Prop :=
  found.length = matchLengthAt source left found.offset

section Compared

variable {blockSize : Nat} {source left : List UInt8} {found : Match blockSize}

theorem Compared.le_longest (h : Compared source left found) : found.length ≤ longestMatch :=
  h ▸ matchLengthAt_le source left found.offset

theorem Compared.le_commonPrefix (h : Compared source left found) :
    found.length ≤ commonPrefix (source.drop found.offset) left :=
  h ▸ Nat.min_le_right _ _

/-- What is copied are the next bytes of the target. -/
theorem Compared.take_eq (h : Compared source left found) :
    (source.drop found.offset).take found.length = left.take found.length :=
  take_commonPrefix h.le_commonPrefix

/-- A match that is not empty lies in the source. -/
theorem Compared.le_source (h : Compared source left found) (hpos : 0 < found.length) :
    found.offset + found.length ≤ source.length := by
  have hle := Nat.le_trans h.le_commonPrefix (commonPrefix_le_left _ _)
  rw [List.length_drop] at hle
  omega

end Compared

/-- Unless hashes are accepted without a comparison, the best match was compared. -/
theorem compared_bestOf {c : Search} (ha : c.options.acceptHash = false) {source left : List UInt8}
    {best : Option (Match c.blockSize)} (hb : ∀ m ∈ best, Compared source left m)
    (offsets : List Nat) : ∀ m ∈ c.bestOf source left best offsets, Compared source left m := by
  induction offsets generalizing best with
  | nil => exact hb
  | cons offset offsets ih =>
    rw [bestOf_cons]
    refine ih fun m hm => ?_
    rw [lengthAt, ha, if_neg Bool.false_ne_true, Match.better] at hm
    split at hm
    · cases best with
      | none =>
        cases hm
        rfl
      | some b =>
        simp only at hm
        split at hm
        · cases hm
          rfl
        · exact hb m hm
    · exact hb m hm

/-- Nor does any planned copy end behind the source then. -/
theorem goesOn_plan_of_compared {c : Search} (ha : c.options.acceptHash = false)
    (source left : List UInt8) (hash : Option WindowHash) (continuation : Option Nat)
    (position : Nat) :
    ∀ step ∈ c.plan source left hash continuation position,
      GoesOn c.sourceOffset source.length step := by
  have hpos : 0 < c.blockSize := c.table.blockSize_pos
  refine goesOn_plan fun {left hash continuation position found} hbest => ?_
  have hnone : ∀ m ∈ (none : Option (Match c.blockSize)), Compared source left m := nofun
  have hc : Compared source left found := compared_bestOf ha hnone _ found hbest
  exact .inl (hc.le_source (Nat.lt_of_lt_of_le hpos found.le_length))

end Search

/-! ## Calls -/

/-- The source lies at this offset of the data that copies refer to. -/
def LiesAt (source base : List UInt8) (offset : Nat) : Prop :=
  (base.drop offset).take source.length = source

theorem LiesAt.copy {source base : List UInt8} {offset : Nat} (h : LiesAt source base offset)
    {start length : Nat} (hpos : 0 < length) (hl : start + length ≤ source.length) :
    Rebuilds base [.copy (offset + start) length] ((source.drop start).take length) := by
  have hlen := congrArg List.length h
  rw [List.length_take, List.length_drop] at hlen
  have heq : (source.drop start).take length = (base.drop (offset + start)).take length := by
    rw [← h, List.drop_take, List.drop_drop, List.take_take, Nat.min_eq_left (by omega)]
  rw [heq]
  exact rebuilds_copy (by omega)

theorem liesAt_replicate_append (source : List UInt8) (offset : Nat) :
    LiesAt source (List.replicate offset 0 ++ source) offset := by
  rw [LiesAt, List.drop_left' List.length_replicate, List.take_length]

/-- A copy of at least a block and at most the longest match, from a source of this length that lies
at this offset. -/
def FromSource (blockSize sourceOffset sourceLength : Nat) (copy : Nat × Nat) : Prop :=
  (blockSize ≤ copy.2 ∧ copy.2 ≤ longestMatch) ∧
    sourceOffset ≤ copy.1 ∧ copy.1 + copy.2 ≤ sourceOffset + sourceLength

/-- The instructions rebuild a target, over any data in which the source lies at its offset, from
copies that lie in the source. -/
structure Sound (blockSize sourceOffset : Nat) (source target : List UInt8)
    (is : List Instruction) : Prop where
  rebuilds : ∀ {base : List UInt8}, LiesAt source base sourceOffset → Rebuilds base is target
  copies : ∀ copy ∈ copies is, FromSource blockSize sourceOffset source.length copy

namespace Sound

variable {blockSize sourceOffset : Nat} {source target left : List UInt8} {is : List Instruction}

theorem nil : Sound blockSize sourceOffset source [] [] :=
  ⟨fun _ => rebuilds_nil, nofun⟩

theorem literal (bytes : ByteArray) (h : Sound blockSize sourceOffset source left is) :
    Sound blockSize sourceOffset source (bytes.data.toList ++ left) (.literal bytes :: is) :=
  ⟨fun hb => rebuilds_append (rebuilds_literal bytes) (h.rebuilds hb), h.copies⟩

/-- The whole target as one literal. -/
theorem rest (target : List UInt8) :
    Sound blockSize sourceOffset source target [.literal (packBytes target)] := by
  have h : Sound blockSize sourceOffset source ((packBytes target).data.toList ++ []) _ :=
    literal (packBytes target) nil
  rwa [data_packBytes, List.toList_toArray, List.append_nil] at h

theorem copy {found : Match blockSize} (hc : Search.Compared source left found)
    (hpos : 0 < found.length)
    (h : Sound blockSize sourceOffset source (left.drop found.length) is) :
    Sound blockSize sourceOffset source left
      (.copy (sourceOffset + found.offset) found.length :: is) := by
  have hin := hc.le_source hpos
  constructor
  · intro base hb
    rw [← List.take_append_drop found.length left, ← hc.take_eq]
    exact rebuilds_append (hb.copy hpos hin) (h.rebuilds hb)
  · intro copy hm
    rcases List.mem_cons.mp hm with rfl | hm
    · exact ⟨⟨found.le_length, hc.le_longest⟩, Nat.le_add_right _ _, by simp only; omega⟩
    · exact h.copies copy hm

/-- It is the copies, and the origins of the bytes, that count. -/
theorem congr (h : Sound blockSize sourceOffset source target is) {is' : List Instruction}
    (ho : origins is' = origins is) (hc : BinaryDelta.copies is' = BinaryDelta.copies is) :
    Sound blockSize sourceOffset source target is' :=
  ⟨fun hb => (rebuilds_congr ho).mpr (h.rebuilds hb), hc ▸ h.copies⟩

theorem length_eq (h : Sound blockSize sourceOffset source target is) :
    target.length = outputLength is :=
  length_of_rebuilds (h.rebuilds (liesAt_replicate_append source sourceOffset))

end Sound

namespace Search

/-- The plan rebuilds what is left of the target. -/
theorem sound_plan {c : Search} (ha : c.options.acceptHash = false) (source left : List UInt8)
    (hash : Option WindowHash) (continuation : Option Nat) (position : Nat) :
    Sound c.blockSize c.sourceOffset source left
      ((c.plan source left hash continuation position).flatMap SinkStep.instructions) := by
  have hpos : 0 < c.blockSize := c.table.blockSize_pos
  induction hn : left.length using Nat.strongRecOn
    generalizing left hash continuation position with
  | _ n ih =>
    subst hn
    by_cases hl : left.length < c.blockSize
    · rw [plan_rest hl]
      by_cases h₀ : left.length = 0
      · rw [if_pos h₀, List.eq_nil_of_length_eq_zero h₀]
        exact Sound.nil
      · rw [if_neg h₀]
        exact Sound.rest left
    · have hge := Nat.le_of_not_lt hl
      cases hbest : c.bestOf source left none
          (c.probes (hash.getD (c.hashOf left)) continuation position) with
      | some found =>
        have hnone : ∀ m ∈ (none : Option (Match c.blockSize)), Compared source left m := nofun
        have hc : Compared source left found := compared_bestOf ha hnone _ found hbest
        have hfound := found.le_length
        rw [plan_copy hge hbest, List.flatMap_cons]
        exact Sound.copy hc (by omega)
          (ih _ (by rw [List.length_drop]; omega) _ none _ _ rfl)
      | none =>
        rw [plan_byte hge hbest, List.flatMap_cons]
        obtain ⟨byte, rest, rfl⟩ := List.exists_cons_of_length_pos (Nat.lt_of_lt_of_le hpos hge)
        exact Sound.literal (packBytes [byte]) (ih _ (Nat.lt_succ_self _) rest _ _ _ rfl)

end Search

/-! ## Statistics -/

/-- The statistics are those of the instructions for a target. -/
structure DeltaStats.Tallies (s : DeltaStats) (target : List UInt8) (is : List Instruction) :
    Prop where
  processed : s.processed = target.length
  total : s.copied + s.literal = target.length
  copied : s.copied = ((BinaryDelta.copies is).map Prod.snd).sum
  copies : s.copies = (BinaryDelta.copies is).length

/-- Counting calls adds up what they hand over. -/
theorem DeltaStats.foldl_count (s : DeltaStats) (steps : List SinkStep) :
    let is := steps.flatMap SinkStep.instructions
    (steps.foldl count s).copied = s.copied + ((BinaryDelta.copies is).map Prod.snd).sum ∧
      (steps.foldl count s).copies = s.copies + (BinaryDelta.copies is).length ∧
      (steps.foldl count s).copied + (steps.foldl count s).literal =
        s.copied + s.literal + outputLength is := by
  induction steps generalizing s with
  | nil => exact ⟨rfl, rfl, rfl⟩
  | cons step steps ih =>
    obtain ⟨h₁, h₂, h₃⟩ := ih (s.count step)
    simp only [List.foldl_cons, List.flatMap_cons, copies_append, outputLength_append,
      List.map_append, List.sum_append, List.length_append]
    rw [h₃, h₁, h₂]
    cases step <;>
      simp [count, addCopy, addLiteral, SinkStep.instructions, BinaryDelta.copies,
        Instruction.copies, Instruction.outputLength, Nat.add_assoc, Nat.add_comm,
        Nat.add_left_comm]

/-! ## Tables -/

namespace BlockTable

variable {σ : Type} [Source σ] {H : σ → Prop} {source : List UInt8}

theorem exists_scanFrom (k : Source.Holding H source) (t : BlockTable) {src : σ} (h : H src)
    (pending : ByteArray) (position : Nat) :
    ∃ t' src', t.scanFrom src pending position = (.ok (), t', src') ∧ H src' ∧
      t'.blockSize = t.blockSize := by
  fun_induction scanFrom t src pending position with
  | case1 t src pending position fault src' hr =>
    obtain ⟨piece, rest, ⟨⟩, -⟩ := k.of_readSomeAt h hr
  | case2 t src pending position bytes src' hr h₀ =>
    obtain ⟨piece, rest, ⟨⟩, h₁, -⟩ := k.of_readSomeAt h hr
    exact ⟨_, src', rfl, h₁, rfl⟩
  | case3 t src pending position bytes src' hr h₀ blockSize buffer count t₁ ih =>
    obtain ⟨piece, rest, ⟨⟩, h₁, -⟩ := k.of_readSomeAt h hr
    obtain ⟨t₂, src₂, h₂, hs₂, hb⟩ := ih h₁
    exact ⟨t₂, src₂, h₂, hs₂, hb.trans (blockSize_insertBlocks t buffer 0 _ count)⟩

/-- A source that does not fail can be scanned, if there can be a buffer for it. -/
theorem exists_build (k : Source.Holding H source) {t : BlockTable}
    (hb : t.blockSize < 0x4000000000000000) {src : σ} (h : H src) :
    ∃ t' src', t.build src = (.ok (), t', src') ∧ H src' ∧ t'.blockSize = t.blockSize := by
  unfold build
  rw [(scanProblem?_eq_none_iff t.blockSize_pos).mpr hb]
  exact exists_scanFrom k t.clear h ByteArray.empty 0

/-- It need not be scanned for a table that has been built. -/
theorem exists_ready (k : Source.Holding H source) {t : BlockTable}
    (hb : t.blockSize < 0x4000000000000000) {src : σ} (h : H src) :
    ∃ t' src', (if t.built then (Except.ok t, src) else
        match t.build src with
        | (.error problem, _, src) => (.error problem, src)
        | (.ok (), t, src) => (.ok t, src)) = ((.ok t', src') : Except DeltaError BlockTable × σ) ∧
      H src' ∧ t'.blockSize = t.blockSize := by
  by_cases hbuilt : t.built = true
  · exact ⟨t, src, if_pos hbuilt, h, rfl⟩
  · obtain ⟨t', src', hbuild, h', hsize⟩ := exists_build k hb h
    exact ⟨t', src', by rw [if_neg hbuilt, hbuild], h', hsize⟩

end BlockTable

/-! ## Engines -/

namespace Engine

variable {σ ρ κ : Type} [Source σ] {H : σ → Prop} {source : List UInt8} {src : σ}

/-- An engine whose options are in range has a table of the right block size. -/
theorem exists_prepareTable (k : Source.Holding H source) {e : Engine}
    (he : e.options.problem? = none) (h : H src) :
    ∃ t src', e.prepareTable src = (.ok t, src') ∧ H src' ∧
      t.blockSize = e.options.chunkSize := by
  have hshort : e.options.chunkSize < 0x4000000000000000 :=
    Nat.lt_of_le_of_lt (EngineOptions.chunkSize_le he) (by decide)
  unfold prepareTable
  cases hfit : e.fittingTable? with
  | some t =>
    have hb := (of_fittingTable? hfit).2.blockSize_eq
    obtain ⟨t', src', hready, h', hsize⟩ := BlockTable.exists_ready k (hb ▸ hshort) h
    exact ⟨t', src', hready, h', hsize.trans hb⟩
  | none =>
    rw [BlockTable.ofBlockSize, dif_pos (EngineOptions.chunkSize_pos he)]
    exact BlockTable.exists_ready k hshort h

/-! ## Computations -/

variable [ByteReader ρ] [InstructionSink κ] {target : List UInt8} {r : ρ}

/-- An engine carries out the plan over its table and flushes the sink. -/
theorem computeSegment_of_prepareTable (k : Source.Holding H source) {R : ρ → List UInt8 → Prop}
    (d : ByteReader.Delivery R) (hr : R r target) {e : Engine} (he : e.options.problem? = none)
    {table : BlockTable} {src' : σ} (hprep : e.prepareTable src = (.ok table, src')) (hs : H src')
    (sourceOffset targetOffset : Nat) (sink : κ) :
    let steps := Search.plan { table, options := e.options, sourceOffset, targetOffset }
      source target none none 0
    let carried := Search.carryOut sourceOffset source.length sink (steps ++ [.flush])
    let outcome := e.computeSegment src r sink sourceOffset targetOffset
    outcome.result = carried.1.map (fun _ =>
        { steps.foldl DeltaStats.count {} with processed := target.length }) ∧
      outcome.sink = carried.2 := by
  let c : Search := { table, options := e.options, sourceOffset, targetOffset }
  obtain ⟨hresult, hsink, -⟩ := Search.describe_eq k d c hs hr sink
  simp only [computeSegment, he, hprep, Search.carryOut_append]
  rcases hd : c.describe src' r sink with ⟨result, reports, src₁, sink₁⟩
  rw [hd] at hresult hsink
  simp only at hresult hsink
  subst hresult hsink
  rcases Search.carryOut sourceOffset source.length sink (c.plan source target none none 0) with
    ⟨problem | _, sink₂⟩
  · exact ⟨rfl, rfl⟩
  · simp only [andThen_ok, Search.carryOut_cons, SinkStep.act, Except.map]
    rcases InstructionSink.flush sink₂ with ⟨problem | _, sink₃⟩
    · exact ⟨rfl, rfl⟩
    · exact ⟨rfl, rfl⟩

/-- If every end can be counted, the sink is fed the plan and flushed. -/
theorem computeSegment_of_goesOn (k : Source.Holding H source) {R : ρ → List UInt8 → Prop}
    (d : ByteReader.Delivery R) (hr : R r target) {e : Engine} (he : e.options.problem? = none)
    {table : BlockTable} {src' : σ} (hprep : e.prepareTable src = (.ok table, src')) (hs : H src')
    {sourceOffset targetOffset : Nat}
    (hgoes : ∀ step ∈ Search.plan { table, options := e.options, sourceOffset, targetOffset }
      source target none none 0, Search.GoesOn sourceOffset source.length step) (sink : κ) :
    let steps := Search.plan { table, options := e.options, sourceOffset, targetOffset }
      source target none none 0
    let outcome := e.computeSegment src r sink sourceOffset targetOffset
    outcome.result = (feed sink (steps ++ [.flush])).1.map (fun _ =>
        { steps.foldl DeltaStats.count {} with processed := target.length }) ∧
      outcome.sink = (feed sink (steps ++ [.flush])).2 := by
  obtain ⟨hresult, hsink⟩ :=
    computeSegment_of_prepareTable k d hr he hprep hs sourceOffset targetOffset sink
  rw [Search.carryOut_eq_feed (Search.goesOn_flush hgoes)] at hresult hsink
  exact ⟨hresult, hsink⟩

/-- A whole computation closes the sink as well. -/
theorem compute_of_computeSegment {e : Engine} {sink : κ} {fed : Except DeltaError Unit × κ}
    {stats : DeltaStats}
    (h : (e.computeSegment src r sink 0 0).result = fed.1.map (fun _ => stats) ∧
      (e.computeSegment src r sink 0 0).sink = fed.2) :
    (e.compute src r sink).result = (andThen fed InstructionSink.close).1.map (fun _ => stats) ∧
      (e.compute src r sink).sink = (andThen fed InstructionSink.close).2 := by
  obtain ⟨hresult, hsink⟩ := h
  rcases hc : e.computeSegment src r sink 0 0 with ⟨result, reports, e', src', sink'⟩
  rw [hc] at hresult hsink
  simp only at hresult hsink
  subst hresult hsink
  simp only [compute, hc]
  rcases fed with ⟨problem | _, sink₁⟩
  · exact ⟨rfl, rfl⟩
  · simp only [andThen_ok, Except.map]
    rcases InstructionSink.close sink₁ with ⟨problem | _, sink₂⟩
    · exact ⟨rfl, rfl⟩
    · exact ⟨rfl, rfl⟩

/-- With matches compared, an engine feeds the sink the plan over its table and flushes it. -/
theorem exists_computeSegment (hs : Source.Holds src source) (hr : ByteReader.Delivers r target)
    {e : Engine} (he : e.options.problem? = none) (ha : e.options.acceptHash = false)
    (sourceOffset targetOffset : Nat) :
    ∃ table : BlockTable, table.blockSize = e.options.chunkSize ∧ ∀ sink : κ,
      let steps := Search.plan { table, options := e.options, sourceOffset, targetOffset }
        source target none none 0
      let outcome := e.computeSegment src r sink sourceOffset targetOffset
      outcome.result = (feed sink (steps ++ [.flush])).1.map (fun _ =>
          { steps.foldl DeltaStats.count {} with processed := target.length }) ∧
        outcome.sink = (feed sink (steps ++ [.flush])).2 := by
  obtain ⟨H, k, hs⟩ := hs
  obtain ⟨R, d, hr⟩ := hr
  obtain ⟨table, src', hprep, hs', hb⟩ := exists_prepareTable k he hs
  have hgoes := Search.goesOn_plan_of_compared
    (c := { table, options := e.options, sourceOffset, targetOffset }) ha source target none none 0
  exact ⟨table, hb, computeSegment_of_goesOn k d hr he hprep hs' hgoes⟩

/-- If it goes on to close the sink, that is completed. -/
theorem exists_compute (hs : Source.Holds src source) (hr : ByteReader.Delivers r target)
    {e : Engine} (he : e.options.problem? = none) (ha : e.options.acceptHash = false) :
    ∃ table : BlockTable, table.blockSize = e.options.chunkSize ∧ ∀ sink : κ,
      let steps := Search.plan { table, options := e.options } source target none none 0
      let outcome := e.compute src r sink
      outcome.result = (complete sink (steps ++ [.flush])).1.map (fun _ =>
          { steps.foldl DeltaStats.count {} with processed := target.length }) ∧
        outcome.sink = (complete sink (steps ++ [.flush])).2 := by
  obtain ⟨table, hb, hcompute⟩ := exists_computeSegment (κ := κ) hs hr he ha 0 0
  exact ⟨table, hb, fun sink => compute_of_computeSegment (hcompute sink)⟩

/-- **Soundness.** Whatever table an engine has kept, what it collects rebuilds the target wherever
the source lies, from copies of at least a block that lie in the source; and the statistics are
those of what it collects. -/
theorem computeSegment_sound (hs : Source.Holds src source) (hr : ByteReader.Delivers r target)
    {e : Engine} (he : e.options.problem? = none) (ha : e.options.acceptHash = false)
    (sourceOffset targetOffset : Nat) :
    ∃ stats,
      let outcome := e.computeSegment src r ({} : Collector) sourceOffset targetOffset
      let collected := outcome.sink.instructions.toList
      outcome.result = .ok stats ∧
        Sound e.options.chunkSize sourceOffset source target collected ∧
        stats.Tallies target collected := by
  obtain ⟨table, hb, hcompute⟩ :=
    exists_computeSegment (κ := Collector) hs hr he ha sourceOffset targetOffset
  obtain ⟨hresult, hsink⟩ := hcompute {}
  let c : Search := { table, options := e.options, sourceOffset, targetOffset }
  have hplan := Search.sound_plan (c := c) ha source target none none 0
  rw [Collector.feed_collector, SinkStep.flatMap_instructions_flush] at hresult hsink
  have hcopies := Collector.copies_addAll {} ((c.plan source target none none 0).flatMap
    SinkStep.instructions)
  have hsound : Sound e.options.chunkSize sourceOffset source target (e.computeSegment src r
      ({} : Collector) sourceOffset targetOffset).sink.instructions.toList := by
    rw [hsink, ← hb]
    exact hplan.congr (Collector.origins_addAll {} _) hcopies
  refine ⟨_, hresult, hsound, ?_⟩
  obtain ⟨h₁, h₂, h₃⟩ := DeltaStats.foldl_count {} (c.plan source target none none 0)
  constructor
  · rfl
  · rw [hplan.length_eq]
    simpa using h₃
  · rw [hsink, hcopies]
    simpa using h₁
  · rw [hsink, hcopies]
    simpa using h₂

/-- An engine that kept the table of another source, with a block beyond the end of this one. -/
theorem computeSegment_sound_stale :
    let stale := (BlockTable.empty 4 false (by decide)).insertBlock (packBytes [1, 2, 3, 4]) 0 900
    let e : Engine := ⟨{ chunkSize := 4, keepSource := true }, some (stale.finish 904)⟩
    let source : MemoryStream := ⟨packBytes [0, 1, 2, 3, 4, 5], 0⟩
    let target : MemoryStream := ⟨packBytes [1, 2, 3, 4, 5, 6], 0⟩
    ∃ stats,
      let outcome := e.computeSegment source target ({} : Collector) 70 0
      let collected := outcome.sink.instructions.toList
      outcome.result = .ok stats ∧
        Sound e.options.chunkSize 70 source.bytes.data.toList target.bytes.data.toList collected ∧
        stats.Tallies target.bytes.data.toList collected :=
  computeSegment_sound (MemoryStream.holds _) (MemoryStream.delivers _) rfl rfl 70 0

end Engine

end BinaryDelta
