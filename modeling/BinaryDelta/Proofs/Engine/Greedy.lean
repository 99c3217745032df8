import BinaryDelta.Proofs.BlockTable.Blocks
import BinaryDelta.Proofs.Engine.Rolling
import BinaryDelta.Proofs.Engine.Sound
import Mathlib.Data.List.MinMax

/-!
# The naive encoder

An engine rolls hashes along, reads ahead in steps, walks chains without listing them and stops a
search early. None of this shows in what it makes. The reference here does without: at each target
position it hashes the next block from scratch, lists the offsets to be considered, measures the
match at each of them on the two byte strings, and copies the longest or moves on by a byte.

* `Greedy.considered` lists the offsets, the end of the previous copy first.
* `Greedy.best` is the first among the longest matches of at least a block.
* `Greedy.encode` is the whole target, instruction by instruction.

Results:
* `candidatesFrom_eq`, `probes_eq_considered`: the engine compares the offsets that are considered.
* `bestOf_eq_best`: the match it settles for is the best.
* `instructions_plan`: so its plan is the reference, whatever hash was rolled along.
* `atoms_plan`: and so is what the plan tells, atom by atom.
* `lists_of_mem_considered`: when hashes are accepted, an offset is considered only where the table
  lists it, the end of the previous copy included.
* `goesOn_plan_of_lists`, `goesOn_of_countable`: the plan can be carried out over a table that lists
  nothing but blocks of the source, or if the end of every copy in the reference can be counted.
* `countable_encode`: so it can if matches are compared.
* `Engine.compute_of_goesOn`: then an engine collects the instructions of the reference.
* **`Engine.compute_greedy`**: an engine collects the instructions of the reference, up to the first
  copy whose end cannot be counted.
* `Engine.compute_greedy_forged`: a table that was stored elsewhere can bring one about.
-/

namespace BinaryDelta

namespace Greedy

/-- May a copy from this offset be made at a target position? -/
def admissible (c : Search) (position offset : Nat) : Bool :=
  !c.options.autocode || c.sourceOffset + offset < c.targetOffset + position

/-- The end of the previous copy, where it is kept. -/
def kept (c : Search) (hash : WindowHash) (continuation : Option Nat) : Option Nat :=
  continuation.filter fun offset => !c.options.acceptHash || c.table.contains hash offset

/-- The offsets that are considered at a target position. -/
def considered (c : Search) (hash : WindowHash) (continuation : Option Nat) (position : Nat) :
    List Nat :=
  let kept := kept c hash continuation
  let others := (c.table.candidates hash).toList.filter fun offset => kept != some offset
  (kept.toList.filter (admissible c position) ++ others.takeWhile (admissible c position)).take
    c.options.maxProbes

/-- The length of the match at an offset. -/
def lengthAt (c : Search) (source left : List UInt8) (offset : Nat) : Nat :=
  if c.options.acceptHash then c.blockSize
  else min longestMatch (commonPrefix (source.drop offset) left)

/-- The offset of the longest match of at least a block, the first of those as long. -/
def best (c : Search) (source left : List UInt8) (offsets : List Nat) : Option Nat :=
  (offsets.filter fun offset => c.blockSize ≤ lengthAt c source left offset).argmax
    (lengthAt c source left)

theorem le_lengthAt_of_best {c : Search} {source left : List UInt8} {offsets : List Nat}
    {offset : Nat} (h : best c source left offsets = some offset) :
    c.blockSize ≤ lengthAt c source left offset :=
  of_decide_eq_true (List.mem_filter.mp (List.argmax_mem h)).2

/-- The offset to copy from, if there is one. -/
def choose (c : Search) (source left : List UInt8) (continuation : Option Nat) (position : Nat) :
    Option Nat :=
  best c source left
    (considered c (c.table.hash (packBytes (left.take c.blockSize))) continuation position)

/-- The instructions for what is left of a target. -/
def encodeFrom (c : Search) (source left : List UInt8) (continuation : Option Nat)
    (position : Nat) : List Instruction :=
  if left.length < c.blockSize then
    if left.length = 0 then [] else [.literal (packBytes left)]
  else
    match _h : choose c source left continuation position with
    | some offset =>
      let length := lengthAt c source left offset
      .copy (c.sourceOffset + offset) length ::
        encodeFrom c source (left.drop length) (some (offset + length)) (position + length)
    | none =>
      .literal (packBytes (left.take 1)) ::
        encodeFrom c source (left.drop 1) none (position + 1)
termination_by left.length
decreasing_by
  · have := c.table.blockSize_pos
    have := le_lengthAt_of_best _h
    simp only [Search.blockSize, List.length_drop] at *
    omega
  · have := c.table.blockSize_pos
    simp only [Search.blockSize, List.length_drop] at *
    omega

/-- The instructions for a target. -/
def encode (c : Search) (source target : List UInt8) : List Instruction :=
  encodeFrom c source target none 0

/-! ## The search -/

theorem drop_toList_chain {chain : Chain} {i : Nat} (h : i < chain.size) :
    chain.toList.drop i = chain[i] :: chain.toList.drop (i + 1) :=
  List.drop_eq_getElem_cons (by simpa using h)

/-- What a chain proposes, listed. -/
theorem candidatesFrom_eq (chain : Chain) (skipped : Option Nat) (permits : Nat → Bool)
    (i budget : Nat) :
    Search.candidatesFrom chain skipped permits i budget =
      (((chain.toList.drop i).filter fun offset => skipped != some offset).takeWhile permits).take
        budget := by
  fun_induction Search.candidatesFrom chain skipped permits i budget with
  | case1 i budget h hi offset hs ih =>
    rw [ih, drop_toList_chain hi, List.filter_cons_of_neg]
    simpa using hs
  | case2 i budget h hi offset hs hp ih =>
    obtain ⟨budget, rfl⟩ := Nat.exists_eq_succ_of_ne_zero (Nat.ne_of_gt h.2)
    rw [ih, drop_toList_chain hi, List.filter_cons_of_pos (by simpa using hs),
      List.takeWhile_cons_of_pos hp, List.take_succ_cons]
    rfl
  | case3 i budget h hi offset hs hp =>
    rw [drop_toList_chain hi, List.filter_cons_of_pos (by simpa using hs),
      List.takeWhile_cons_of_neg hp, List.take_nil]
  | case4 i budget h =>
    rcases Nat.lt_or_ge i chain.size with hi | hi
    · rw [Nat.eq_zero_of_not_pos fun hb => h ⟨hi, hb⟩, List.take_zero]
    · rw [List.drop_eq_nil_of_le (by simpa using hi), List.filter_nil, List.takeWhile_nil,
        List.take_nil]

variable {c : Search}

theorem permits_eq_admissible (c : Search) (position : Nat) :
    c.permits position = admissible c position := by
  funext offset
  rw [Search.permits, admissible, Nat.add_comm position]

/-- The engine compares the offsets that are considered. -/
theorem probes_eq_considered (hp : c.options.maxProbes ≠ 0) (hash : WindowHash)
    (continuation : Option Nat) (position : Nat) :
    c.probes hash continuation position = considered c hash continuation position := by
  have hkept : c.reliable hash continuation = kept c hash continuation := rfl
  have hone : (kept c hash continuation).toList.length ≤ 1 := by
    cases kept c hash continuation <;> simp
  have hfirst : ((kept c hash continuation).toList.filter (admissible c position)).length ≤
      c.options.maxProbes := by
    have := List.length_filter_le (admissible c position) (kept c hash continuation).toList
    omega
  rw [Search.probes, considered, permits_eq_admissible, hkept, candidatesFrom_eq, List.drop_zero,
    List.take_append, List.take_of_length_le hfirst]

/-- The match is as long as the one at its offset. -/
def Fits (c : Search) (source left : List UInt8) (m : Match c.blockSize) : Prop :=
  m.length = lengthAt c source left m.offset

/-- The best match is the one at the best offset. -/
theorem bestOf_eq_foldl (source left : List UInt8) (offsets : List Nat)
    {found : Option (Match c.blockSize)} (hf : ∀ m ∈ found, Fits c source left m) :
    (∀ m ∈ c.bestOf source left found offsets, Fits c source left m) ∧
      (c.bestOf source left found offsets).map Match.offset =
        (offsets.filter fun offset => c.blockSize ≤ lengthAt c source left offset).foldl
          (List.argAux fun a b => lengthAt c source left b < lengthAt c source left a)
          (found.map Match.offset) := by
  induction offsets generalizing found with
  | nil => exact ⟨hf, rfl⟩
  | cons offset offsets ih =>
    have hl : c.lengthAt source left offset = lengthAt c source left offset := rfl
    rw [Search.bestOf_cons, hl, Match.better]
    by_cases hb : c.blockSize ≤ lengthAt c source left offset
    · have hnew : ∀ m ∈ some (⟨offset, lengthAt c source left offset, hb⟩ : Match c.blockSize),
          Fits c source left m := by
        rintro m ⟨⟩
        rfl
      rw [List.filter_cons_of_pos (by simpa using hb), List.foldl_cons, dif_pos hb]
      cases found with
      | none => exact ih hnew
      | some m =>
        have hm : m.length = lengthAt c source left m.offset := hf m rfl
        simp only [Option.map_some, List.argAux, hm]
        split
        · exact ih hnew
        · exact ih hf
    · rw [List.filter_cons_of_neg (by simpa using hb), dif_neg hb]
      exact ih hf

theorem bestOf_eq_best (source left : List UInt8) (offsets : List Nat) :
    (∀ m ∈ c.bestOf source left none offsets, Fits c source left m) ∧
      (c.bestOf source left none offsets).map Match.offset = best c source left offsets :=
  have hnone : ∀ m ∈ (none : Option (Match c.blockSize)), Fits c source left m := nofun
  bestOf_eq_foldl source left offsets hnone

section EncodeFrom

variable {source left : List UInt8} {continuation : Option Nat} {position : Nat}

theorem encodeFrom_copy (h : c.blockSize ≤ left.length) {offset : Nat}
    (hc : choose c source left continuation position = some offset) :
    encodeFrom c source left continuation position =
      .copy (c.sourceOffset + offset) (lengthAt c source left offset) ::
        encodeFrom c source (left.drop (lengthAt c source left offset))
          (some (offset + lengthAt c source left offset))
          (position + lengthAt c source left offset) := by
  rw [encodeFrom, if_neg (Nat.not_lt.mpr h)]
  split
  · rename_i hc'
    cases hc.symm.trans hc'
    rfl
  · rename_i hc'
    cases hc.symm.trans hc'

theorem encodeFrom_byte (h : c.blockSize ≤ left.length)
    (hc : choose c source left continuation position = none) :
    encodeFrom c source left continuation position =
      .literal (packBytes (left.take 1)) ::
        encodeFrom c source (left.drop 1) none (position + 1) := by
  rw [encodeFrom, if_neg (Nat.not_lt.mpr h)]
  split
  · rename_i hc'
    cases hc.symm.trans hc'
  · rfl

end EncodeFrom

/-- The plan of an engine makes the instructions of the reference, with whatever hash it has rolled
along, as long as that is the hash of the next block. -/
theorem instructions_plan (hp : c.options.maxProbes ≠ 0) (source left : List UInt8)
    {hash : Option WindowHash} (hh : hash.getD (c.hashOf left) = c.hashOf left)
    (continuation : Option Nat) (position : Nat) :
    (c.plan source left hash continuation position).flatMap SinkStep.instructions =
      encodeFrom c source left continuation position := by
  have hpos : 0 < c.blockSize := c.table.blockSize_pos
  induction hn : left.length using Nat.strongRecOn
    generalizing left hash continuation position with
  | _ n ih =>
    subst hn
    by_cases hl : left.length < c.blockSize
    · rw [Search.plan_rest hl, encodeFrom, if_pos hl]
      split
      · rfl
      · rfl
    · have hge := Nat.le_of_not_lt hl
      obtain ⟨hfits, hbest⟩ := bestOf_eq_best (c := c) source left
        (c.probes (hash.getD (c.hashOf left)) continuation position)
      have hchoose : best c source left (c.probes (hash.getD (c.hashOf left)) continuation
          position) = choose c source left continuation position := by
        rw [hh, probes_eq_considered hp]
        rfl
      rw [hchoose] at hbest
      cases hfound : c.bestOf source left none
          (c.probes (hash.getD (c.hashOf left)) continuation position) with
      | some found =>
        have hlen : found.length = lengthAt c source left found.offset := hfits found hfound
        have hfl := found.le_length
        rw [hfound] at hbest
        rw [Search.plan_copy hge hfound, encodeFrom_copy hge hbest.symm, ← hlen, List.flatMap_cons,
          ih _ (by rw [List.length_drop]; omega) (left.drop found.length) rfl _ _ rfl]
        rfl
      | none =>
        rw [hfound] at hbest
        obtain ⟨byte, rest, rfl⟩ := List.exists_cons_of_length_pos (Nat.lt_of_lt_of_le hpos hge)
        rw [Search.plan_byte hge hfound, encodeFrom_byte hge hbest.symm, List.flatMap_cons,
          ih _ (Nat.lt_succ_self _) ((byte :: rest).drop 1)
            (by rw [hh]; exact Search.rolledAt_getD c _) _ _ rfl]
        rfl

/-- What the plan tells are the atoms of these instructions. -/
theorem atoms_plan (hp : c.options.maxProbes ≠ 0) (source target : List UInt8) :
    (c.plan source target none none 0).flatMap SinkStep.atoms = atoms (encode c source target) := by
  have hflush : ∀ step ∈ c.plan source target none none 0, step ≠ .flush :=
    Search.ne_flush_of_mem_plan c source target none none 0
  rw [SinkStep.flatMap_atoms_of_no_flush hflush, instructions_plan hp _ _ Option.getD_none]
  rfl

/-! ## Ends that can be counted -/

/-- When hashes are accepted, the table lists whatever is considered. -/
theorem lists_of_mem_considered (ha : c.options.acceptHash = true) {hash : WindowHash}
    {continuation : Option Nat} {position offset : Nat}
    (hm : offset ∈ considered c hash continuation position) : c.table.Lists hash offset := by
  rcases List.mem_append.mp (List.mem_of_mem_take hm) with hkept | hother
  · -- the end of the previous copy has to be confirmed by the table
    have hmem := Option.mem_toList.mp (List.mem_filter.mp hkept).1
    obtain ⟨-, hconfirmed⟩ := Option.filter_eq_some_iff.mp hmem
    rw [ha, Bool.not_true, Bool.false_or] at hconfirmed
    exact BlockTable.lists_of_contains hconfirmed
  · have hcandidate := List.takeWhile_subset _ hother
    exact BlockTable.lists_of_mem_candidates (List.mem_filter.mp hcandidate).1

/-- The plan goes on over a table that lists nothing but complete blocks of the source. -/
theorem goesOn_plan_of_lists (hp : c.options.maxProbes ≠ 0) {source : List UInt8}
    (hl : ∀ {hash : WindowHash} {offset : Nat}, c.table.Lists hash offset →
      offset + c.blockSize ≤ source.length) (target : List UInt8) :
    ∀ step ∈ c.plan source target none none 0,
      Search.GoesOn c.sourceOffset source.length step := by
  cases ha : c.options.acceptHash with
  | false => exact Search.goesOn_plan_of_compared ha source target none none 0
  | true =>
    refine Search.goesOn_plan fun {left hash continuation position found} hbest => ?_
    obtain ⟨hfits, hoffset⟩ :=
      bestOf_eq_best (c := c) source left (c.probes hash continuation position)
    have hlength : found.length = c.blockSize := (hfits found hbest).trans (if_pos ha)
    rw [hbest, probes_eq_considered hp] at hoffset
    have hconsidered := (List.mem_filter.mp (List.argmax_mem hoffset.symm)).1
    have hle := hl (lists_of_mem_considered ha hconsidered)
    exact .inl (by omega)

/-- The plan goes on as long as the ends of the copies in the reference can be counted. -/
theorem goesOn_of_countable {steps : List SinkStep} {sourceLength : Nat}
    (h : ∀ copy ∈ copies (steps.flatMap SinkStep.instructions),
      Search.Countable sourceLength copy.1 copy.2) :
    ∀ step ∈ steps, Search.GoesOn 0 sourceLength step := by
  intro step hm
  cases step with
  | copy offset length =>
    rw [Search.GoesOn, Nat.sub_zero]
    exact h (offset, length) (mem_copies_iff.mpr (SinkStep.copy_mem_of_mem hm))
  | byte value => trivial
  | literal bytes => trivial
  | flush => trivial

/-- If matches are compared, the end of every copy lies in the source. -/
theorem countable_encode (hp : c.options.maxProbes ≠ 0) (ha : c.options.acceptHash = false)
    (hs : c.sourceOffset = 0) (source target : List UInt8) :
    ∀ copy ∈ copies (encode c source target), Search.Countable source.length copy.1 copy.2 := by
  intro copy hm
  have hsound := Search.sound_plan ha source target none none 0
  rw [instructions_plan hp source target Option.getD_none] at hsound
  obtain ⟨-, -, hend⟩ := hsound.copies copy hm
  exact .inl (by omega)

end Greedy

namespace Engine

variable {σ ρ : Type} [Source σ] [ByteReader ρ] {source target : List UInt8} {src : σ} {r : ρ}

/-- A table that was kept, and built, is used as it is. -/
theorem prepareTable_of_built {e : Engine} {t : BlockTable} (hf : e.fittingTable? = some t)
    (hb : t.built = true) (src : σ) : e.prepareTable src = (.ok t, src) := by
  unfold prepareTable
  rw [hf]
  exact if_pos hb

/-- If the plan over the table that it comes to use can be carried out, an engine collects the
instructions of the reference. -/
theorem compute_of_goesOn {H : σ → Prop} (k : Source.Holding H source)
    (hr : ByteReader.Delivers r target) {e : Engine} (he : e.options.problem? = none)
    {table : BlockTable} {src' : σ} (hprep : e.prepareTable src = (.ok table, src')) (hs : H src')
    (hgoes : ∀ step ∈ Search.plan { table, options := e.options } source target none none 0,
      Search.GoesOn 0 source.length step) :
    let outcome := e.compute src r ({} : Collector)
    (∃ stats, outcome.result = .ok stats) ∧
      outcome.sink = { ({} : Collector).addAll
        (Greedy.encode { table, options := e.options } source target) with closed := true } := by
  obtain ⟨R, d, hr⟩ := hr
  have hprobes : e.options.maxProbes ≠ 0 := (EngineOptions.problem?_eq_none_iff.mp he).2
  obtain ⟨hresult, hsink⟩ := compute_of_computeSegment
    (computeSegment_of_goesOn k d hr he hprep hs hgoes ({} : Collector))
  rw [Collector.feed_collector, SinkStep.flatMap_instructions_flush,
    Greedy.instructions_plan hprobes source target Option.getD_none] at hresult hsink
  exact ⟨⟨_, hresult⟩, hsink⟩

/-- **The engine is the greedy encoder.** Over the table that it has kept or made, an engine
collects the instructions of the reference, however source and target hand out their bytes, if the
end of every copy among them can be counted. The first copy of which it cannot is collected as well,
and there the computation is given up. -/
theorem compute_greedy (hs : Source.Holds src source) (hr : ByteReader.Delivers r target)
    {e : Engine} (he : e.options.problem? = none) :
    ∃ table src', e.prepareTable src = (.ok table, src') ∧
      table.blockSize = e.options.chunkSize ∧
      (∀ t, e.fittingTable? = some t → t.built = true → table = t) ∧
      let reference := Greedy.encode { table, options := e.options } source target
      let outcome := e.compute src r ({} : Collector)
      ((∀ copy ∈ copies reference, Search.Countable source.length copy.1 copy.2) →
        (∃ stats, outcome.result = .ok stats) ∧
          outcome.sink = { ({} : Collector).addAll reference with closed := true }) ∧
      ∀ {front back : List Instruction} {offset length : Nat},
        reference = front ++ .copy offset length :: back →
        (∀ copy ∈ copies front, Search.Countable source.length copy.1 copy.2) →
        ¬ Search.Countable source.length offset length →
          outcome.result = .error (.overflow .sum) ∧
            outcome.sink = ({} : Collector).addAll (front ++ [.copy offset length]) := by
  obtain ⟨H, k, hs⟩ := hs
  obtain ⟨table, src', hprep, hs', hb⟩ := exists_prepareTable k he hs
  have hprobes : e.options.maxProbes ≠ 0 := (EngineOptions.problem?_eq_none_iff.mp he).2
  let c : Search := { table, options := e.options }
  have hplan : (c.plan source target none none 0).flatMap SinkStep.instructions =
      Greedy.encode c source target :=
    Greedy.instructions_plan hprobes source target Option.getD_none none 0
  refine ⟨table, src', hprep, hb, ?_, ?_, ?_⟩
  · intro t hf hbuilt
    rw [prepareTable_of_built hf hbuilt] at hprep
    exact (Except.ok.inj (Prod.mk.inj hprep).1).symm
  · intro hcount
    rw [← hplan] at hcount
    exact compute_of_goesOn k hr he hprep hs' (Greedy.goesOn_of_countable hcount)
  · intro front back offset length heq hfront hlast
    obtain ⟨before, after, hsteps, rfl⟩ := SinkStep.exists_split_of_copy
      (Search.ne_flush_of_mem_plan c source target none none 0) (hplan.trans heq)
    have hstep : ¬ Search.GoesOn 0 source.length (.copy offset length) := hlast
    have hgoes := Greedy.goesOn_of_countable hfront
    obtain ⟨R, d, hr⟩ := hr
    obtain ⟨hresult, hsink⟩ := compute_of_computeSegment
      (computeSegment_of_prepareTable k d hr he hprep hs' 0 0 ({} : Collector))
    rw [hsteps, List.append_assoc, List.cons_append, Search.carryOut_stuck hgoes hstep,
      Collector.feed_collector, List.flatMap_append] at hresult hsink
    exact ⟨hresult, hsink⟩

/-- A kept table that proposes two blocks for one hash, of which only one may be compared, and a
target that goes on behind a copy. -/
theorem compute_greedy_kept :
    let blocks := packBytes [1, 2, 3, 4, 1, 2]
    let table := ((BlockTable.empty 2 false (by decide)).insertBlocks blocks 0 0 3).finish 6
    let e : Engine := ⟨{ chunkSize := 2, keepSource := true, maxProbes := 1 }, some table⟩
    let source : MemoryStream := ⟨packBytes [1, 2, 3, 4, 1, 2, 9], 0⟩
    let target : MemoryStream := ⟨packBytes [3, 4, 1, 2, 9, 1, 2, 9, 7], 0⟩
    let outcome := e.compute source target ({} : Collector)
    (∃ stats, outcome.result = .ok stats) ∧
      outcome.sink = { ({} : Collector).addAll (Greedy.encode { table, options := e.options }
        source.bytes.data.toList target.bytes.data.toList) with closed := true } := by
  intro blocks table e source target outcome
  obtain ⟨used, _, -, -, hkept, hall, -⟩ :=
    compute_greedy (MemoryStream.holds source) (MemoryStream.delivers target) (e := e) rfl
  obtain rfl : used = table := hkept table rfl rfl
  exact hall (Greedy.countable_encode (by decide) rfl rfl _ _)

/-- A stored table with a block of the hash of `[1, 2]` at the last 64-bit offset, and hashes
accepted: the reference goes on behind the copy of this block, and the computation does not. -/
theorem compute_greedy_forged :
    let forged : MemoryStream := ⟨packBytes [0, 0, 0, 2, 1, 0x9E, 0x37, 0x79, 0xB9, 0x7F, 0x4A,
      0x7C, 0x15, 0, 0, 0, 0, 0, 0, 0, 0, 0, 0, 0, 0, 0, 0, 0, 1, 6, 0x13, 0xFF, 0x4F, 0, 0, 0, 1,
      0xFF, 0xFF, 0xFF, 0xFF, 0xFF, 0xFF, 0xFF, 0xFF], 0⟩
    let loading := load { options := { acceptHash := true } } forged
    let e := loading.2.1
    let source : MemoryStream := ⟨packBytes [5, 6], 0⟩
    let target : MemoryStream := ⟨packBytes [1, 2, 3], 0⟩
    let outcome := e.compute source target ({} : Collector)
    loading.1 = .ok () ∧ ∃ table, e.fittingTable? = some table ∧ table.built = true ∧
      Greedy.encode { table, options := e.options } source.bytes.data.toList
          target.bytes.data.toList =
        [.copy 0xFFFFFFFFFFFFFFFF 2, .literal (packBytes [3])] ∧
      outcome.result = .error (.overflow .sum) ∧
      outcome.sink.instructions = #[.copy 0xFFFFFFFFFFFFFFFF 2] := by
  intro forged loading e source target outcome
  have hfits : e.fittingTable?.isSome = true := by decide +kernel
  exact ⟨by decide +kernel, e.fittingTable?.get hfits, (Option.some_get hfits).symm,
    by decide +kernel +revert, by decide +kernel +revert, by decide +kernel, by decide +kernel⟩

end Engine

end BinaryDelta
