import BinaryDelta.Proofs.Engine.Emitted
import Mathlib.Data.List.TakeWhile

/-!
# Copies that look back

With autocode, an engine copies only from in front of the place that it describes. Source and target
are then meant to be the same data, and what is copied has been rebuilt before. The end of a copy
may lie behind the place where it is put: such a copy takes up, byte by byte, what it has appended
itself.

* `LooksBack place is` says that every copy among the instructions starts in front of where it is
  put, if the first of them is put at `place`.
* `rebuildAlone` rebuilds from instructions and from what they have rebuilt so far, with no source.

Results:
* `Greedy.looksBack_encodeFrom`: with autocode, the reference looks back, whatever the table.
* `Collector.looksBack_addAll`: how literals were cut makes no difference to that.
* `rebuildAlone_of_rebuilds`: what looks back and rebuilds the data over the data itself needs no
  source for it.
* **`Engine.compute_causal`**: an engine with autocode makes copies that look back, and what it
  makes of data over itself can be rebuilt alone.
-/

namespace BinaryDelta

/-- Every copy starts in front of where it is put, and the first instruction is put at `place`. -/
def LooksBack (place : Nat) : List Instruction → Prop
  | [] => True
  | .copy offset length :: is => offset < place ∧ LooksBack (place + length) is
  | .literal bytes :: is => LooksBack (place + bytes.size) is

theorem looksBack_literal (place : Nat) (bytes : ByteArray) : LooksBack place [.literal bytes] :=
  trivial

theorem looksBack_cons {place : Nat} {i : Instruction} {is : List Instruction} :
    LooksBack place (i :: is) ↔ LooksBack place [i] ∧ LooksBack (place + i.outputLength) is := by
  cases i with
  | copy offset length => simp [LooksBack, Instruction.outputLength]
  | literal bytes => simp [LooksBack, Instruction.outputLength]

theorem looksBack_append {place : Nat} {is is' : List Instruction} :
    LooksBack place (is ++ is') ↔
      LooksBack place is ∧ LooksBack (place + outputLength is) is' := by
  induction is generalizing place with
  | nil => simp [LooksBack]
  | cons i is ih =>
    rw [List.cons_append, looksBack_cons, ih, @looksBack_cons place i is, outputLength_cons,
      Nat.add_assoc, and_assoc]

/-- Any copy among the instructions looks back. -/
theorem LooksBack.lt {place : Nat} {front back : List Instruction} {offset length : Nat}
    (h : LooksBack place (front ++ .copy offset length :: back)) :
    offset < place + outputLength front :=
  (looksBack_append.mp h).2.1

/-! ## What is collected -/

namespace Collector

/-- A collector with one more instruction looks back if that does. -/
theorem looksBack_add {place : Nat} {c : Collector} {i : Instruction}
    (hc : LooksBack place c.instructions.toList)
    (hi : LooksBack (place + BinaryDelta.outputLength c.instructions.toList) [i]) :
    LooksBack place (c.add i).instructions.toList := by
  rcases c with ⟨instructions, closed⟩
  cases i with
  | copy offset length =>
    simp only [add, addCopy, Array.toList_push]
    exact looksBack_append.mpr ⟨hc, hi⟩
  | literal bytes =>
    rw [add]
    by_cases hb : bytes.size = 0
    · rwa [ByteArray.size_eq_zero_iff.mp hb, addLiteral_empty]
    · cases hl : endsInLiteral instructions with
      | true =>
        obtain ⟨front, run, rfl⟩ := exists_of_endsInLiteral hl
        rw [Array.toList_push] at hc
        rw [addLiteral_push, Array.toList_push]
        exact looksBack_append.mpr ⟨(looksBack_append.mp hc).1, looksBack_literal _ _⟩
      | false =>
        rw [addLiteral_of_not hl hb, Array.toList_push]
        exact looksBack_append.mpr ⟨hc, looksBack_literal _ _⟩

theorem looksBack_addAll {place : Nat} {c : Collector} {is : List Instruction}
    (hc : LooksBack place c.instructions.toList)
    (hi : LooksBack (place + BinaryDelta.outputLength c.instructions.toList) is) :
    LooksBack place (c.addAll is).instructions.toList := by
  induction is generalizing c with
  | nil => exact hc
  | cons i is ih =>
    obtain ⟨h₁, h₂⟩ := looksBack_cons.mp hi
    refine ih (looksBack_add hc h₁) ?_
    have hlen := outputLength_addAll c [i]
    simp only [addAll_cons, addAll_nil, outputLength_cons, outputLength_nil, Nat.add_zero] at hlen
    rwa [hlen, ← Nat.add_assoc]

end Collector

/-! ## What is emitted -/

namespace Greedy

variable {c : Search} {source left : List UInt8} {continuation : Option Nat} {position offset : Nat}

/-- Only admissible offsets are considered. -/
theorem admissible_of_mem_considered {hash : WindowHash}
    (h : offset ∈ considered c hash continuation position) :
    admissible c position offset = true := by
  unfold considered at h
  rcases List.mem_append.mp (List.mem_of_mem_take h) with hkept | hothers
  · exact (List.mem_filter.mp hkept).2
  · exact List.mem_takeWhile_imp hothers

/-- With autocode, the offset to copy from lies in front of the place that is described. -/
theorem lt_of_choose (ha : c.options.autocode = true)
    (h : choose c source left continuation position = some offset) :
    c.sourceOffset + offset < c.targetOffset + position := by
  have hmem := (List.mem_filter.mp (List.argmax_mem h)).1
  have hadm := admissible_of_mem_considered hmem
  simpa [admissible, ha] using hadm

/-- With autocode, the reference looks back. -/
theorem looksBack_encodeFrom (ha : c.options.autocode = true) (source left : List UInt8)
    (continuation : Option Nat) (position : Nat) :
    LooksBack (c.targetOffset + position) (encodeFrom c source left continuation position) := by
  fun_induction encodeFrom c source left continuation position with
  | case1 => trivial
  | case2 => exact looksBack_literal _ _
  | case3 left continuation position hl offset hc length ih =>
    rw [← Nat.add_assoc] at ih
    exact ⟨lt_of_choose ha hc, ih⟩
  | case4 left continuation position hl hc ih =>
    have hone : (left.take 1).length = 1 := by
      have := c.table.blockSize_pos
      unfold Search.blockSize at hl
      rw [List.length_take]
      omega
    rw [looksBack_cons, Instruction.outputLength, size_packBytes, hone, Nat.add_assoc]
    exact ⟨looksBack_literal _ _, ih⟩

end Greedy

/-! ## Rebuilding without a source -/

/-- Appends `length` bytes of the output itself, from `offset` on and one by one, so that the last
of them may be bytes appended just before. -/
def copyBack (output : List UInt8) (offset : Nat) : Nat → Option (List UInt8)
  | 0 => some output
  | length + 1 =>
    match output[offset]? with
    | none => none
    | some byte => copyBack (output ++ [byte]) (offset + 1) length

/-- Appends what the instruction stands for, with the output so far in place of a source. -/
def Instruction.extend (output : List UInt8) : Instruction → Option (List UInt8)
  | copy offset length => copyBack output offset length
  | literal bytes => some (output ++ bytes.data.toList)

/-- What instructions rebuild behind an output, out of that and of what they have rebuilt. -/
def rebuildAlone (output : List UInt8) (is : List Instruction) : Option (List UInt8) :=
  is.foldlM Instruction.extend output

/-- A copy from further in front goes on with the data, if that goes on as it did there. -/
theorem copyBack_take {data : List UInt8} {place offset length : Nat} (ho : offset < place)
    (hl : place + length ≤ data.length)
    (heq : (data.drop offset).take length = (data.drop place).take length) :
    copyBack (data.take place) offset length = some (data.take (place + length)) := by
  induction length generalizing place offset with
  | zero => rfl
  | succ length ih =>
    have hplace : place < data.length := by omega
    have hoffset : offset < data.length := by omega
    rw [List.drop_eq_getElem_cons hoffset, List.drop_eq_getElem_cons hplace, List.take_succ_cons,
      List.take_succ_cons] at heq
    obtain ⟨hbyte, hrest⟩ := List.cons.inj heq
    have hhead : (data.take place)[offset]? = some data[place] := by
      rw [List.getElem?_take_of_lt ho, List.getElem?_eq_getElem hoffset, hbyte]
    have hnext : data.take place ++ [data[place]] = data.take (place + 1) := by
      rw [List.take_add_one, List.getElem?_eq_getElem hplace, Option.toList_some]
    rw [copyBack, hhead]
    simp only [hnext]
    rw [ih (by omega) (by omega) hrest, Nat.add_right_comm, Nat.add_assoc]

/-- One instruction that looks back and rebuilds the next part of the data appends it. -/
theorem extend_of_rebuilds {data front back : List UInt8} {place : Nat} {i : Instruction}
    (hb : LooksBack place [i]) (hdata : data.drop place = front ++ back)
    (hp : place ≤ data.length) (hr : Rebuilds data [i] front) :
    i.extend (data.take place) = some (data.take (place + front.length)) := by
  have hlen := congrArg List.length hdata
  rw [List.length_drop, List.length_append] at hlen
  cases i with
  | copy offset length =>
    obtain ⟨-, hfront⟩ := rebuilds_copy_iff.mp hr
    have hlength : front.length = length := length_of_rebuilds hr
    have heq : (data.drop offset).take length = (data.drop place).take length := by
      rw [← hfront, hdata, ← hlength, List.take_left]
    rw [Instruction.extend, copyBack_take hb.1 (by omega) heq, hlength]
  | literal bytes =>
    have hfront : front = bytes.data.toList := rebuilds_literal_iff.mp hr
    rw [Instruction.extend, List.take_add, hdata, List.take_left, hfront]

/-- Instructions that look back and rebuild the rest of the data over the data itself rebuild it
alone. -/
theorem rebuildAlone_of_rebuilds {data : List UInt8} {place : Nat} {is : List Instruction}
    (hb : LooksBack place is) (hp : place ≤ data.length)
    (hr : Rebuilds data is (data.drop place)) :
    rebuildAlone (data.take place) is = some data := by
  induction is generalizing place with
  | nil =>
    have hnil : data.drop place = [] := hr.unique rebuilds_nil
    rw [List.take_of_length_le (List.drop_eq_nil_iff.mp hnil)]
    rfl
  | cons i is ih =>
    rw [← List.singleton_append] at hr
    obtain ⟨front, back, hdata, hfront, hback⟩ := rebuilds_append_iff.mp hr
    obtain ⟨h₁, h₂⟩ := looksBack_cons.mp hb
    have hlen := congrArg List.length hdata
    rw [List.length_drop, List.length_append] at hlen
    have hi : i.outputLength = front.length := by
      rw [length_of_rebuilds hfront]
      rfl
    have hdrop : data.drop (place + front.length) = back := by
      rw [← List.drop_drop, hdata, List.drop_left]
    rw [hi] at h₂
    have hrest := ih h₂ (by omega) (by rwa [hdrop])
    unfold rebuildAlone at *
    rw [List.foldlM_cons, extend_of_rebuilds h₁ hdata hp hfront]
    exact hrest

/-! ## Engines -/

namespace Search

variable {c : Search}

/-- With autocode, no copy ends behind the place up to which the target has been described, so all
ends can be counted if that of the target can. -/
theorem goesOn_plan_of_autocode (hp : c.options.maxProbes ≠ 0) (ha : c.options.autocode = true)
    (source : List UInt8) {target : List UInt8}
    (hshort : c.targetOffset + target.length < 0x10000000000000000) :
    ∀ step ∈ c.plan source target none none 0, GoesOn c.sourceOffset source.length step := by
  intro step hm
  cases step with
  | copy offset length =>
    have hmem := SinkStep.copy_mem_of_mem hm
    rw [Greedy.instructions_plan hp source target Option.getD_none] at hmem
    obtain ⟨front, back, heq⟩ := List.append_of_mem hmem
    have hback := Greedy.looksBack_encodeFrom ha source target none 0
    rw [heq] at hback
    have hlt := hback.lt
    have hlength := Greedy.outputLength_encode c source target
    rw [Greedy.encode, heq, outputLength_append, outputLength_cons, Instruction.outputLength]
      at hlength
    exact .inr (by omega)
  | byte value => trivial
  | literal bytes => trivial
  | flush => trivial

/-- A collector on which calls are carried out holds the first of them. -/
theorem exists_carryOut_collector (sourceOffset sourceLength : Nat) (collector : Collector)
    (steps : List SinkStep) : ∃ done rest, steps = done ++ rest ∧
      (carryOut sourceOffset sourceLength collector steps).2 =
        collector.addAll (done.flatMap SinkStep.instructions) := by
  induction steps generalizing collector with
  | nil => exact ⟨[], [], rfl, rfl⟩
  | cons step steps ih =>
    have hstep := Collector.feed_collector collector [step]
    rw [feed_singleton] at hstep
    rw [carryOut_cons, hstep, andThen_ok]
    split
    · obtain ⟨done, rest, rfl, hdone⟩ := ih (collector.addAll ([step].flatMap _))
      refine ⟨step :: done, rest, rfl, ?_⟩
      rw [hdone, ← Collector.addAll_append, ← List.flatMap_append, List.singleton_append]
    · exact ⟨[step], steps, rfl, rfl⟩

/-- With autocode, what is collected from the first calls of a plan looks back. -/
theorem looksBack_collected (hp : c.options.maxProbes ≠ 0) (ha : c.options.autocode = true)
    (source target : List UInt8) {done rest : List SinkStep}
    (h : c.plan source target none none 0 ++ [.flush] = done ++ rest) :
    LooksBack c.targetOffset (({} : Collector).addAll
      (done.flatMap SinkStep.instructions)).instructions.toList := by
  have hplan := Greedy.instructions_plan (c := c) hp source target Option.getD_none none 0
  have hback := Greedy.looksBack_encodeFrom ha source target none 0
  rw [← hplan, ← SinkStep.flatMap_instructions_flush, h, List.flatMap_append] at hback
  exact Collector.looksBack_addAll trivial (looksBack_append.mp hback).1

/-- What is collected from a plan over the data itself rebuilds the data alone. -/
theorem rebuildAlone_collected (hp : c.options.maxProbes ≠ 0) (ha : c.options.autocode = true)
    (hc : c.options.acceptHash = false) (hs : c.sourceOffset = 0) (ht : c.targetOffset = 0)
    (data : List UInt8) :
    rebuildAlone [] (({} : Collector).addAll
      ((c.plan data data none none 0).flatMap SinkStep.instructions)).instructions.toList =
        some data := by
  have hback := looksBack_collected hp ha data data rfl
  have hlies : LiesAt data data c.sourceOffset := by
    rw [hs, LiesAt, List.drop_zero, List.take_length]
  have hrebuilds := (sound_plan hc data data none none 0).rebuilds hlies
  rw [← rebuilds_congr (Collector.origins_addAll {} _)] at hrebuilds
  rw [ht] at hback
  exact rebuildAlone_of_rebuilds hback (Nat.zero_le _) hrebuilds

end Search

namespace Engine

variable {σ ρ : Type} [Source σ] [ByteReader ρ] {source target : List UInt8} {src : σ} {r : ρ}

/-- **Autocode is causal.** Over whatever table, an engine with autocode makes copies that start in
front of the place in the target that they rebuild, and it succeeds where that can be counted up to
the end. What it makes of data over the data itself, with every match compared, therefore rebuilds
the data without a source. -/
theorem compute_causal (hs : Source.Holds src source) (hr : ByteReader.Delivers r target)
    {e : Engine} (he : e.options.problem? = none) (ha : e.options.autocode = true) :
    (∀ sourceOffset targetOffset : Nat,
      let outcome := e.computeSegment src r ({} : Collector) sourceOffset targetOffset
      (targetOffset + target.length < 0x10000000000000000 → ∃ stats, outcome.result = .ok stats) ∧
        ∀ {front back : List Instruction} {offset length : Nat},
          outcome.sink.instructions.toList = front ++ .copy offset length :: back →
            offset < targetOffset + outputLength front) ∧
      (source = target → e.options.acceptHash = false →
        let outcome := e.compute src r ({} : Collector)
        (∃ stats, outcome.result = .ok stats) ∧
          rebuildAlone [] outcome.sink.instructions.toList = some target) := by
  have hprobes : e.options.maxProbes ≠ 0 := (EngineOptions.problem?_eq_none_iff.mp he).2
  constructor
  · intro sourceOffset targetOffset
    obtain ⟨H, k, hs⟩ := hs
    obtain ⟨R, d, hr⟩ := hr
    obtain ⟨table, src', hprep, hs', -⟩ := exists_prepareTable k he hs
    let c : Search := { table, options := e.options, sourceOffset, targetOffset }
    obtain ⟨hresult, hsink⟩ :=
      computeSegment_of_prepareTable k d hr he hprep hs' sourceOffset targetOffset ({} : Collector)
    constructor
    · intro hshort
      have hgoes := Search.goesOn_flush (Search.goesOn_plan_of_autocode (c := c) hprobes ha source
        hshort)
      rw [Search.carryOut_eq_feed hgoes, Collector.feed_collector] at hresult
      exact ⟨_, hresult⟩
    · intro front back offset length hcollected
      obtain ⟨done, rest, hsteps, hdone⟩ := Search.exists_carryOut_collector sourceOffset
        source.length {} (c.plan source target none none 0 ++ [.flush])
      have hback := Search.looksBack_collected (c := c) hprobes ha source target hsteps
      rw [← hdone, ← hsink, hcollected] at hback
      exact hback.lt
  · rintro rfl hc
    obtain ⟨table, -, hcompute⟩ := exists_compute (κ := Collector) hs hr he hc
    obtain ⟨hresult, hsink⟩ := hcompute {}
    rw [complete, Collector.feed_collector, SinkStep.flatMap_instructions_flush] at hresult hsink
    refine ⟨⟨_, hresult⟩, ?_⟩
    rw [hsink]
    exact Search.rebuildAlone_collected (c := { table, options := e.options }) hprobes ha hc rfl
      rfl source

/-- Data that repeats itself, over a kept table: the copy is longer than what is there to be copied
when it begins. -/
theorem compute_causal_overlapping :
    let blocks := packBytes [1, 2, 1, 2]
    let table := ((BlockTable.empty 2 false (by decide)).insertBlocks blocks 0 0 2).finish 4
    let e : Engine := ⟨{ chunkSize := 2, keepSource := true, autocode := true }, some table⟩
    let data : MemoryStream := ⟨packBytes [1, 2, 1, 2, 1, 2, 1, 2, 1], 0⟩
    let segment := e.computeSegment data data ({} : Collector) 70 72
    let whole := e.compute data data ({} : Collector)
    ((∃ stats, segment.result = .ok stats) ∧
      ∀ {front back : List Instruction} {offset length : Nat},
        segment.sink.instructions.toList = front ++ .copy offset length :: back →
          offset < 72 + outputLength front) ∧
      (∃ stats, whole.result = .ok stats) ∧
        rebuildAlone [] whole.sink.instructions.toList = some data.bytes.data.toList := by
  intro blocks table e data segment whole
  have h := compute_causal (e := e) (MemoryStream.holds data) (MemoryStream.delivers data) rfl rfl
  obtain ⟨hsegment, hback⟩ := h.1 70 72
  exact ⟨⟨hsegment (by decide), hback⟩, h.2 rfl rfl⟩

end Engine

end BinaryDelta
