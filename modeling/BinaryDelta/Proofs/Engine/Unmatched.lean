import BinaryDelta.Proofs.Engine.Emitted
import Mathlib.Data.List.TakeWhile

/-!
# What is not copied

A byte of the target becomes literal because nothing was found to copy, and that nothing was found
is no accident. If the engine may compare every block of the source, and no rule keeps it from
copying, then there was nothing to be found: at the byte begins no block of the source.

* `BlockBegins` holds of the positions of a target where a block of the source begins.
* `Unmatched` is what may be emitted at a position of the target when no block is missed.

Results:
* `Greedy.mem_considered_of_size_lt`: with probes enough for all blocks, all candidates are
  considered.
* `Greedy.le_lengthAt_of_windowAt_eq`: a block that lies in both is a match.
* `Greedy.makes_unmatched`: so the reference copies wherever a block begins.
* **`Engine.compute_unmatched`**: an engine makes no byte literal where a block begins.
-/

namespace BinaryDelta

/-- At this position of the target begins one of the blocks of the source. -/
def BlockBegins (size : Nat) (source target : List UInt8) (position : Nat) : Prop :=
  ∃ i, (i + 1) * size ≤ source.length ∧
    windowAt target size position = windowAt source size (i * size)

/-- What may be emitted at a position of the target when no block is missed: a copy, or a byte where
no block of the source begins, unless there is no room for one. -/
inductive Unmatched (size : Nat) (source target : List UInt8) : Nat → Atom → Prop
  | copy (position offset length : Nat) : Unmatched size source target position (.copy offset length)
  | byte {position : Nat} (value : UInt8)
      (h : position + size ≤ target.length → ¬ BlockBegins size source target position) :
      Unmatched size source target position (.byte value)

namespace Greedy

variable {c : Search}

/-- With probes enough for all candidates and the end of the previous copy, they are all
considered. -/
theorem mem_considered_of_size_lt (ha : c.options.autocode = false) {hash : WindowHash}
    (hn : (c.table.candidates hash).size < c.options.maxProbes) {offset : Nat}
    (hm : offset ∈ (c.table.candidates hash).toList) (continuation : Option Nat) (position : Nat) :
    offset ∈ considered c hash continuation position := by
  have hadmissible : admissible c position = fun _ => true := by
    funext offset
    rw [admissible, ha, Bool.not_false, Bool.true_or]
  have hall : considered c hash continuation position =
      (kept c hash continuation).toList ++
        (c.table.candidates hash).toList.filter fun offset =>
          kept c hash continuation != some offset := by
    have hone : (kept c hash continuation).toList.length ≤ 1 := by
      cases kept c hash continuation <;> simp
    have hothers := List.length_filter_le
      (fun offset => kept c hash continuation != some offset) (c.table.candidates hash).toList
    rw [(c.table.candidates hash).length_toList] at hothers
    rw [considered, hadmissible, List.filter_true, List.takeWhile_eq_self_iff.mpr fun _ _ => rfl]
    refine List.take_of_length_le ?_
    rw [List.length_append]
    omega
  rw [hall, List.mem_append]
  by_cases hk : kept c hash continuation = some offset
  · exact .inl (Option.mem_toList.mpr hk)
  · exact .inr (List.mem_filter.mpr ⟨hm, bne_iff_ne.mpr hk⟩)

/-- A block of the source that the target goes on with is a match. -/
theorem le_lengthAt_of_windowAt_eq (hb : c.blockSize ≤ longestMatch) {source left : List UInt8}
    {offset : Nat} (hl : offset + c.blockSize ≤ source.length)
    (heq : left.take c.blockSize = windowAt source c.blockSize offset) :
    c.blockSize ≤ lengthAt c source left offset := by
  unfold lengthAt
  split
  · exact Nat.le_refl _
  · have hlength : c.blockSize ≤ (source.drop offset).length := by
      rw [List.length_drop]
      omega
    exact Nat.le_min.mpr ⟨hb, le_commonPrefix heq.symm hlength⟩

/-- Over the table of the source, the reference makes no byte literal where a block begins. -/
theorem makes_unmatched {o : EngineOptions} (ho : o.problem? = none) (ha : o.autocode = false)
    (hd : o.duplicate = false) (hpos : 0 < o.chunkSize) {source : List UInt8}
    (hn : source.length / o.chunkSize < o.maxProbes) (target : List UInt8) :
    Makes (.ofSource source o hpos) source target (Unmatched o.chunkSize source target) := by
  let c := Search.ofSource source o hpos
  have hsize : c.blockSize = o.chunkSize := Search.blockSize_ofSource hpos
  have henumerates : c.table.Enumerates source (source.length / o.chunkSize) :=
    Search.enumerates_ofSource hpos
  have hone : c.table.secondary = none ∧ c.table.primary.limit = none := by
    have hnone := BlockTable.secondary_ofBytes (h := hpos) source
    rwa [← hd] at hnone
  have hprobes : ∀ hash, (c.table.candidates hash).size < c.options.maxProbes := fun hash =>
    Nat.lt_of_le_of_lt (henumerates.size_candidates_le hone.1 hash) hn
  constructor
  case copy => exact fun _ _ => .copy _ _ _
  case rest =>
    intro position value hshort _
    refine .byte value fun hle => ?_
    exact absurd hle (Nat.not_le_of_lt (hsize ▸ hshort))
  case byte =>
    intro position value continuation _ hnone _
    refine .byte value fun _ => ?_
    rintro ⟨i, hblock, heq⟩
    have hi : i < source.length / o.chunkSize :=
      (Nat.le_div_iff_mul_le hpos).mpr hblock
    rw [← hsize] at hblock heq
    have hcandidate : i * c.blockSize ∈ (c.table.candidates (c.table.hash (packBytes
        (windowAt source c.blockSize (i * c.blockSize))))).toList :=
      henumerates.mem_candidates hone.1 hone.2 hi
    rw [← heq] at hcandidate
    have hconsidered := mem_considered_of_size_lt ha (hprobes _) hcandidate continuation position
    have hlength : c.blockSize ≤ lengthAt c source (target.drop position) (i * c.blockSize) := by
      rw [Nat.succ_mul] at hblock
      exact le_lengthAt_of_windowAt_eq (hsize ▸ EngineOptions.chunkSize_le ho) hblock heq
    exact choose_ne_none hconsidered hlength hnone

end Greedy

namespace Engine

variable {σ ρ : Type} [Source σ] [ByteReader ρ] {source target : List UInt8} {src : σ} {r : ρ}
  {e : Engine}

/-- **No block is missed.** Where an engine may copy from any offset, hashes once, and has more
probes than the source has blocks, a byte that it makes literal is no place where a block of the
source begins. -/
theorem compute_unmatched (hs : Source.Holds src source) (hr : ByteReader.Delivers r target)
    (he : e.options.problem? = none) (ha : e.options.autocode = false)
    (hd : e.options.duplicate = false) (hi : e.Indexes source)
    (hn : source.length / e.options.chunkSize < e.options.maxProbes) :
    let outcome := e.compute src r ({} : Collector)
    let emitted := outcome.sink.instructions.toList
    let size := e.options.chunkSize
    (∃ stats, outcome.result = .ok stats) ∧
      ∀ position value, Emits emitted position (.byte value) → position + size ≤ target.length →
        ¬ BlockBegins size source target position := by
  obtain ⟨hresult, hspans⟩ := hi.spans_compute he hs hr fun hpos =>
    Greedy.makes_unmatched he ha hd hpos hn target
  refine ⟨hresult, ?_⟩
  intro position value hat hle
  cases hspans.of_emits hat with
  | byte _ h => exact h hle

/-- As many blocks as there may be, three of them equal, and a target with blocks between
literals. -/
theorem compute_unmatched_probes :
    let source : MemoryStream := ⟨packBytes [1, 2, 1, 2, 3, 4, 1, 2, 9], 0⟩
    let target : MemoryStream := ⟨packBytes [7, 1, 2, 8, 3, 4, 2, 1, 9], 0⟩
    let e : Engine := { options := { chunkSize := 2, maxProbes := 5 } }
    let outcome := e.compute source target ({} : Collector)
    let emitted := outcome.sink.instructions.toList
    source.bytes.data.toList.length / 2 < 5 ∧
      (∃ stats, outcome.result = .ok stats) ∧
      ∀ position value, Emits emitted position (.byte value) →
        position + 2 ≤ target.bytes.data.toList.length →
        ¬ BlockBegins 2 source.bytes.data.toList target.bytes.data.toList position := by
  intro source target e
  have hnew : ofOptions e.options = .ok e := rfl
  have hblocks : source.bytes.data.toList.length / 2 < 5 := by decide
  exact ⟨hblocks, compute_unmatched (MemoryStream.holds _) (MemoryStream.delivers _) rfl rfl rfl
    (UsedOver.new hnew).indexes hblocks⟩

end Engine

end BinaryDelta
