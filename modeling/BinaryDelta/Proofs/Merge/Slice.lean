import BinaryDelta.Proofs.Merge.Index
import BinaryDelta.Proofs.WireRoundTrip
import Mathlib.Data.List.Chain

/-!
# Resolving is slicing

A range of a target is resolved to the instructions of the patch, trimmed to the range and with
literals run together. Where the index has its entries only decides where reading begins, so the
answer is that of any other index of the same patch.

* `sliceOf` is the answer, from the instructions alone.
* `Coalesced` holds of instructions none of which is empty and no two literals of which follow each
  other.

Results:
* `Collector.coalesced_addAll`: what a collector holds is coalesced, unless it gets empty copies.
* **`PatchIndex.resolve_eq_slice`**: what is resolved is the slice, in range, and nothing is handed
  to any sink, out of range or where the range begins with a byte from behind the 64-bit range.
-/

namespace BinaryDelta

/-! ## Coalesced instructions -/

/-- Is the instruction a literal? -/
def Instruction.isLiteral : Instruction → Bool
  | copy _ _ => false
  | literal _ => true

/-- None of the instructions is empty, and no two literals follow each other. -/
structure Coalesced (is : List Instruction) : Prop where
  nonempty : ∀ i ∈ is, i.isEmpty = false
  apart : is.IsChain fun i j => ¬ (i.isLiteral ∧ j.isLiteral)

theorem coalesced_nil : Coalesced [] := ⟨nofun, .nil⟩

theorem coalesced_append_singleton {front : List Instruction} {i : Instruction} :
    Coalesced (front ++ [i]) ↔ Coalesced front ∧ i.isEmpty = false ∧
      ∀ j ∈ front.getLast?, ¬ (j.isLiteral ∧ i.isLiteral) := by
  constructor
  · rintro ⟨hne, hap⟩
    obtain ⟨hf, hi⟩ := List.forall_mem_append.mp hne
    obtain ⟨hc, -, hl⟩ := List.isChain_append.mp hap
    exact ⟨⟨hf, hc⟩, hi i (List.mem_singleton_self i), fun j hj => hl j hj i rfl⟩
  · rintro ⟨⟨hf, hc⟩, hi, hl⟩
    refine ⟨List.forall_mem_append.mpr ⟨hf, List.forall_mem_singleton.mpr hi⟩, ?_⟩
    refine List.isChain_append.mpr ⟨hc, List.isChain_singleton i, ?_⟩
    rintro j hj i' ⟨⟩
    exact hl j hj

namespace Collector

theorem not_isLiteral_of_endsInLiteral {instructions : Array Instruction}
    (h : endsInLiteral instructions = false) :
    ∀ j ∈ instructions.toList.getLast?, ¬ j.isLiteral := by
  intro j hj
  rw [Array.getLast?_toList] at hj
  rw [endsInLiteral, Option.mem_def.mp hj] at h
  cases j with
  | copy offset length => exact Bool.false_ne_true
  | literal bytes => cases h

/-- A collector keeps its instructions coalesced, as long as no copy is empty. -/
theorem coalesced_add {c : Collector} (hc : Coalesced c.instructions.toList) {i : Instruction}
    (hi : i.isLiteral ∨ i.isEmpty = false) : Coalesced (c.add i).instructions.toList := by
  rcases c with ⟨instructions, closed⟩
  cases i with
  | copy offset length =>
    have hpos : (Instruction.copy offset length).isEmpty = false := hi.resolve_left nofun
    simp only [add, addCopy, Array.toList_push]
    exact coalesced_append_singleton.mpr ⟨hc, hpos, fun j _ => fun h => Bool.false_ne_true h.2⟩
  | literal bytes =>
    rw [add]
    by_cases hb : bytes.size = 0
    · rwa [ByteArray.size_eq_zero_iff.mp hb, addLiteral_empty]
    · cases hl : endsInLiteral instructions with
      | true =>
        obtain ⟨front, run, rfl⟩ := exists_of_endsInLiteral hl
        rw [addLiteral_push]
        simp only [Array.toList_push] at hc ⊢
        obtain ⟨hf, hrun, hlast⟩ := coalesced_append_singleton.mp hc
        refine coalesced_append_singleton.mpr ⟨hf, ?_, hlast⟩
        simp only [Instruction.isEmpty, Instruction.outputLength, ByteArray.size_append] at hrun ⊢
        simp only [beq_eq_false_iff_ne] at hrun ⊢
        omega
      | false =>
        rw [addLiteral_of_not hl hb]
        simp only [Array.toList_push]
        refine coalesced_append_singleton.mpr ⟨hc, ?_, fun j hj h => ?_⟩
        · exact beq_eq_false_iff_ne.mpr hb
        · exact not_isLiteral_of_endsInLiteral hl j hj h.1

theorem coalesced_addAll {c : Collector} (hc : Coalesced c.instructions.toList)
    {is : List Instruction} (hi : ∀ i ∈ is, i.isLiteral ∨ i.isEmpty = false) :
    Coalesced (c.addAll is).instructions.toList := by
  induction is generalizing c with
  | nil => exact hc
  | cons i is ih =>
    obtain ⟨h₁, hi⟩ := List.forall_mem_cons.mp hi
    exact ih (coalesced_add hc h₁) hi

end Collector

/-! ## Slices -/

/-- The instructions for a range, with literals run together. -/
def sliceOf (is : List Instruction) (offset length : Nat) : Array Instruction :=
  (({} : Collector).addAll
    ((rangeSteps 0 offset (offset + length) is).flatMap SinkStep.instructions)).instructions

/-- The origins of a slice are those of the range. -/
theorem origins_sliceOf {is : List Instruction} {offset length : Nat}
    (h : offset + length ≤ outputLength is) :
    origins (sliceOf is offset length).toList = ((origins is).drop offset).take length := by
  rw [sliceOf, Collector.origins_addAll, origins_rangeSteps _ _ _ (by omega), Nat.sub_zero,
    Nat.max_eq_left (Nat.zero_le _), Nat.add_sub_cancel_left]
  rfl

theorem nonempty_of_solid {steps : List SinkStep}
    (h : ∀ a ∈ steps.flatMap SinkStep.atoms, a.isSolid) :
    ∀ i ∈ steps.flatMap SinkStep.instructions, i.isLiteral ∨ i.isEmpty = false := by
  intro i hi
  obtain ⟨step, hstep, hi⟩ := List.mem_flatMap.mp hi
  cases step with
  | copy offset length =>
    obtain rfl := List.mem_singleton.mp hi
    have hsolid := h (.copy offset length)
      (List.mem_flatMap.mpr ⟨_, hstep, List.mem_singleton_self _⟩)
    exact .inr (beq_eq_false_iff_ne.mpr (bne_iff_ne.mp hsolid))
  | byte value =>
    obtain rfl := List.mem_singleton.mp hi
    exact .inl rfl
  | literal bytes =>
    obtain rfl := List.mem_singleton.mp hi
    exact .inl rfl
  | flush => cases hi

theorem coalesced_sliceOf (is : List Instruction) (offset length : Nat) :
    Coalesced (sliceOf is offset length).toList :=
  Collector.coalesced_addAll coalesced_nil (nonempty_of_solid (solid_rangeSteps _ _ _ is))

namespace PatchIndex

variable {σ : Type} [Source σ] {patch : List UInt8} {s : Spelling} {index : PatchIndex}
  {offset length : Nat}

theorem resolve_of_near {H : σ → Prop} (k : Source.Holding H patch) {src : σ} (h : H src)
    (hx : index.Indexes patch s) {rest : List UInt8} (hend : s.ending = .marker rest)
    (hrange : offset + length ≤ outputLength s.instructions)
    (hnear : ¬ BeginsBeyond s.instructions offset length) :
    (index.resolve src offset length).1 = .ok (sliceOf s.instructions offset length) := by
  obtain ⟨src', hr, -⟩ := resolveInto_of_near k h hx hend hrange hnear ({} : Collector)
  rw [Collector.feed_collector] at hr
  rw [resolve, hr]
  rfl

theorem resolve_of_lt (h : index.targetLength < offset + length) (src : σ) :
    index.resolve src offset length =
      (.error (.rangeOutOfBounds offset length index.targetLength), src) := by
  rw [resolve, resolveInto_of_lt h]

/-- **Resolving is slicing.** Let a patch be indexed with any options. Then it describes a target,
and over any source of the patch a range of the target is resolved to a list that is the same for
all options: it has the origins of the range and is coalesced. Only a range that begins with a byte
copied from behind the 64-bit range is given up; if every copy ends at 2^64 or below, there is none.
A range that does not lie in the target is an error. In either case no sink is told anything. -/
theorem resolve_eq_slice {src src' : σ} (h : Source.Holds src patch) {options : IndexOptions}
    (hb : build src options = (.ok index, src')) :
    ∃ s rest, spellPatch? patch = some s ∧ s.ending = .marker rest ∧
      index.targetLength = outputLength s.instructions ∧
      ((∀ copy ∈ copies s.instructions, copy.1 + copy.2 ≤ 0x10000000000000000) →
        ∀ offset length, ¬ BeginsBeyond s.instructions offset length) ∧
      ∀ src₁ : σ, Source.Holds src₁ patch → ∀ offset length : Nat,
        (offset + length ≤ index.targetLength → ¬ BeginsBeyond s.instructions offset length →
          (index.resolve src₁ offset length).1 = .ok (sliceOf s.instructions offset length) ∧
          origins (sliceOf s.instructions offset length).toList =
            ((origins s.instructions).drop offset).take length ∧
          Coalesced (sliceOf s.instructions offset length).toList) ∧
        (offset + length ≤ index.targetLength → BeginsBeyond s.instructions offset length →
          (index.resolve src₁ offset length).1 = .error (.overflow .sum) ∧
          ∀ {κ : Type} [InstructionSink κ] (sink : κ), ∃ src₂,
            index.resolveInto src₁ offset length sink = (.error (.overflow .sum), src₂, sink)) ∧
        (index.targetLength < offset + length →
          index.resolve src₁ offset length =
            (.error (.rangeOutOfBounds offset length index.targetLength), src₁) ∧
          ∀ {κ : Type} [InstructionSink κ] (sink : κ), index.resolveInto src₁ offset length sink =
            (.error (.rangeOutOfBounds offset length index.targetLength), src₁, sink)) := by
  have k := Source.holding_holds (σ := σ) patch
  obtain ⟨s, rest, hs, hend, hx⟩ := of_build k h hb
  refine ⟨s, rest, hs, hend, hx.targetLength, Addressable.not_beginsBeyond,
    fun src₁ h₁ offset length => ⟨?_, ?_, ?_⟩⟩
  · intro hrange hnear
    rw [hx.targetLength] at hrange
    exact ⟨resolve_of_near k h₁ hx hend hrange hnear, origins_sliceOf hrange,
      coalesced_sliceOf _ _ _⟩
  · intro hrange hbeyond
    rw [hx.targetLength] at hrange
    constructor
    · obtain ⟨src₂, hr, -⟩ :=
        resolveInto_of_beginsBeyond k h₁ hx hend hrange hbeyond ({} : Collector)
      rw [resolve, hr]
    · intro κ _ sink
      obtain ⟨src₂, hr, -⟩ := resolveInto_of_beginsBeyond k h₁ hx hend hrange hbeyond sink
      exact ⟨src₂, hr⟩
  · intro hout
    exact ⟨resolve_of_lt hout src₁, fun sink => resolveInto_of_lt hout src₁ sink⟩

/-- A range that begins within a copy and ends within the next literal, behind an empty copy. -/
theorem resolve_eq_slice_across :
    let is : List Instruction :=
      [.copy 7 4, .copy 100 0, .literal (packBytes [1, 2, 3]), .copy 2 5]
    let patch := patchOf .differential is
    let src : MemoryStream := ⟨packBytes patch, 0⟩
    ∃ index src' slice, build src { interval := 1 } = (.ok index, src') ∧
      (index.resolve src 2 4).1 = .ok slice ∧ Coalesced slice.toList ∧
      origins slice.toList = [.source 9, .source 10, .given 1, .given 2] := by
  intro is patch src
  have hi : ∀ i ∈ is, i.Writable := by decide
  have hs : spellPatch? patch = some ⟨is, .marker []⟩ := by
    rw [← List.append_nil patch]
    exact spellPatch?_patchOf .differential hi []
  have hbytes : (packBytes patch).data.toList = patch := by simp
  have h : Source.Holds src patch := hbytes ▸ MemoryStream.holds src
  let options : IndexOptions := { interval := 1 }
  have hpos : 0 < options.interval ∧ 0 < options.maxAttempts := by decide
  obtain ⟨index, src', hb, -⟩ | ⟨hlimit, -⟩ :=
    exists_build (Source.holding_holds patch) h hs rfl hpos.1 hpos.2
  · obtain ⟨s, rest, hs', -, hlen, hnear, hall⟩ := resolve_eq_slice h hb
    rw [hs] at hs'
    cases hs'
    obtain ⟨hr, ho, hc⟩ := (hall src h 2 4).1 (by rw [hlen]; decide) (hnear (by decide) 2 4)
    exact ⟨index, src', _, hb, hr, hc, ho.trans (by decide)⟩
  · exact absurd rfl hlimit

end PatchIndex

end BinaryDelta
