import BinaryDelta.Proofs.Canonical
import BinaryDelta.Proofs.Sink.Fallible
import Mathlib.Data.List.Chain

/-!
# Copies from far away

Offsets are 64-bit numbers, but what is stored for them is signed. A patch in differential mode can
nonetheless copy from anywhere, if it gets there in several steps. Such a patch can be converted to
differential mode again: each copy lies near the one before, since it was read that way, and so the
distance can be stored once more. In normal mode no record holds an offset from 2^63 on. A writer
stores a number with the same low bits and says nothing, and then the offset read back is another
one, or none.

* `Near` says of two offsets that the second can be stored behind the first.

Results:
* `WellFormed.isChain`: the copies of a patch are near each other.
* `wellFormed_patchOf_packed`: what a conversion writes is read as it was told, in differential mode
  and, unless a copy is too far away, in normal mode.
* **`convert_keeps_iff`**: and only then.
-/

namespace BinaryDelta

/-! ## Steps between copies -/

/-- Can the offset be stored behind the other one, as the distance between them? -/
def Near (previous offset : Nat) : Prop := OffsetBase.Reaches ⟨.differential, previous⟩ offset

/-- Copies that are read in differential mode are near each other. -/
theorem Reads.isChain {base : Nat} {bytes : List UInt8} {is : List Instruction}
    (h : Reads .differential base bytes is) :
    (base :: (copies is).map Prod.fst).IsChain Near := by
  induction h with
  | marker hp => exact .singleton _
  | literal hp hl hr ih => exact ih
  | absolute hn hp hr ih => cases hn
  | @relative base offset length value bytes rest is hd hp ho hlt hr ih =>
    have hvalue := Record.bounds_of_parse? hp
    have hnear : Near base offset :=
      OffsetBase.reaches_differential.mpr ⟨hlt, by omega, by omega⟩
    exact List.isChain_cons_cons.mpr ⟨hnear, ih⟩

/-- In normal mode offsets are non-negative signed numbers. -/
theorem Reads.offset_lt {base : Nat} {bytes : List UInt8} {is : List Instruction}
    (h : Reads .normal base bytes is) : ∀ copy ∈ copies is, copy.1 < 0x8000000000000000 := by
  obtain ⟨rfl, -⟩ := reads_iff.mp h
  exact fun copy hcopy => (offset_lt_of_spell ⟨.normal, base⟩ bytes copy hcopy).2 rfl

/-- The copies of a patch are near each other, and the first is near the start. -/
theorem WellFormed.isChain {patch : List UInt8} {is : List Instruction} (h : WellFormed patch is) :
    (0 :: (copies is).map Prod.fst).IsChain Near := by
  obtain ⟨mode, records, rfl, hreads⟩ := h
  cases mode with
  | differential => exact hreads.isChain
  | normal =>
    have hlt : ∀ offset ∈ 0 :: (copies is).map Prod.fst, offset < 0x8000000000000000 := by
      refine List.forall_mem_cons.mpr ⟨by decide, fun offset hmem => ?_⟩
      obtain ⟨copy, hcopy, rfl⟩ := List.mem_map.mp hmem
      exact hreads.offset_lt copy hcopy
    exact (List.pairwise_of_forall_mem_list fun previous hp offset ho =>
      OffsetBase.reaches_of_lt (hlt previous hp) (hlt offset ho)).isChain

/-! ## What can be written again -/

/-- Can a record hold the length? -/
def Instruction.Sized : Instruction → Prop
  | copy _ length => length < 0x100000000
  | literal bytes => 0 < bytes.size ∧ bytes.size < 0x100000000

/-- Instructions fit in differential mode if their copies are near each other. -/
theorem fit_of_isChain {base : Nat} {is : List Instruction}
    (h : (base :: (copies is).map Prod.fst).IsChain Near) (hs : ∀ i ∈ is, i.Sized) :
    Fit ⟨.differential, base⟩ is := by
  induction is generalizing base with
  | nil => trivial
  | cons i is ih =>
    obtain ⟨hi, his⟩ := List.forall_mem_cons.mp hs
    cases i with
    | literal bytes => exact ⟨hi, ih h his⟩
    | copy offset length =>
      obtain ⟨hnear, hrest⟩ := List.isChain_cons_cons.mp h
      exact ⟨⟨hnear, hi⟩, ih hrest his⟩

section Packed

variable {patch : List UInt8} {is : List Instruction}

/-- Where all copies append something, the records packed of a patch stand for its atoms. -/
theorem atoms_packed_atoms (hc : ∀ copy ∈ copies is, 0 < copy.2) :
    atoms (packed (atoms is)) = atoms is := by
  rw [atoms_packed, List.filter_eq_self]
  intro a ha
  cases a with
  | byte value => rfl
  | copy offset length =>
    have hcopy : (offset, length) ∈ copies is := mem_copies_iff.mpr (copy_mem_atoms_iff.mp ha)
    exact bne_iff_ne.mpr (Nat.ne_of_gt (hc _ hcopy))

theorem sized_packed (h : WellFormed patch is) : ∀ i ∈ packed (atoms is), i.Sized := by
  have hchunk : literalChunk < 0x100000000 := by decide
  obtain ⟨mode, records, -, hreads⟩ := h
  obtain ⟨rfl, -⟩ := reads_iff.mp hreads
  refine forall_packed (fun _ hpos hle => ⟨hpos, by omega⟩) fun offset length hmem _ => ?_
  exact outputLength_lt_of_spell _ records _ (copy_mem_atoms_iff.mp hmem)

/-- What is packed of a patch is spelled by its own patch, in differential mode and, unless a copy
is too far away, in normal mode. -/
theorem wellFormed_patchOf_packed (h : WellFormed patch is)
    (hc : ∀ copy ∈ copies is, 0 < copy.2) {mode : Mode}
    (hm : mode = .differential ∨ ∀ copy ∈ copies is, copy.1 < 0x8000000000000000) :
    WellFormed (patchOf mode (packed (atoms is))) (packed (atoms is)) := by
  rcases hm with rfl | hlt
  · have hchain := h.isChain
    rw [← copies_congr (atoms_packed_atoms hc)] at hchain
    exact wellFormed_of_fit (fit_of_isChain hchain (sized_packed h))
  · obtain ⟨rest, hs⟩ := wellFormed_iff.mp h
    have hlasting := lasting_of_spell hs fun copy hcopy => ⟨hlt copy hcopy, hc copy hcopy⟩
    exact wellFormed_patchOf mode (writable_packed fun a ha _ => (hlasting a ha).writable)

end Packed

/-! ## Conversions -/

/-- Two copies lead towards the last 64-bit position, and the third begins there and goes on. -/
def farInstructions : List Instruction :=
  [.copy 0x7fffffffffffffff 1, .copy 0xfffffffffffffffe 1, .copy 0xffffffffffffffff 16]

/-- A patch of these, in steps that can be stored. -/
def farPatch : ByteArray :=
  packBytes (preamble .differential ++
    [255, 127, 255, 255, 255, 255, 255, 255, 255, 0, 0, 0, 1,
      255, 127, 255, 255, 255, 255, 255, 255, 255, 0, 0, 0, 1, 244, 1, 16, 0])

theorem wellFormed_farPatch : WellFormed farPatch.data.toList farInstructions :=
  ⟨.differential, _, rfl,
    .relative rfl rfl (by decide) (by decide) <| .relative rfl rfl (by decide) (by decide) <|
      .relative rfl rfl (by decide) (by decide) <| .marker rfl⟩

/-- **Converting keeps what can be stored.** Over an output that never fails, a patch whose copies
all append something can be converted to either mode. Wherever that succeeds, what was written is
read back as the same copies and the same bytes between them if and only if the mode is the
differential one, or no copy begins at 2^63 or beyond. -/
theorem convert_keeps_iff {ω ρ : Type} [ByteOutput ω] [ByteReader ρ] {R : ω → List UInt8 → Prop}
    {out : ω} {front : List UInt8} (ho : R out front) {r : ρ} {patch : List UInt8}
    (hr : ByteReader.Delivers r patch) {is : List Instruction} (hwell : WellFormed patch is)
    (hc : ∀ copy ∈ copies is, 0 < copy.2) {differential : Bool} {w : PatchWriter ω}
    (hw : PatchWriter.create out { differential } = .ok w) :
    (ByteOutput.Reliable R → ∃ w', convert r w = (.ok (outputLength is), w')) ∧
    (ByteOutput.Faithful R → ∀ {total : Nat} {w' : PatchWriter ω},
      convert r w = (.ok total, w') → total = outputLength is ∧
      ∃ written, R w'.output (front ++ written) ∧
        ((∃ is', WellFormed written is' ∧ atoms is' = atoms is) ↔
          differential = true ∨ ∀ copy ∈ copies is, copy.1 < 0x8000000000000000)) := by
  obtain ⟨rest, hs⟩ := wellFormed_iff.mp hwell
  have hconvert := convert_of_spell hr hs w
  constructor
  · intro k
    obtain ⟨w₁, w', hw₁, hcomplete, -⟩ := PatchWriter.exists_patch k ho { differential } rfl rfl rfl
      (is.flatMap Instruction.steps)
    rw [hw] at hw₁
    cases hw₁
    exact ⟨w', by rw [hconvert, hcomplete, andThen_ok]⟩
  · intro k total w' h
    rw [hconvert] at h
    rcases hcomplete : complete w (is.flatMap Instruction.steps) with ⟨e | _, w₁⟩
    · rw [hcomplete] at h
      cases h
    · rw [hcomplete] at h
      cases h
      have hout := PatchWriter.output_of_complete k ho rfl rfl rfl hw hcomplete
      rw [atoms_flatMap_steps] at hout
      refine ⟨rfl, _, hout, ?_, ?_⟩
      · rintro ⟨is', hwell', hatoms⟩
        cases differential with
        | true => exact .inl rfl
        | false =>
          -- what is read in normal mode is not far away, whatever it was told
          have hreads : Reads .normal 0 _ is' := @WellFormed.reads .normal _ _ hwell'
          rw [← copies_congr hatoms]
          exact .inr hreads.offset_lt
      · intro hm
        refine ⟨_, wellFormed_patchOf_packed hwell hc ?_, atoms_packed_atoms hc⟩
        exact hm.imp_left fun hd => by rw [hd]; rfl

/-- In differential mode the far copies are kept. -/
theorem convert_keeps_iff_far :
    ∃ w w', PatchWriter.create ByteArray.empty { differential := true } = .ok w ∧
      convert (⟨farPatch, 0⟩ : MemoryStream) w = (.ok 18, w') ∧
      ∃ is, WellFormed w'.output.data.toList is ∧ atoms is = atoms farInstructions := by
  have hdelivers : ByteReader.Delivers (⟨farPatch, 0⟩ : MemoryStream) farPatch.data.toList :=
    MemoryStream.delivers ⟨farPatch, 0⟩
  obtain ⟨w, hw, -⟩ := PatchWriter.exists_create ByteOutput.reliable_byteArray
    (rfl : ByteArray.empty.data.toList = []) { differential := true } rfl
  obtain ⟨hsucceeds, hkeeps⟩ := convert_keeps_iff
    (R := fun (out : ByteArray) (taken : List UInt8) => out.data.toList = taken) rfl hdelivers
    wellFormed_farPatch (by decide) hw
  obtain ⟨w', hconvert⟩ := hsucceeds ByteOutput.reliable_byteArray
  obtain ⟨-, written, hout, hiff⟩ := hkeeps ByteOutput.reliable_byteArray.faithful hconvert
  refine ⟨w, w', hw, hconvert, ?_⟩
  rw [hout]
  exact hiff.mpr (.inl rfl)

/-- In normal mode the far copies become others, and nothing is said of it. -/
theorem convert_far_copies : ∃ converted, convertBytes farPatch {} = .ok converted ∧
    WellFormed converted.data.toList
      [.copy 0x7fffffffffffffff 1, .copy 0xfffe 1, .copy 0xffff 16] ∧
    ¬ ∃ is, WellFormed converted.data.toList is ∧ atoms is = atoms farInstructions := by
  obtain ⟨rest, hs⟩ := wellFormed_iff.mp wellFormed_farPatch
  -- the long field of the first copy, and short ones with the low bits of the other two
  have hfirst : Record.parse? .normal [255, 127, 255, 255, 255, 255, 255, 255, 255, 0, 0, 0, 1,
      249, 255, 254, 1, 249, 255, 255, 16, 0] =
        some (.copy (0x7fffffffffffffff : Nat) 1, [249, 255, 254, 1, 249, 255, 255, 16, 0]) := by
    decide
  have hwell : WellFormed (patchOf .normal (packed (atoms farInstructions)))
      [.copy 0x7fffffffffffffff 1, .copy 0xfffe 1, .copy 0xffff 16] :=
    ⟨.normal, _, by decide, .absolute rfl hfirst <| .absolute rfl rfl <| .absolute rfl rfl <|
      .marker rfl⟩
  have hconvert := convertBytes_of_spell hs false
  refine ⟨_, hconvert, ?_, ?_⟩
  · rw [data_packBytes, List.toList_toArray]
    exact hwell
  · rw [data_packBytes, List.toList_toArray]
    rintro ⟨is, hwell', hatoms⟩
    rw [hwell'.unique hwell] at hatoms
    revert hatoms
    decide

end BinaryDelta
