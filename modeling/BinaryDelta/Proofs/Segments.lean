import BinaryDelta.Proofs.WireRoundTrip
import Mathlib.Data.List.Forall2

/-!
# Segments behind each other

A patch can be written in segments, each by a writer of its own: all but the first skip the
preamble, and all but the last the end marker. What these writers put out, one behind the other, has
the form of a patch. In normal mode it is one. In differential mode every writer counts its offsets
from 0, and a reader of the whole from the copy in front. So a segment keeps its copies if there is
none in front of it, or if the last of these has offset 0; otherwise the reader moves them.

* `lastOffset` is where the copies in front leave a reader, and `Seamless` says that no segment is
  moved.
* `Writes` says what a writer puts out, whatever its output held before.

Results:
* `flatMap_toWire`: seamless segments are the records of the whole.
* `seamless_of_copies_spell`: they have to be seamless if a reader finds the copies of the whole.
* **`PatchWriter.convert_segments_iff`**: segments are read back as what all their writers were
  asked for, in normal mode always, and in differential mode if and only if they are seamless.
-/

namespace BinaryDelta

/-! ## Moved copies -/

/-- The offset of the last copy, and `offset` if there is none. -/
def lastOffset (offset : Nat) (cs : List (Nat × Nat)) : Nat :=
  cs.foldl (fun _ copy => copy.1) offset

/-- Are segments with these copies read as they were written, behind a copy from `offset`? -/
def Seamless : Nat → List (List (Nat × Nat)) → Prop
  | _, [] => True
  | offset, cs :: parts => (cs = [] ∨ offset = 0) ∧ Seamless (lastOffset offset cs) parts

instance decidableSeamless : (offset : Nat) → (parts : List (List (Nat × Nat))) →
    Decidable (Seamless offset parts)
  | _, [] => isTrue trivial
  | offset, cs :: parts =>
    have := decidableSeamless (lastOffset offset cs) parts
    inferInstanceAs (Decidable ((cs = [] ∨ offset = 0) ∧ Seamless (lastOffset offset cs) parts))

namespace OffsetBase

theorem past_of_normal {b : OffsetBase} (hm : b.mode = .normal) (i : Instruction) :
    b.past i = b := by
  rcases b with ⟨mode, current⟩
  obtain rfl : mode = .normal := hm
  cases i <;> rfl

theorem mode_foldl_past (b : OffsetBase) (is : List Instruction) :
    (is.foldl past b).mode = b.mode := by
  induction is generalizing b with
  | nil => rfl
  | cons i is ih => rw [List.foldl_cons, ih, mode_past]

/-- In differential mode the base is the offset of the last copy. -/
theorem foldl_past_differential (current : Nat) (is : List Instruction) :
    is.foldl past ⟨.differential, current⟩ = ⟨.differential, lastOffset current (copies is)⟩ := by
  induction is generalizing current with
  | nil => rfl
  | cons i is ih =>
    cases i with
    | copy offset length => exact ih offset
    | literal bytes => exact ih current

theorem small_foldl_past {b : OffsetBase} (hb : b.Small) {is : List Instruction}
    (hi : ∀ i ∈ is, i.Writable) : (is.foldl past b).Small := by
  induction is generalizing b with
  | nil => exact hb
  | cons i is ih =>
    obtain ⟨hw, hws⟩ := List.forall_mem_cons.mp hi
    exact ih (small_past hb hw) hws

/-- A decoder reads back what was stored with another base only if that base is its own. -/
theorem current_of_decode {current current' offset : Nat} {b : OffsetBase}
    (hc : current' < 0x8000000000000000) (ho : offset < 0x8000000000000000)
    (h : decode ⟨.differential, current⟩ (encode ⟨.differential, current'⟩ offset).1 =
      (.ok offset, b)) : current = current' := by
  have hbmod : Int.bmod ((offset : Int) - current') 0x10000000000000000 = offset - current' :=
    Int.bmod_eq_of_le (by omega) (by omega)
  simp only [decode, encode, toSigned64, hbmod] at h
  split at h
  · have hoffset : ((current : Int) + (offset - current')).toNat = offset :=
      Except.ok.inj (Prod.mk.inj h).1
    omega
  · cases (Prod.mk.inj h).1

end OffsetBase

/-- The base matters to no record if the mode is normal, or if no record is a copy. -/
theorem toWire_start {b : OffsetBase} {is : List Instruction}
    (h : b.mode = .normal ∨ copies is = [] ∨ b.current = 0) :
    toWire { mode := b.mode } is = toWire b is := by
  rcases b with ⟨mode, current⟩
  rcases h with hm | hc | h₀
  · obtain rfl : mode = .normal := hm
    induction is with
    | nil => rfl
    | cons i is ih =>
      rw [toWire, toWire, OffsetBase.past_of_normal rfl, OffsetBase.past_of_normal rfl]
      exact congrArg₂ _ (by cases i <;> rfl) ih
  · induction is with
    | nil => rfl
    | cons i is ih =>
      cases i with
      | copy offset length => cases hc
      | literal bytes => exact congrArg ((Instruction.literal bytes).toWire ⟨mode, 0⟩ ++ ·) (ih hc)
  · obtain rfl : current = 0 := h₀
    rfl

/-- Seamless segments are the records of the whole. -/
theorem flatMap_toWire {b : OffsetBase} {parts : List (List Instruction)}
    (h : b.mode = .normal ∨ Seamless b.current (parts.map copies)) :
    parts.flatMap (toWire { mode := b.mode }) = toWire b parts.flatten := by
  induction parts generalizing b with
  | nil => rfl
  | cons is parts ih =>
    have hpart : b.mode = .normal ∨ copies is = [] ∨ b.current = 0 := h.imp_right And.left
    have hback : (is.foldl OffsetBase.past b).mode = .normal ∨
        Seamless (is.foldl OffsetBase.past b).current (parts.map copies) := by
      rcases b with ⟨_ | _, current⟩
      · exact .inl (OffsetBase.mode_foldl_past _ is)
      · rw [OffsetBase.foldl_past_differential]
        exact .inr (h.resolve_left nofun).2
    have hrest := ih hback
    rw [OffsetBase.mode_foldl_past] at hrest
    rw [List.flatMap_cons, List.flatten_cons, toWire_append, toWire_start hpart, hrest]

/-- A reader that finds the copies of a segment as they were written has the base of the writer,
unless the segment has no copy at all. -/
theorem eq_start_of_copies_spell {current current' : Nat}
    (hb : OffsetBase.Small ⟨.differential, current⟩)
    (hb' : OffsetBase.Small ⟨.differential, current'⟩) {is : List Instruction}
    (hi : ∀ i ∈ is, i.Writable) {rest : List UInt8} {cs : List (Nat × Nat)}
    (h : copies (spell ⟨.differential, current⟩
      (toWire ⟨.differential, current'⟩ is ++ rest)).instructions = copies is ++ cs) :
    copies is = [] ∨ current = current' := by
  induction is with
  | nil => exact .inl rfl
  | cons i is ih =>
    obtain ⟨hw, hws⟩ := List.forall_mem_cons.mp hi
    rw [toWire, List.append_assoc] at h
    cases i with
    | literal bytes =>
      -- the bytes of a literal are the same for both bases
      have hread := spell_toWire_cons hb hw
        (toWire ⟨.differential, current'⟩ is ++ rest)
      exact ih hws ((congrArg (fun s => copies s.instructions) hread).symm.trans h)
    | copy offset length =>
      have hp := Record.parse?_encode .differential
        (.copy (OffsetBase.encode ⟨.differential, current'⟩ offset).1 length)
        ⟨OffsetBase.stores_encode hb' hw.1, hw.2⟩
        (toWire (OffsetBase.past ⟨.differential, current'⟩ (.copy offset length)) is ++ rest)
      rw [Instruction.toWire, spell, hp] at h
      dsimp only at h
      split at h
      · cases h
      · rename_i offset' b hd
        obtain ⟨rfl, -⟩ := Prod.mk.inj (List.cons.inj h).1
        exact .inr (OffsetBase.current_of_decode hb' hw.1 hd)

/-- Segments have to be seamless if a reader finds the copies of the whole. -/
theorem seamless_of_copies_spell {current : Nat} (hb : OffsetBase.Small ⟨.differential, current⟩)
    {parts : List (List Instruction)} (hi : ∀ is ∈ parts, ∀ i ∈ is, i.Writable)
    {rest : List UInt8}
    (h : copies (spell ⟨.differential, current⟩
      (parts.flatMap (toWire { mode := .differential }) ++ rest)).instructions =
        copies parts.flatten) :
    Seamless current (parts.map copies) := by
  induction parts generalizing current with
  | nil => trivial
  | cons is parts ih =>
    obtain ⟨hw, hws⟩ := List.forall_mem_cons.mp hi
    rw [List.flatMap_cons, List.append_assoc, List.flatten_cons, copies_append] at h
    have hstart : copies is = [] ∨ current = 0 :=
      eq_start_of_copies_spell hb (OffsetBase.small_start _) hw h
    have hsmall := OffsetBase.small_foldl_past hb hw
    have hown : toWire { mode := OffsetBase.mode ⟨.differential, current⟩ } is =
        toWire ⟨.differential, current⟩ is := toWire_start (.inr hstart)
    rw [hown, spell_toWire hb hw, Spelling.behindAll, copies_append] at h
    rw [OffsetBase.foldl_past_differential] at h hsmall
    exact ⟨hstart, ih hsmall hws (List.append_cancel_left h)⟩

/-! ## Reading the whole -/

/-- The copies that calls tell, but for the empty ones. -/
def toldCopies (steps : List SinkStep) : List (Nat × Nat) :=
  copies ((steps.filter SinkStep.counts).flatMap SinkStep.instructions)

/-- The records that calls are written as. -/
def recordsOf (steps : List SinkStep) : List Instruction := packed (steps.flatMap SinkStep.atoms)

theorem atoms_recordsOf (steps : List SinkStep) : atoms (recordsOf steps) =
    atoms ((steps.filter SinkStep.counts).flatMap SinkStep.instructions) := by
  rw [recordsOf, atoms_packed, filter_flatMap_atoms]

theorem map_copies_recordsOf (parts : List (List SinkStep)) :
    (parts.map recordsOf).map copies = parts.map toldCopies := by
  rw [List.map_map]
  exact List.map_congr_left fun steps _ => copies_congr (atoms_recordsOf steps)

theorem atoms_flatten_recordsOf (parts : List (List SinkStep)) :
    atoms (parts.map recordsOf).flatten =
      atoms ((parts.flatten.filter SinkStep.counts).flatMap SinkStep.instructions) := by
  induction parts with
  | nil => rfl
  | cons steps parts ih =>
    rw [List.map_cons, List.flatten_cons, atoms_append, atoms_recordsOf, ih, ← atoms_append,
      ← List.flatMap_append, ← List.filter_append, List.flatten_cons]

theorem Collector.complete_collector (steps : List SinkStep) :
    complete ({} : Collector) steps =
      (.ok (), { ({} : Collector).addAll (steps.flatMap SinkStep.instructions) with
        closed := true }) := by
  rw [complete, feed_collector, andThen_ok]
  rfl

/-- What converting leaves in a collector has the copies that the patch spells. -/
theorem copies_of_convert {ρ : Type} [ByteReader ρ] {r : ρ} {patch : List UInt8}
    (h : ByteReader.Delivers r patch) {s : Spelling} (hs : spellPatch? patch = some s) {n : Nat}
    {c : Collector} (hc : convert r ({} : Collector) = (.ok n, c)) :
    copies c.instructions.toList = copies s.instructions := by
  rw [convert_eq h, hs] at hc
  dsimp only at hc
  rw [Spelling.convey, Collector.feed_collector, andThen_ok] at hc
  cases he : s.ending.error? with
  | some e =>
    rw [he] at hc
    cases hc
  | none =>
    obtain ⟨rest, hm⟩ := Ending.error?_eq_none he
    rw [he, Spelling.steps_of_marker hm, Collector.addAll_flatMap_steps] at hc
    obtain rfl := (Prod.mk.inj hc).2
    exact Collector.copies_addAll {} s.instructions

/-- The segments of calls are read back as all the calls, in normal mode always, and in differential
mode if and only if they are seamless. -/
theorem convert_parts_iff {mode : Mode} {parts : List (List SinkStep)}
    (hs : ∀ steps ∈ parts, ∀ step ∈ steps, step.Writable) {c : Collector}
    (hc : complete ({} : Collector) (parts.flatten.filter SinkStep.counts) = (.ok (), c))
    {ρ : Type} [ByteReader ρ] {r : ρ} {rest : List UInt8}
    (hr : ByteReader.Delivers r (preamble mode ++
      ((parts.map recordsOf).flatMap (toWire { mode }) ++ (Record.eof.encode mode ++ rest)))) :
    convert r ({} : Collector) = (.ok (outputLength c.instructions.toList), c) ↔
      mode = .normal ∨ Seamless 0 (parts.map toldCopies) := by
  have hw : ∀ is ∈ parts.map recordsOf, ∀ i ∈ is, i.Writable := by
    intro is his
    obtain ⟨steps, hsteps, rfl⟩ := List.mem_map.mp his
    exact writable_packed_atoms (hs steps hsteps)
  have hall : { ({} : Collector).addAll (parts.map recordsOf).flatten with
      closed := true } = c := by
    rw [Collector.complete_collector,
      ← Collector.addAll_congr (atoms_flatten_recordsOf parts)] at hc
    exact (Prod.mk.inj hc).2
  subst hall
  rw [← map_copies_recordsOf]
  constructor
  · intro hconvert
    cases mode with
    | normal => exact .inl rfl
    | differential =>
      have hcopies := copies_of_convert hr (spellPatch?_eq_some_iff.mpr ⟨_, _, rfl, rfl⟩) hconvert
      rw [Collector.copies_addAll] at hcopies
      exact .inr (seamless_of_copies_spell (OffsetBase.small_start _) hw hcopies.symm)
  · intro hseamless
    have hflat : ∀ i ∈ (parts.map recordsOf).flatten, i.Writable := by
      intro i hi
      obtain ⟨is, his, hi⟩ := List.mem_flatten.mp hi
      exact hw is his i hi
    have hspell := spellPatch?_patchOf mode hflat rest
    rw [patchOf, List.append_assoc, List.append_assoc, ← flatMap_toWire hseamless] at hspell
    rw [convert_collector hr hspell, Collector.outputLength_addAll]
    simp

namespace PatchWriter

/-- Whatever its output held before, a writer with these options gets through the calls and puts
out these bytes. -/
def Writes {ω : Type} [ByteOutput ω] (R : ω → List UInt8 → Prop) (options : WriterOptions)
    (steps : List SinkStep) (bytes : List UInt8) : Prop :=
  ∀ {out : ω} {taken : List UInt8}, R out taken →
    ∃ w w', create out options = .ok w ∧ complete w steps = (.ok (), w') ∧
      R w'.output (taken ++ bytes)

theorem writes_segmentOf {ω : Type} [ByteOutput ω] {R : ω → List UInt8 → Prop}
    (o : ByteOutput.Reliable R) {options : WriterOptions} (hz : options.zeroRuns = none)
    (steps : List SinkStep) : Writes R options steps (options.segmentOf (recordsOf steps)) :=
  fun ho => exists_segment o ho options hz steps

/-- Segments have the form of a patch: the preamble, the records of all, and the end marker. -/
theorem append_segmentOf (differential : Bool) (first : List Instruction)
    (middle : List (List Instruction)) (last : List Instruction) (rest : List UInt8) :
    WriterOptions.segmentOf { differential, skipEof := true } first ++
        (middle.map (WriterOptions.segmentOf
          { differential, skipPreamble := true, skipEof := true })).flatten ++
        WriterOptions.segmentOf { differential, skipPreamble := true } last ++ rest =
      preamble (WriterOptions.mode { differential }) ++
        ((first :: (middle ++ [last])).flatMap
          (toWire { mode := WriterOptions.mode { differential } }) ++
        (Record.eof.encode (WriterOptions.mode { differential }) ++ rest)) := by
  have hmiddle : middle.map (WriterOptions.segmentOf
      { differential, skipPreamble := true, skipEof := true }) =
        middle.map (toWire { mode := WriterOptions.mode { differential } }) := by
    refine List.map_congr_left fun is _ => ?_
    rw [WriterOptions.segmentOf, WriterOptions.opening, WriterOptions.ending, if_pos rfl,
      if_pos rfl, List.nil_append, List.append_nil]
    rfl
  rw [hmiddle, ← List.flatMap_def]
  simp [WriterOptions.segmentOf, WriterOptions.opening, WriterOptions.ending, WriterOptions.mode]

/-- **Segments behind each other.** The first, the middle and the last writer put out a stream that
is read back, up to its end marker, as what they were asked for one after the other: in normal mode
whatever the calls, and in differential mode if and only if, for every segment with a copy that is
not empty, the last such copy in front of the segment has offset 0 or there is none. Copies further
in front may have any offset. -/
theorem convert_segments_iff {ω : Type} [ByteOutput ω] {R : ω → List UInt8 → Prop}
    (o : ByteOutput.Reliable R) (differential : Bool) (first : List SinkStep)
    (middle : List (List SinkStep)) (last : List SinkStep)
    (hs : ∀ steps ∈ first :: (middle ++ [last]), ∀ step ∈ steps, step.Writable) :
    ∃ head body tail c, Writes R { differential, skipEof := true } first head ∧
      List.Forall₂ (Writes R { differential, skipPreamble := true, skipEof := true }) middle body ∧
      Writes R { differential, skipPreamble := true } last tail ∧
      complete ({} : Collector) ((first ++ middle.flatten ++ last).filter SinkStep.counts) =
        (.ok (), c) ∧
      ∀ {ρ : Type} [ByteReader ρ] {r : ρ} {rest : List UInt8},
        ByteReader.Delivers r (head ++ body.flatten ++ tail ++ rest) →
          (convert r ({} : Collector) = (.ok (outputLength c.instructions.toList), c) ↔
            differential = false ∨ Seamless 0 ((first :: (middle ++ [last])).map toldCopies)) := by
  let parts : List (List SinkStep) := first :: (middle ++ [last])
  let inner : WriterOptions := { differential, skipPreamble := true, skipEof := true }
  have hflat : parts.flatten = first ++ middle.flatten ++ last := by simp [parts]
  have hc := Collector.complete_collector (parts.flatten.filter SinkStep.counts)
  refine ⟨_, (middle.map recordsOf).map inner.segmentOf, _, _, writes_segmentOf o rfl first, ?_,
    writes_segmentOf o rfl last, hflat ▸ hc, fun hr => ?_⟩
  · rw [List.map_map]
    exact List.forall₂_map_right_iff.mpr
      (List.forall₂_same.mpr fun steps _ => writes_segmentOf o rfl steps)
  · rw [append_segmentOf] at hr
    have hiff := convert_parts_iff hs hc (by simpa [parts] using hr)
    rw [← hflat, hiff, or_congr_left]
    cases differential <;> decide

/-- In differential mode, segments whose last copies have offset 0, behind one that has none. -/
theorem convert_segments_iff_seamless : ∃ head body tail c,
    Writes (fun (out : ByteArray) taken => out.data.toList = taken)
        { differential := true, skipEof := true } [.literal (packBytes [1, 2]), .copy 9 0] head ∧
      List.Forall₂ (Writes (fun (out : ByteArray) taken => out.data.toList = taken)
          { differential := true, skipPreamble := true, skipEof := true })
        [[.copy 300 7, .byte 3, .copy 0 16], [.flush, .byte 4]] body ∧
      Writes (fun (out : ByteArray) taken => out.data.toList = taken)
        { differential := true, skipPreamble := true } [.byte 5, .copy 100 16] tail ∧
      complete ({} : Collector) [.literal (packBytes [1, 2]), .copy 300 7, .byte 3, .copy 0 16,
        .byte 4, .byte 5, .copy 100 16] = (.ok (), c) ∧
      ∀ {ρ : Type} [ByteReader ρ] {r : ρ} {rest : List UInt8},
        ByteReader.Delivers r (head ++ body.flatten ++ tail ++ rest) →
          convert r ({} : Collector) = (.ok (outputLength c.instructions.toList), c) := by
  obtain ⟨head, body, tail, c, h₁, h₂, h₃, hc, hiff⟩ := convert_segments_iff
    ByteOutput.reliable_byteArray true [.literal (packBytes [1, 2]), .copy 9 0]
    [[.copy 300 7, .byte 3, .copy 0 16], [.flush, .byte 4]] [.byte 5, .copy 100 16] (by decide)
  exact ⟨head, body, tail, c, h₁, h₂, h₃, hc, fun hr => (hiff hr).mpr (.inr (by decide))⟩

/-- In differential mode, a copy that both of two segments make is moved in the second. -/
theorem convert_segments_moved : ∃ head tail : List UInt8,
    Writes (fun (out : ByteArray) taken => out.data.toList = taken)
        { differential := true, skipEof := true } [.copy 100 16] head ∧
      Writes (fun (out : ByteArray) taken => out.data.toList = taken)
        { differential := true, skipPreamble := true } [.copy 100 16] tail ∧
      complete ({} : Collector) [.copy 100 16, .copy 100 16] =
        (.ok (), ⟨#[.copy 100 16, .copy 100 16], true⟩) ∧
      (∀ {ρ : Type} [ByteReader ρ] {r : ρ}, ByteReader.Delivers r (head ++ tail) →
        convert r ({} : Collector) = (.ok 32, ⟨#[.copy 100 16, .copy 200 16], true⟩)) ∧
      (⟨#[.copy 100 16, .copy 200 16], true⟩ : Collector) ≠
        ⟨#[.copy 100 16, .copy 100 16], true⟩ := by
  refine ⟨_, _, writes_segmentOf ByteOutput.reliable_byteArray rfl _,
    writes_segmentOf ByteOutput.reliable_byteArray rfl _, rfl, fun hr => ?_, by simp⟩
  have hbytes : WriterOptions.segmentOf { differential := true, skipEof := true }
        (recordsOf [.copy 100 16]) ++
      WriterOptions.segmentOf { differential := true, skipPreamble := true }
        (recordsOf [.copy 100 16]) = patchOf .differential [.copy 100 16, .copy 200 16] := by
    decide
  have hspell := spellPatch?_patchOf .differential
    (show ∀ i ∈ [Instruction.copy 100 16, .copy 200 16], i.Writable by decide) []
  rw [List.append_nil, ← hbytes] at hspell
  exact convert_collector hr hspell {}

end PatchWriter

end BinaryDelta
