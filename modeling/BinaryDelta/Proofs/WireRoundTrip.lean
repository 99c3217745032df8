import BinaryDelta.Proofs.Patch.Accept
import BinaryDelta.Proofs.Sink.Writing

/-!
# Writing a patch and reading it back

What a patch writer was told, a reader of its patch tells: the bytes written spell the instructions
that were written, and a collector that they are handed to ends up as if it had got the calls of the
writer itself. Chunks, pieces and flushes leave no trace, and an empty copy none either.

Results:
* `spellPatch?_of_fit`, `spellPatch?_patchOf`: the patch of instructions spells them.
* `wellFormed_of_fit`, `wellFormed_patchOf`: so it is well-formed.
* `convert_collector`: a complete patch leaves a collector with the instructions it spells.
* **`PatchWriter.convert_written`**: converting what was written gives what was asked for, for any
  calls in the range of the format.
-/

namespace BinaryDelta

/-- The patch of instructions that fit spells them. -/
theorem spellPatch?_of_fit {mode : Mode} {is : List Instruction} (hi : Fit { mode } is)
    (rest : List UInt8) : spellPatch? (patchOf mode is ++ rest) = some ⟨is, .marker rest⟩ := by
  have hm : Record.eof.encode mode =
      Record.eof.encode (is.foldl OffsetBase.past { mode }).mode := rfl
  refine spellPatch?_eq_some_iff.mpr
    ⟨mode, toWire { mode } is ++ (Record.eof.encode mode ++ rest), ?_, ?_⟩
  · rw [patchOf, List.append_assoc, List.append_assoc]
  · rw [hi.spell_toWire, hm, spell_eof, Spelling.behindAll, Spelling.ends, List.append_nil]

theorem spellPatch?_patchOf (mode : Mode) {is : List Instruction} (hi : ∀ i ∈ is, i.Writable)
    (rest : List UInt8) : spellPatch? (patchOf mode is ++ rest) = some ⟨is, .marker rest⟩ :=
  spellPatch?_of_fit (fit_of_writable (OffsetBase.small_start mode) hi) rest

theorem wellFormed_of_fit {mode : Mode} {is : List Instruction} (hi : Fit { mode } is) :
    WellFormed (patchOf mode is) is := by
  have hs := spellPatch?_of_fit hi []
  rw [List.append_nil] at hs
  exact wellFormed_iff.mpr ⟨[], hs⟩

theorem wellFormed_patchOf (mode : Mode) {is : List Instruction} (hi : ∀ i ∈ is, i.Writable) :
    WellFormed (patchOf mode is) is :=
  wellFormed_of_fit (fit_of_writable (OffsetBase.small_start mode) hi)

namespace Collector

theorem addAll_steps (c : Collector) (i : Instruction) :
    c.addAll (i.steps.flatMap SinkStep.instructions) = c.add i := by
  cases i with
  | copy offset length => rfl
  | literal bytes =>
    rw [Instruction.steps, instructions_literals, addAll_literals, foldl_pieces,
      ByteArray.empty_append, packBytes_toList, add]

/-- Pieces are added as what they were cut from. -/
theorem addAll_flatMap_steps (c : Collector) (is : List Instruction) :
    c.addAll ((is.flatMap Instruction.steps).flatMap SinkStep.instructions) = c.addAll is := by
  induction is generalizing c with
  | nil => rfl
  | cons i is ih =>
    rw [List.flatMap_cons, List.flatMap_append, addAll_append, addAll_steps, ih, addAll_cons]

end Collector

/-- A complete patch leaves a collector with the instructions it spells. -/
theorem convert_collector {ρ : Type} [ByteReader ρ] {r : ρ} {patch : List UInt8}
    (h : ByteReader.Delivers r patch) {is : List Instruction} {rest : List UInt8}
    (hs : spellPatch? patch = some ⟨is, .marker rest⟩) (c : Collector) :
    convert r c = (.ok (outputLength is), { c.addAll is with closed := true }) := by
  have hf := Collector.feed_collector c (is.flatMap Instruction.steps)
  rw [Collector.addAll_flatMap_steps] at hf
  rw [convert_of_spell h hs, complete, hf]
  rfl

namespace PatchWriter

/-- **Wire round trip.** Whatever calls a patch writer without zero runs gets, in either mode and
over any output that never fails, what it has written when it is closed is read back as these calls,
less the empty copies. -/
theorem convert_written {ω : Type} [ByteOutput ω] {R : ω → List UInt8 → Prop}
    (o : ByteOutput.Reliable R) {out : ω} {taken : List UInt8} (ho : R out taken)
    (differential : Bool) (calls : List SinkStep) (hc : ∀ step ∈ calls, step.Writable) :
    ∃ w w' patch c, create out { differential } = .ok w ∧ complete w calls = (.ok (), w') ∧
      R w'.output (taken ++ patch) ∧
      complete ({} : Collector) (calls.filter SinkStep.counts) = (.ok (), c) ∧
      ∀ {ρ : Type} [ByteReader ρ] {r : ρ}, ByteReader.Delivers r patch →
        convert r ({} : Collector) = (.ok (outputLength c.instructions.toList), c) := by
  let options : WriterOptions := { differential }
  obtain ⟨w, w', is, hw, h', ho', hwr, hi⟩ := exists_complete o ho options rfl rfl rfl hc
  have hs := spellPatch?_patchOf options.mode hwr []
  have hcol := Collector.feed_collector {} (calls.filter SinkStep.counts)
  rw [← hi] at hcol
  rw [List.append_nil] at hs
  refine ⟨w, w', patchOf options.mode is, { ({} : Collector).addAll is with closed := true },
    hw, h', ho', ?_, fun hr => ?_⟩
  · rw [complete, hcol, andThen_ok]
    rfl
  · rw [convert_collector hr hs, Collector.outputLength_addAll]
    simp

/-- Copies of every width, an empty one, and literals that a flush divides, in differential mode. -/
theorem convert_written_mixed : ∃ w w' patch c,
    create ByteArray.empty { differential := true } = .ok w ∧
      complete w [.copy 300 7, .copy 5 0, .literal (packBytes [1, 2]), .flush, .byte 3,
        .copy 0x7fffffffffffffff 0xffffffff, .copy 0 40000] = (.ok (), w') ∧
      w'.output.data.toList = [] ++ patch ∧
      complete ({} : Collector) ([.copy 300 7, .copy 5 0, .literal (packBytes [1, 2]), .flush,
        .byte 3, .copy 0x7fffffffffffffff 0xffffffff, .copy 0 40000].filter SinkStep.counts) =
          (.ok (), c) ∧
      ∀ {ρ : Type} [ByteReader ρ] {r : ρ}, ByteReader.Delivers r patch →
        convert r ({} : Collector) = (.ok (outputLength c.instructions.toList), c) :=
  convert_written ByteOutput.reliable_byteArray rfl true _ (by decide)

end PatchWriter

end BinaryDelta
