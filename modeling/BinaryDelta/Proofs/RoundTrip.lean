import BinaryDelta.Codec
import BinaryDelta.Proofs.Engine.Sound
import BinaryDelta.Proofs.Patch.Apply
import BinaryDelta.Proofs.WireRoundTrip

/-!
# Encoding and decoding

A patch that was computed for a source and a target gives the target back. The engine plans calls
that rebuild the target, the writer turns them into the patch of some instructions with the same
origins, and decoding rebuilds what the instructions of a patch rebuild.

Results:
* `describes_patchOf`: the patch of instructions describes what they rebuild.
* `PatchWriter.exists_describes`: so does the patch that any calls to a writer make up.
* **`decode_encodeWith`**: encoding succeeds, and decoding gives the target back.
-/

namespace BinaryDelta

/-- The patch of instructions describes what they rebuild. -/
theorem describes_patchOf (mode : Mode) {is : List Instruction} (hi : ∀ i ∈ is, i.Writable)
    (rest source target : List UInt8) :
    Describes (patchOf mode is ++ rest) source target ↔ Rebuilds source is target := by
  have hs := spellPatch?_patchOf mode hi rest
  constructor
  · rintro ⟨s, rest', hs', -, ht⟩
    rw [hs] at hs'
    cases hs'
    exact ht
  · intro ht
    exact ⟨_, rest, hs, rfl, ht⟩

/-- Instructions that rebuild a target over a source are a patch for it. -/
theorem decode_patchOf (mode : Mode) {is : List Instruction} (hi : ∀ i ∈ is, i.Writable)
    {source target : ByteArray} (h : Rebuilds source.data.toList is target.data.toList) :
    decode (packBytes (patchOf mode is)) source = .ok target := by
  rw [decode_eq_ok_iff, data_packBytes, List.toList_toArray, ← List.append_nil (patchOf mode is),
    describes_patchOf mode hi]
  exact h

/-- Calls to a writer make up a patch that describes what they rebuild. -/
theorem PatchWriter.exists_describes (options : WriterOptions) (hz : options.zeroRuns = none)
    (hp : options.skipPreamble = false) (he : options.skipEof = false) {steps : List SinkStep}
    (hs : ∀ step ∈ steps, step.Short) {source target : List UInt8}
    (hl : source.length < 0x8000000000000000)
    (ht : Rebuilds source (steps.flatMap SinkStep.instructions) target) :
    ∃ w w', create ByteArray.empty options = .ok w ∧ complete w steps = (.ok (), w') ∧
      Describes w'.output.data.toList source target := by
  obtain ⟨w, w', hw, h', ho⟩ :=
    exists_patch ByteOutput.reliable_byteArray rfl options hz hp he steps
  let is := packed (steps.flatMap SinkStep.atoms)
  have hi : ∀ i ∈ is, i.Writable := writable_packed_atoms (writable_of_short hl hs ht)
  have horigins : origins is = origins (steps.flatMap SinkStep.instructions) := by
    rw [origins_packed, SinkStep.origins_flatMap_instructions]
  refine ⟨w, w', hw, h', ?_⟩
  replace ho : w'.output.data.toList = [] ++ patchOf options.mode is := ho
  rw [ho, List.nil_append, ← List.append_nil (patchOf options.mode is), describes_patchOf _ hi]
  exact (rebuilds_congr horigins).mpr ht

theorem short_of_sound {blockSize offset : Nat} {source target : List UInt8} {steps : List SinkStep}
    (h : Sound blockSize offset source target (steps.flatMap SinkStep.instructions))
    (hb : 0 < blockSize) : ∀ step ∈ steps, step.Short := by
  intro step hstep
  cases step with
  | copy start length =>
    have hmem : (start, length) ∈ copies (steps.flatMap SinkStep.instructions) :=
      mem_copies_iff.mpr (List.mem_flatMap.mpr ⟨_, hstep, List.mem_singleton_self _⟩)
    obtain ⟨⟨hge, hle⟩, -⟩ := h.copies _ hmem
    have hlong : longestMatch < 0x100000000 := by decide
    simp only at hge hle
    exact ⟨by omega, by omega⟩
  | byte value => trivial
  | literal bytes => trivial
  | flush => trivial

/-- **Round trip.** Encoding succeeds with any options in range that have matches compared, and
decoding gives the target back. -/
theorem decode_encodeWith {source : ByteArray} (hs : source.size < 0x8000000000000000)
    (target : ByteArray) {options : EngineOptions} (ho : options.problem? = none)
    (ha : options.acceptHash = false) {writer : WriterOptions} (hz : writer.zeroRuns = none)
    (hp : writer.skipPreamble = false) (he : writer.skipEof = false) :
    ∃ patch, encodeWith source target options writer = .ok patch ∧
      decode patch source = .ok target := by
  have hsrc := MemoryStream.holds ⟨source, 0⟩
  have htgt : ByteReader.Delivers (⟨target, 0⟩ : MemoryStream) target.data.toList :=
    MemoryStream.delivers ⟨target, 0⟩
  have hplan : ∀ table : BlockTable, Sound table.blockSize 0 source.data.toList target.data.toList
      ((Search.plan { table, options } source.data.toList target.data.toList none none 0 ++
        [SinkStep.flush]).flatMap SinkStep.instructions) := by
    intro table
    rw [SinkStep.flatMap_instructions_flush]
    exact Search.sound_plan (c := { table, options }) ha _ _ none none 0
  obtain ⟨table, hb, hcompute⟩ :=
    Engine.exists_compute (κ := PatchWriter ByteArray) hsrc htgt (e := { options }) ho ha
  obtain ⟨w, w', hw, h', hd⟩ := PatchWriter.exists_describes writer hz hp he
    (short_of_sound (hplan table) table.blockSize_pos) (by rwa [length_toList])
    ((hplan table).rebuilds (by rw [LiesAt, List.drop_zero, List.take_length]))
  obtain ⟨hresult, hsink⟩ := hcompute w
  rw [h'] at hresult hsink
  refine ⟨w'.output, ?_, (decode_eq_ok_iff _ _ _).mpr hd⟩
  rw [encodeWith, Engine.ofOptions, ho]
  simp only [hw, hresult, hsink]
  rfl

/-- Small blocks under two checksums, copied only from where the target has been. -/
theorem decode_encodeWith_autocode :
    let source := packBytes [1, 2, 3, 4, 5, 6, 7, 8]
    let target := packBytes [9, 1, 2, 3, 4, 5, 9, 9, 3, 4, 5]
    let options : EngineOptions :=
      { chunkSize := 3, autocode := true, duplicate := true, maxProbes := 1 }
    ∃ patch, encodeWith source target options { differential := true } = .ok patch ∧
      decode patch source = .ok target :=
  decode_encodeWith (by decide) _ rfl rfl rfl rfl rfl

end BinaryDelta
