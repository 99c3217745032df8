import BinaryDelta.Codec
import BinaryDelta.Proofs.Engine.Blind
import BinaryDelta.Proofs.Patch.Accept
import BinaryDelta.Proofs.WireRoundTrip

/-!
# The canonical form

A patch can be written in many ways: literals may be divided anywhere, records may be longer than
need be, and bytes may follow the end marker. Converting a patch keeps none of this. What a writer
is told is the atoms of the patch, and what it writes is determined by these, however the pieces
arrived; and the atoms that are written are those that are read back. So one more conversion changes
nothing, and it does not matter by what mode a patch was converted before. What an encoder writes is
in this form already.

* `Atom.Lasting` holds of what is written again as it was.

Results:
* `packed_atoms_packed`: atoms that are packed once stay as they are.
* `convertBytes_of_spell`: what a conversion writes are the atoms of the patch, packed.
* `exists_encodeWith`: what is encoded is packed, too, also where hashes are accepted.
* **`convert_canonical`**: converting gives a canonical form.
-/

namespace BinaryDelta

/-! ## What can be packed for good -/

/-- The atom can be written, and it appends something. -/
structure Atom.Lasting (a : Atom) : Prop where
  solid : a.isSolid
  writable : a.Writable

theorem Atom.lasting_copy {offset length : Nat} (ho : offset < 0x8000000000000000)
    (h₀ : 0 < length) (hl : length < 0x100000000) : (copy offset length).Lasting :=
  ⟨bne_iff_ne.mpr (Nat.ne_of_gt h₀), ho, hl⟩

theorem Atom.lasting_byte (value : UInt8) : (byte value).Lasting := ⟨rfl, trivial⟩

section Packed

variable {as : List Atom}

/-- Atoms that are packed once stay as they are. -/
theorem packed_atoms_packed (ha : ∀ a ∈ as, a.isSolid) :
    packed (atoms (packed as)) = packed as := by
  rw [atoms_packed, List.filter_eq_self.mpr ha]

/-- What is packed is spelled by its patch. -/
theorem spellPatch?_packed (ha : ∀ a ∈ as, a.Lasting) (mode : Mode) :
    spellPatch? (patchOf mode (packed as)) = some ⟨packed as, .marker []⟩ := by
  have hs := spellPatch?_patchOf mode (writable_packed fun a h _ => (ha a h).writable) []
  rwa [List.append_nil] at hs

/-- The patch of what is packed is read as the same atoms, in its own mode. -/
theorem reads_patchOf_packed (ha : ∀ a ∈ as, a.Lasting) (mode : Mode) :
    ∃ records is, (packBytes (patchOf mode (packed as))).data.toList = preamble mode ++ records ∧
      Reads mode 0 records is ∧ atoms is = as := by
  rw [data_packBytes, List.toList_toArray]
  have hwell : WellFormed (patchOf mode (packed as)) (packed as) :=
    wellFormed_patchOf mode (writable_packed fun a h _ => (ha a h).writable)
  refine ⟨_, packed as, rfl, hwell.reads, ?_⟩
  rw [atoms_packed, List.filter_eq_self.mpr fun a h => (ha a h).solid]

end Packed

/-- Copies of a patch that append something can be written again where their offsets can. -/
theorem lasting_of_spell {patch rest : List UInt8} {is : List Instruction}
    (hs : spellPatch? patch = some ⟨is, .marker rest⟩)
    (hc : ∀ copy ∈ copies is, copy.1 < 0x8000000000000000 ∧ 0 < copy.2) :
    ∀ a ∈ atoms is, a.Lasting := by
  intro a ha
  cases a with
  | byte value => exact Atom.lasting_byte value
  | copy offset length =>
    have hmem := copy_mem_atoms_iff.mp ha
    obtain ⟨hoffset, hpos⟩ := hc (offset, length) (mem_copies_iff.mpr hmem)
    obtain ⟨mode, records, -, hspell⟩ := spellPatch?_eq_some_iff.mp hs
    have hlength := outputLength_lt_of_spell ⟨mode, 0⟩ records
    rw [← hspell] at hlength
    exact Atom.lasting_copy hoffset hpos (hlength _ hmem)

/-! ## Conversions -/

/-- What is written are the atoms of the patch, packed. -/
theorem convertBytes_of_spell {patch : ByteArray} {is : List Instruction} {rest : List UInt8}
    (hs : spellPatch? patch.data.toList = some ⟨is, .marker rest⟩) (differential : Bool) :
    convertBytes patch { differential } =
      .ok (packBytes (patchOf (WriterOptions.mode { differential }) (packed (atoms is)))) := by
  obtain ⟨w, w', hw, h', hout⟩ := PatchWriter.exists_patch ByteOutput.reliable_byteArray
    (rfl : ByteArray.empty.data.toList = []) { differential } rfl rfl rfl
    (is.flatMap Instruction.steps)
  have hdelivers : ByteReader.Delivers (⟨patch, 0⟩ : MemoryStream) patch.data.toList :=
    MemoryStream.delivers ⟨patch, 0⟩
  have hconvert : convert (⟨patch, 0⟩ : MemoryStream) w = (.ok (outputLength is), w') := by
    rw [convert_of_spell hdelivers hs, h', andThen_ok]
  rw [atoms_flatMap_steps] at hout
  have houtput := (packBytes_toList w'.output).symm.trans (congrArg packBytes hout)
  rw [convertBytes, hw]
  simp only [hconvert, houtput]
  rfl

/-- What is packed already is not changed any more. -/
theorem convertBytes_packed {as : List Atom} (ha : ∀ a ∈ as, a.Lasting) (mode : Mode)
    (differential : Bool) :
    convertBytes (packBytes (patchOf mode (packed as))) { differential } =
      .ok (packBytes (patchOf (WriterOptions.mode { differential }) (packed as))) := by
  rw [convertBytes_of_spell (by rw [data_packBytes, List.toList_toArray, spellPatch?_packed ha]),
    packed_atoms_packed fun a h => (ha a h).solid]

/-! ## Encodings -/

namespace Greedy

/-- Whether matches are compared or not, what the reference makes over the table of a source can be
written. -/
theorem makes_lasting {o : EngineOptions} (ho : o.problem? = none) (hpos : 0 < o.chunkSize)
    {source : List UInt8} (hs : source.length < 0x8000000000000000) (target : List UInt8) :
    Makes (.ofSource source o hpos) source target fun _ a => a.Lasting := by
  have hsize : (Search.ofSource source o hpos).blockSize = o.chunkSize :=
    Search.blockSize_ofSource hpos
  have hlong : longestMatch < 0x100000000 := by decide
  constructor
  case byte => exact fun _ _ _ => Atom.lasting_byte _
  case rest => exact fun _ _ => Atom.lasting_byte _
  case copy =>
    intro position offset continuation hp hc
    rw [hsize] at hp
    by_cases ha : o.acceptHash = true
    · obtain ⟨hin, hlength⟩ := ((makes_blind ha hpos source target).copy (hsize ▸ hp) hc).copy_le
      have hle := EngineOptions.chunkSize_le ho
      exact Atom.lasting_copy (by omega) (by omega) (by omega)
    · have hlength : lengthAt (.ofSource source o hpos) source (target.drop position) offset =
          min longestMatch (commonPrefix (source.drop offset) (target.drop position)) := if_neg ha
      have hmin := le_lengthAt_of_best hc
      have hprefix := commonPrefix_le_left (source.drop offset) (target.drop position)
      rw [List.length_drop] at hprefix
      rw [hsize] at hmin
      exact Atom.lasting_copy (show 0 + offset < _ by omega) (by omega) (by omega)

end Greedy

/-- What is encoded is packed. -/
theorem exists_encodeWith {source : ByteArray} (hs : source.size < 0x8000000000000000)
    (target : ByteArray) {options : EngineOptions} (ho : options.problem? = none)
    (differential : Bool) :
    ∃ as : List Atom, (∀ a ∈ as, a.Lasting) ∧
      encodeWith source target options { differential } =
        .ok (packBytes (patchOf (WriterOptions.mode { differential }) (packed as))) := by
  have htgt : ByteReader.Delivers (⟨target, 0⟩ : MemoryStream) target.data.toList :=
    MemoryStream.delivers ⟨target, 0⟩
  obtain ⟨hpos, hcompute⟩ := Engine.compute_ofSource (κ := PatchWriter ByteArray) ho
    (MemoryStream.holds ⟨source, 0⟩) htgt
  let c := Search.ofSource source.data.toList options hpos
  obtain ⟨w, w', hw, h', hout⟩ := PatchWriter.exists_patch ByteOutput.reliable_byteArray
    (rfl : ByteArray.empty.data.toList = []) { differential } rfl rfl rfl
    (c.plan source.data.toList target.data.toList none none 0 ++ [.flush])
  obtain ⟨hresult, hsink⟩ := hcompute w
  rw [h'] at hresult hsink
  rw [List.flatMap_append, Greedy.atoms_plan (EngineOptions.problem?_eq_none_iff.mp ho).2,
    List.flatMap_singleton, SinkStep.atoms, packed_flush] at hout
  have houtput := (packBytes_toList w'.output).symm.trans (congrArg packBytes hout)
  refine ⟨atoms (Greedy.encode c source.data.toList target.data.toList), ?_, ?_⟩
  · exact ((Greedy.makes_lasting ho hpos (by rwa [length_toList]) _).spans_encodeFrom
      (Nat.zero_le _) none).forall_mem
  · rw [encodeWith, Engine.ofOptions, ho]
    simp only [hw, hresult, hsink, houtput]
    rfl

/-- **Converting gives a canonical form.** A complete patch whose copies append something and have
offsets below 2^63 can be converted to either mode; the result has this mode and the atoms of the
patch, and it makes no difference whether the patch is converted to one of the modes before. What is
encoded does not change when it is converted to the mode that it has. -/
theorem convert_canonical :
    (∀ (patch : ByteArray) (is : List Instruction), WellFormed patch.data.toList is →
      (∀ copy ∈ copies is, copy.1 < 0x8000000000000000 ∧ 0 < copy.2) →
      ∀ differential differential' : Bool, ∃ converted direct,
        convertBytes patch { differential := differential' } = .ok converted ∧
          convertBytes patch { differential } = .ok direct ∧
          convertBytes converted { differential } = .ok direct ∧
          ∃ records is', direct.data.toList =
              preamble (WriterOptions.mode { differential }) ++ records ∧
            Reads (WriterOptions.mode { differential }) 0 records is' ∧ atoms is' = atoms is) ∧
    ∀ (source target : ByteArray) (options : EngineOptions) (differential : Bool),
      source.size < 0x8000000000000000 →
      ((∃ patch, encodeWith source target options { differential } = .ok patch) ↔
        options.problem? = none) ∧
      ∀ patch, encodeWith source target options { differential } = .ok patch →
        convertBytes patch { differential } = .ok patch := by
  constructor
  · intro patch is hwell hc differential differential'
    obtain ⟨rest, hs⟩ := wellFormed_iff.mp hwell
    have hlasting := lasting_of_spell hs hc
    exact ⟨_, _, convertBytes_of_spell hs _, convertBytes_of_spell hs _,
      convertBytes_packed hlasting _ _, reads_patchOf_packed hlasting _⟩
  · intro source target options differential hsize
    cases ho : options.problem? with
    | some problem =>
      have hfails : encodeWith source target options { differential } =
          .error (.invalidConfig problem) := by
        rw [encodeWith, Engine.ofOptions, ho]
      simp [hfails]
    | none =>
      obtain ⟨as, hlasting, hencode⟩ := exists_encodeWith hsize target ho differential
      rw [hencode]
      refine ⟨iff_of_true ⟨_, rfl⟩ rfl, ?_⟩
      rintro patch ⟨⟩
      exact convertBytes_packed hlasting _ _

/-- A literal in three parts, one of them empty, under opcodes with wider fields than need be, a
copy with such an offset, and bytes behind the end marker; and a patch of blocks that were not
compared. -/
theorem convert_canonical_wasteful :
    let records := [1, 7, 248, 0, 0, 0, 2, 8, 9, 247, 0, 0,
      255, 0, 0, 0, 0, 0, 0, 1, 44, 0, 0, 0, 5, 244, 246, 3, 0, 1, 2]
    let wasteful := packBytes (preamble .differential ++ records)
    let source := packBytes [1, 2, 3, 4, 5, 6, 7, 8]
    let target := packBytes [9, 1, 2, 3, 4, 9, 5, 6, 7, 8]
    let options : EngineOptions := { chunkSize := 4, acceptHash := true }
    (∃ converted direct, convertBytes wasteful {} = .ok converted ∧
      convertBytes wasteful { differential := true } = .ok direct ∧
      convertBytes converted { differential := true } = .ok direct ∧
      ∃ records is, direct.data.toList = preamble .differential ++ records ∧
        Reads .differential 0 records is ∧
        atoms is = [.byte 7, .byte 8, .byte 9, .copy 300 5, .copy 290 3]) ∧
    ∃ patch, encodeWith source target options {} = .ok patch ∧
      convertBytes patch {} = .ok patch := by
  intro records wasteful source target options
  have hreads : Reads .differential 0 records [.literal (packBytes [7]),
      .literal (packBytes [8, 9]), .literal (packBytes []), .copy 300 5, .copy 290 3] :=
    .literal rfl rfl <| .literal rfl rfl <| .literal rfl rfl <|
      .relative rfl rfl (by decide) (by decide) <|
        .relative rfl rfl (by decide) (by decide) <| .marker rfl
  obtain ⟨hiff, hcanonical⟩ := convert_canonical.2 source target options false (by decide)
  obtain ⟨patch, hencode⟩ := hiff.mpr rfl
  have hwell : WellFormed wasteful.data.toList _ := ⟨.differential, records, rfl, hreads⟩
  exact ⟨convert_canonical.1 wasteful _ hwell (by decide) true false, patch, hencode,
    hcanonical patch hencode⟩

end BinaryDelta
