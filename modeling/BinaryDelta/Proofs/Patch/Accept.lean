import BinaryDelta.Proofs.Patch.Apply

/-!
# Which patches are accepted

`Reads` says in which way bytes are the records of a patch, one constructor for each kind of
record: it is `spell` put as a grammar, with the range of every offset spelled out.

Results:
* `reads_iff`: the bytes that can be read are those that `spell` follows up to an end marker.
* `decode_outcome`: which patches are accepted over which sources, with what target, and what is
  answered otherwise.
-/

namespace BinaryDelta

/-- The bytes are records up to an end marker, and stand for these instructions. `base` is the
offset of the previous copy; only differential mode counts from it. -/
inductive Reads (mode : Mode) : (base : Nat) → List UInt8 → List Instruction → Prop
  | marker {base : Nat} {bytes rest : List UInt8} :
      Record.parse? mode bytes = some (.eof, rest) → Reads mode base bytes []
  | literal {base length : Nat} {bytes payload rest : List UInt8} {is : List Instruction} :
      Record.parse? mode bytes = some (.literal length, payload ++ rest) →
      payload.length = length → Reads mode base rest is →
      Reads mode base bytes (.literal (packBytes payload) :: is)
  | absolute {base offset length : Nat} {bytes rest : List UInt8} {is : List Instruction} :
      mode = .normal → Record.parse? mode bytes = some (.copy offset length, rest) →
      Reads mode base rest is → Reads mode base bytes (.copy offset length :: is)
  | relative {base offset length : Nat} {value : Int} {bytes rest : List UInt8}
      {is : List Instruction} :
      mode = .differential → Record.parse? mode bytes = some (.copy value length, rest) →
      (offset : Int) = base + value → offset < 0x10000000000000000 →
      Reads mode offset rest is → Reads mode base bytes (.copy offset length :: is)

/-! ## Offsets -/

namespace OffsetBase

/-- An offset that was made absolute is the stored value or the distance from the previous copy. -/
theorem of_decode_ok {mode : Mode} {base offset : Nat} {value : Int} {b : OffsetBase}
    (h : decode ⟨mode, base⟩ value = (.ok offset, b)) :
    (mode = .normal ∧ value = offset ∧ b = ⟨mode, base⟩) ∨
      (mode = .differential ∧ (offset : Int) = base + value ∧ offset < 0x10000000000000000 ∧
        b = ⟨mode, offset⟩) := by
  cases mode with
  | normal =>
    simp only [decode] at h
    split at h
    · obtain ⟨h₁, rfl⟩ := Prod.mk.inj h
      cases h₁
      exact .inl ⟨rfl, by omega, rfl⟩
    · cases h
  | differential =>
    simp only [decode] at h
    split at h
    · obtain ⟨h₁, rfl⟩ := Prod.mk.inj h
      cases h₁
      exact .inr ⟨rfl, by omega, by omega, rfl⟩
    · cases h

theorem decode_absolute (base offset : Nat) :
    decode ⟨.normal, base⟩ offset = (.ok offset, ⟨.normal, base⟩) := by
  simp [decode]

theorem decode_relative {base offset : Nat} {value : Int} (h : (offset : Int) = base + value)
    (hlt : offset < 0x10000000000000000) :
    decode ⟨.differential, base⟩ value = (.ok offset, ⟨.differential, offset⟩) := by
  simp only [decode, ← h]
  rw [if_pos ⟨by omega, by omega⟩, Int.toNat_natCast]

/-- An offset cannot be made absolute only if it lies outside the 64-bit range. -/
theorem of_decode_error {b b' : OffsetBase} {value : Int} {e : DeltaError}
    (h : b.decode value = (.error e, b')) : ∃ base : Nat, e = .invalidOffset value base ∧
      ¬ (0 ≤ base + value ∧ base + value < 0x10000000000000000) := by
  rcases b with ⟨mode, current⟩
  cases mode with
  | normal =>
    simp only [decode] at h
    split at h
    · cases h
    · rename_i hneg
      obtain ⟨h₁, -⟩ := Prod.mk.inj h
      cases h₁
      exact ⟨0, rfl, by omega⟩
  | differential =>
    simp only [decode] at h
    split at h
    · cases h
    · rename_i hout
      obtain ⟨h₁, -⟩ := Prod.mk.inj h
      cases h₁
      exact ⟨current, rfl, hout⟩

end OffsetBase

/-! ## Records -/

/-- What is spelled up to an end marker can be read. -/
theorem reads_of_spell (b : OffsetBase) (bytes : List UInt8) {rest : List UInt8}
    (h : (spell b bytes).ending = .marker rest) :
    Reads b.mode b.current bytes (spell b bytes).instructions := by
  fun_induction spell b bytes with
  | case1 b bytes hp => cases h
  | case2 b bytes rest' hp => exact .marker hp
  | case3 b bytes length rest' hp hl ih =>
    rw [← List.take_append_drop length rest'] at hp
    exact .literal hp (List.length_take_of_le hl) (ih h)
  | case4 b bytes length rest' hp hl => cases h
  | case5 b bytes value length rest' hp e b' hd => cases h
  | case6 b bytes value length rest' hp offset b' hd ih =>
    rcases b with ⟨mode, base⟩
    rcases OffsetBase.of_decode_ok hd with ⟨hm, rfl, rfl⟩ | ⟨hm, ho, hlt, rfl⟩
    · exact .absolute hm hp (ih h)
    · exact .relative hm hp ho hlt (ih h)

theorem spell_of_reads {mode : Mode} {base : Nat} {bytes : List UInt8} {is : List Instruction}
    (h : Reads mode base bytes is) :
    (spell ⟨mode, base⟩ bytes).instructions = is ∧
      ∃ rest, (spell ⟨mode, base⟩ bytes).ending = .marker rest := by
  induction h with
  | @marker base bytes rest hp =>
    rw [spell, hp]
    exact ⟨rfl, rest, rfl⟩
  | @literal base length bytes payload rest is hp hl hr ih =>
    rw [spell, hp]
    simp only
    rw [if_pos (by rw [List.length_append]; omega), List.take_left' hl, List.drop_left' hl]
    exact ⟨congrArg _ ih.1, ih.2⟩
  | @absolute base offset length bytes rest is hm hp hr ih =>
    subst hm
    rw [spell, hp]
    simp only [OffsetBase.decode_absolute]
    exact ⟨congrArg _ ih.1, ih.2⟩
  | @relative base offset length value bytes rest is hm hp ho hlt hr ih =>
    subst hm
    rw [spell, hp]
    simp only [OffsetBase.decode_relative ho hlt]
    exact ⟨congrArg _ ih.1, ih.2⟩

/-- The bytes that can be read are those that are spelled up to an end marker. -/
theorem reads_iff {mode : Mode} {base : Nat} {bytes : List UInt8} {is : List Instruction} :
    Reads mode base bytes is ↔ (spell ⟨mode, base⟩ bytes).instructions = is ∧
      ∃ rest, (spell ⟨mode, base⟩ bytes).ending = .marker rest := by
  constructor
  · exact spell_of_reads
  · rintro ⟨rfl, rest, h⟩
    exact reads_of_spell ⟨mode, base⟩ bytes h

/-- What is left unresolved is an offset outside the 64-bit range. -/
theorem of_unresolved (b : OffsetBase) (bytes : List UInt8) {e : DeltaError}
    (h : (spell b bytes).ending = .unresolved e) :
    ∃ (value : Int) (base : Nat), e = .invalidOffset value base ∧
      ¬ (0 ≤ base + value ∧ base + value < 0x10000000000000000) := by
  fun_induction spell b bytes with
  | case1 b bytes hp => cases h
  | case2 b bytes rest hp => cases h
  | case3 b bytes length rest hp hl ih => exact ih h
  | case4 b bytes length rest hp hl => cases h
  | case5 b bytes value length rest hp e' b' hd =>
    cases h
    exact ⟨value, OffsetBase.of_decode_error hd⟩
  | case6 b bytes value length rest hp offset b' hd ih => exact ih h

/-- Offsets that are spelled are 64-bit numbers, and in normal mode non-negative signed ones. -/
theorem offset_lt_of_spell (b : OffsetBase) (bytes : List UInt8) :
    ∀ copy ∈ copies (spell b bytes).instructions, copy.1 < 0x10000000000000000 ∧
      (b.mode = .normal → copy.1 < 0x8000000000000000) := by
  fun_induction spell b bytes with
  | case1 b bytes hp => exact List.forall_mem_nil _
  | case2 b bytes rest hp => exact List.forall_mem_nil _
  | case3 b bytes length rest hp hl ih => exact ih
  | case4 b bytes length rest hp hl => exact List.forall_mem_nil _
  | case5 b bytes value length rest hp e b' hd => exact List.forall_mem_nil _
  | case6 b bytes value length rest hp offset b' hd ih =>
    have hmode := OffsetBase.mode_of_decode hd
    have hvalue := Record.bounds_of_parse? hp
    rw [hmode] at ih
    refine List.forall_mem_cons.mpr ⟨?_, ih⟩
    rcases b with ⟨mode, base⟩
    rcases OffsetBase.of_decode_ok hd with ⟨-, rfl, -⟩ | ⟨hm, -, hlt, -⟩
    · exact ⟨by dsimp only; omega, fun _ => by dsimp only; omega⟩
    · exact ⟨hlt, fun hn => by rw [hm] at hn; cases hn⟩

/-! ## Whole patches -/

/-- The patch is a preamble and records up to an end marker that stand for these instructions. -/
def WellFormed (patch : List UInt8) (is : List Instruction) : Prop :=
  ∃ mode records, patch = preamble mode ++ records ∧ Reads mode 0 records is

/-- Well-formed patches are those that spell instructions up to an end marker. -/
theorem wellFormed_iff {patch : List UInt8} {is : List Instruction} :
    WellFormed patch is ↔ ∃ rest, spellPatch? patch = some ⟨is, .marker rest⟩ := by
  constructor
  · rintro ⟨mode, records, rfl, hr⟩
    obtain ⟨rfl, rest, he⟩ := reads_iff.mp hr
    exact ⟨rest, spellPatch?_eq_some_iff.mpr ⟨mode, records, rfl, by rw [← he]⟩⟩
  · rintro ⟨rest, hs⟩
    obtain ⟨mode, records, rfl, hspell⟩ := spellPatch?_eq_some_iff.mp hs
    exact ⟨mode, records, rfl, reads_iff.mpr (by rw [← hspell]; exact ⟨rfl, rest, rfl⟩)⟩

/-- Behind the preamble of a mode, records are read in that mode. -/
theorem WellFormed.reads {mode : Mode} {bytes : List UInt8} {is : List Instruction}
    (h : WellFormed (preamble mode ++ bytes) is) : Reads mode 0 bytes is := by
  obtain ⟨mode', records, heq, hreads⟩ := h
  have hmode : modeOfPreamble? (preamble mode ++ bytes) = some mode :=
    modeOfPreamble?_eq_some_iff.mpr ⟨bytes, rfl⟩
  rw [modeOfPreamble?_eq_some_iff.mpr ⟨records, heq⟩] at hmode
  cases hmode
  rwa [List.append_cancel_left heq]

/-- A patch stands for one list of instructions. -/
theorem WellFormed.unique {patch : List UInt8} {is is' : List Instruction}
    (h : WellFormed patch is) (h' : WellFormed patch is') : is = is' := by
  obtain ⟨rest, hs⟩ := wellFormed_iff.mp h
  obtain ⟨rest', hs'⟩ := wellFormed_iff.mp h'
  rw [hs] at hs'
  cases hs'
  rfl

/-- A patch describes a target if its records can be read, stay in range and append it. -/
theorem describes_iff {patch source target : List UInt8} : Describes patch source target ↔
    ∃ mode records is, patch = preamble mode ++ records ∧ Reads mode 0 records is ∧
      (∀ i ∈ is, i.InRange source.length) ∧ target = replay source is := by
  constructor
  · rintro ⟨s, rest, hs, he, ht⟩
    obtain ⟨mode, records, rfl, rfl⟩ := spellPatch?_eq_some_iff.mp hs
    obtain ⟨hin, ht⟩ := rebuilds_iff.mp ht
    exact ⟨mode, records, _, rfl, reads_iff.mpr ⟨rfl, rest, he⟩, hin, ht⟩
  · rintro ⟨mode, records, is, rfl, hr, hin, ht⟩
    obtain ⟨rfl, rest, he⟩ := reads_iff.mp hr
    exact ⟨_, rest, spellPatch?_eq_some_iff.mpr ⟨mode, records, rfl, rfl⟩, he,
      rebuilds_iff.mpr ⟨hin, ht⟩⟩

/-- There are four ways for a patch to go wrong. -/
theorem Fails.kind {patch source : List UInt8} {e : DeltaError} (h : Fails patch source e) :
    e = .invalidMagic ∨ e = .unexpectedEndOfData ∨
      (∃ (value : Int) (base : Nat), e = .invalidOffset value base ∧
        ¬ (0 ≤ base + value ∧ base + value < 0x10000000000000000)) ∨
      ∃ position missing, e = .unexpectedEndOfSource position missing := by
  cases h with
  | preamble hs => exact .inl rfl
  | copy hs hi hfront hn => exact .inr (.inr (.inr ⟨_, _, rfl⟩))
  | @ending s e hs he hin =>
    obtain ⟨mode, records, rfl, rfl⟩ := spellPatch?_eq_some_iff.mp hs
    cases hend : (spell ⟨mode, 0⟩ records).ending with
    | marker rest =>
      rw [hend] at he
      cases he
    | cutRecord =>
      rw [hend] at he
      cases he
      exact .inr (.inl rfl)
    | cutPayload available =>
      rw [hend] at he
      cases he
      exact .inr (.inl rfl)
    | unresolved e' =>
      rw [hend] at he
      cases he
      exact .inr (.inr (.inl (of_unresolved _ _ hend)))

/-- A patch is accepted over a source if it is a preamble with records up to an end marker whose
copies all stay in range, and the target is what they append. Otherwise the answer is the first
thing that goes wrong, which is one of four. -/
theorem decode_outcome (patch source : ByteArray) :
    (∀ target, decode patch source = .ok target ↔
      ∃ mode records is, patch.data.toList = preamble mode ++ records ∧ Reads mode 0 records is ∧
        (∀ i ∈ is, i.InRange source.size) ∧
        target.data.toList = replay source.data.toList is) ∧
    (∀ e, decode patch source = .error e ↔ Fails patch.data.toList source.data.toList e) ∧
    ∀ e, decode patch source = .error e →
      e = .invalidMagic ∨ e = .unexpectedEndOfData ∨
      (∃ (value : Int) (base : Nat), e = .invalidOffset value base ∧
        ¬ (0 ≤ base + value ∧ base + value < 0x10000000000000000)) ∨
      ∃ position missing, e = .unexpectedEndOfSource position missing := by
  refine ⟨fun target => ?_, decode_eq_error_iff patch source, fun e h => ?_⟩
  · rw [decode_eq_ok_iff, describes_iff, length_toList]
  · exact ((decode_eq_error_iff patch source e).mp h).kind

end BinaryDelta
