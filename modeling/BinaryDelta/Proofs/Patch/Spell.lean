import BinaryDelta.Proofs.Replay
import BinaryDelta.Proofs.Wire.Parse
import BinaryDelta.Wire.Offset

/-!
# What a patch spells

Behind its preamble a patch is a byte string that spells instructions, up to an end marker or to the
place where it stops making sense. `spell` is total: it gives the instructions before that place and
says what is there. It is what every reader of patches comes to, whether it hands the instructions
on, indexes them or resolves a range of them.

* `Ending` says how the records end, `Spelling` is the instructions with their ending.
* `toWire` is the other direction: the bytes of instructions, one record for each. `patchOf` adds
  the preamble and the end marker.
* `Fit` says of instructions that records can hold them. Those that are `Writable` fit behind any
  copies of this kind; in differential mode others may fit, too, if each copy is near the last.

Results:
* `Fit.spell_toWire`, `spell_toWire`: instructions that fit are spelled by their bytes, and what
  follows these is spelled behind them.
-/

namespace BinaryDelta

/-- How the records of a patch end. -/
inductive Ending where
  /-- With the end marker; some bytes follow it. -/
  | marker (rest : List UInt8)
  /-- Within a record. -/
  | cutRecord
  /-- Within the payload of a literal, of which this is there. -/
  | cutPayload (available : List UInt8)
  /-- With a copy whose offset cannot be made absolute. -/
  | unresolved (e : DeltaError)
  deriving Repr, DecidableEq

/-- The error that a reader of the records ends with. -/
def Ending.error? : Ending → Option DeltaError
  | marker _ => none
  | cutRecord => some .unexpectedEndOfData
  | cutPayload _ => some .unexpectedEndOfData
  | unresolved e => some e

theorem Ending.error?_eq_none {ending : Ending} (h : ending.error? = none) :
    ∃ rest, ending = .marker rest := by
  cases ending with
  | marker rest => exact ⟨rest, rfl⟩
  | cutRecord => cases h
  | cutPayload available => cases h
  | unresolved e => cases h

/-- What a byte string spells. -/
structure Spelling where
  instructions : List Instruction
  ending : Ending

namespace Spelling

/-- Nothing but an ending. -/
def ends (ending : Ending) : Spelling := ⟨[], ending⟩

/-- One more instruction in front. -/
def behind (i : Instruction) (s : Spelling) : Spelling := ⟨i :: s.instructions, s.ending⟩

/-- More instructions in front. -/
def behindAll (is : List Instruction) (s : Spelling) : Spelling := ⟨is ++ s.instructions, s.ending⟩

@[simp] theorem instructions_ends (ending : Ending) : (ends ending).instructions = [] := rfl

@[simp] theorem ending_ends (ending : Ending) : (ends ending).ending = ending := rfl

@[simp] theorem instructions_behind (i : Instruction) (s : Spelling) :
    (s.behind i).instructions = i :: s.instructions := rfl

@[simp] theorem ending_behind (i : Instruction) (s : Spelling) :
    (s.behind i).ending = s.ending := rfl

@[simp] theorem behindAll_nil (s : Spelling) : s.behindAll [] = s := rfl

@[simp] theorem behindAll_cons (i : Instruction) (is : List Instruction) (s : Spelling) :
    s.behindAll (i :: is) = (s.behindAll is).behind i := rfl

theorem behindAll_behind (s : Spelling) (i : Instruction) (is : List Instruction) :
    (s.behind i).behindAll is = s.behindAll (is ++ [i]) := by
  simp [behindAll, behind]

end Spelling

/-- What the bytes of a patch spell from a record on, with the offset base in front of it. -/
def spell (b : OffsetBase) (bytes : List UInt8) : Spelling :=
  match _h : Record.parse? b.mode bytes with
  | none => .ends .cutRecord
  | some (.eof, rest) => .ends (.marker rest)
  | some (.literal length, rest) =>
    if length ≤ rest.length then
      (spell b (rest.drop length)).behind (.literal (packBytes (rest.take length)))
    else .ends (.cutPayload rest)
  | some (.copy value length, rest) =>
    match b.decode value with
    | (.error e, _) => .ends (.unresolved e)
    | (.ok offset, b) => (spell b rest).behind (.copy offset length)
termination_by bytes.length
decreasing_by
  · have := Record.length_lt_of_parse? _h
    rw [List.length_drop]
    omega
  · exact Record.length_lt_of_parse? _h

section Step

variable {b b' : OffsetBase} {bytes rest : List UInt8} {offset length : Nat} {value : Int}

theorem spell_cut (h : Record.parse? b.mode bytes = none) : spell b bytes = .ends .cutRecord := by
  rw [spell, h]

theorem spell_marker (h : Record.parse? b.mode bytes = some (.eof, rest)) :
    spell b bytes = .ends (.marker rest) := by
  rw [spell, h]

theorem spell_literal (h : Record.parse? b.mode bytes = some (.literal length, rest)) :
    spell b bytes = if length ≤ rest.length then
      (spell b (rest.drop length)).behind (.literal (packBytes (rest.take length)))
    else .ends (.cutPayload rest) := by
  rw [spell, h]

theorem spell_copy (h : Record.parse? b.mode bytes = some (.copy value length, rest))
    (hd : b.decode value = (.ok offset, b')) :
    spell b bytes = (spell b' rest).behind (.copy offset length) := by
  rw [spell, h]
  simp only [hd]

end Step

/-- Records hold less than 2^32 bytes of output. -/
theorem outputLength_lt_of_spell (b : OffsetBase) (bytes : List UInt8) :
    ∀ i ∈ (spell b bytes).instructions, i.outputLength < 0x100000000 := by
  fun_induction spell b bytes with
  | case1 b bytes hp => exact List.forall_mem_nil _
  | case2 b bytes rest hp => exact List.forall_mem_nil _
  | case3 b bytes length rest hp hl ih =>
    refine List.forall_mem_cons.mpr ⟨?_, ih⟩
    rw [Instruction.outputLength, size_packBytes, List.length_take_of_le hl]
    exact Record.outputLength_lt_of_parse? hp
  | case4 b bytes length rest hp hl => exact List.forall_mem_nil _
  | case5 b bytes value length rest hp e b' hd => exact List.forall_mem_nil _
  | case6 b bytes value length rest hp offset b' hd ih =>
    exact List.forall_mem_cons.mpr ⟨Record.outputLength_lt_of_parse? hp, ih⟩

namespace OffsetBase

@[simp] theorem mode_encode (b : OffsetBase) (offset : Nat) :
    (b.encode offset).2.mode = b.mode := by
  rcases b with ⟨mode, current⟩
  cases mode <;> rfl

theorem mode_of_decode {b b' : OffsetBase} {value : Int} {answer : Except DeltaError Nat}
    (h : b.decode value = (answer, b')) : b'.mode = b.mode := by
  rcases b with ⟨mode, current⟩
  cases mode with
  | normal =>
    obtain ⟨-, rfl⟩ := Prod.mk.inj h
    rfl
  | differential =>
    simp only [decode] at h
    split at h <;> obtain ⟨-, rfl⟩ := Prod.mk.inj h <;> rfl

/-- Does the previous copy lie where offsets can be written? -/
def Small (b : OffsetBase) : Prop := b.current < 0x8000000000000000

theorem small_start (mode : Mode) : Small { mode } :=
  (by decide : 0 < 0x8000000000000000)

theorem small_encode {b : OffsetBase} (hb : b.Small) {offset : Nat}
    (ho : offset < 0x8000000000000000) : (b.encode offset).2.Small := by
  rcases b with ⟨mode, current⟩
  cases mode with
  | normal => exact hb
  | differential => exact ho

/-- What is stored for an offset within reach can be written. -/
theorem stores_of_reaches {b : OffsetBase} {offset : Nat} (h : b.Reaches offset) :
    b.mode.Stores (b.encode offset).1 := by
  rw [fst_encode h]
  rcases b with ⟨mode, current⟩
  cases mode with
  | normal => exact ⟨Int.natCast_nonneg offset, Int.ofNat_lt.mpr (reaches_normal.mp h)⟩
  | differential => exact (reaches_differential.mp h).2

theorem stores_encode {b : OffsetBase} (hb : b.Small) {offset : Nat}
    (ho : offset < 0x8000000000000000) : b.mode.Stores (b.encode offset).1 :=
  stores_of_reaches (reaches_of_lt hb ho)

end OffsetBase

/-! ## Onto the wire -/

/-- Can the instruction be written as a record? -/
def Instruction.Writable : Instruction → Prop
  | copy offset length => offset < 0x8000000000000000 ∧ length < 0x100000000
  | literal bytes => 0 < bytes.size ∧ bytes.size < 0x100000000

instance : (i : Instruction) → Decidable i.Writable
  | .copy _ _ => inferInstanceAs (Decidable (_ ∧ _))
  | .literal _ => inferInstanceAs (Decidable (_ ∧ _))

/-- The offset base behind an instruction. -/
def OffsetBase.past (b : OffsetBase) : Instruction → OffsetBase
  | .copy offset _ => (b.encode offset).2
  | .literal _ => b

/-- The bytes of an instruction. -/
def Instruction.toWire (b : OffsetBase) : Instruction → List UInt8
  | copy offset length => (Record.copy (b.encode offset).1 length).encode b.mode
  | literal bytes => (Record.literal bytes.size).encode b.mode ++ bytes.data.toList

/-- The bytes of instructions, record by record. -/
def toWire (b : OffsetBase) : List Instruction → List UInt8
  | [] => []
  | i :: is => i.toWire b ++ toWire (b.past i) is

/-- The whole patch of instructions. -/
def patchOf (mode : Mode) (is : List Instruction) : List UInt8 :=
  preamble mode ++ (toWire { mode } is ++ Record.eof.encode mode)

theorem toWire_append (b : OffsetBase) (is is' : List Instruction) :
    toWire b (is ++ is') = toWire b is ++ toWire (is.foldl OffsetBase.past b) is' := by
  induction is generalizing b with
  | nil => rfl
  | cons i is ih => rw [List.cons_append, toWire, toWire, ih, List.append_assoc, List.foldl_cons]

theorem OffsetBase.small_past {b : OffsetBase} (hb : b.Small) {i : Instruction}
    (hi : i.Writable) : (b.past i).Small := by
  cases i with
  | copy offset length => exact small_encode hb hi.1
  | literal bytes => exact hb

@[simp] theorem OffsetBase.mode_past (b : OffsetBase) (i : Instruction) :
    (b.past i).mode = b.mode := by
  cases i with
  | copy offset length => exact mode_encode b offset
  | literal bytes => rfl

/-- Can the instruction be written as a record behind the previous copy? -/
def Instruction.Fits (b : OffsetBase) : Instruction → Prop
  | copy offset length => b.Reaches offset ∧ length < 0x100000000
  | literal bytes => 0 < bytes.size ∧ bytes.size < 0x100000000

/-- Can all of them be written, one behind the other? -/
def Fit (b : OffsetBase) : List Instruction → Prop
  | [] => True
  | i :: is => i.Fits b ∧ Fit (b.past i) is

theorem Instruction.Writable.fits {b : OffsetBase} (hb : b.Small) {i : Instruction}
    (hi : i.Writable) : i.Fits b := by
  cases i with
  | copy offset length => exact ⟨OffsetBase.reaches_of_lt hb hi.1, hi.2⟩
  | literal bytes => exact hi

theorem fit_of_writable {b : OffsetBase} (hb : b.Small) {is : List Instruction}
    (hi : ∀ i ∈ is, i.Writable) : Fit b is := by
  induction is generalizing b with
  | nil => trivial
  | cons i is ih =>
    obtain ⟨hw, hws⟩ := List.forall_mem_cons.mp hi
    exact ⟨hw.fits hb, ih (OffsetBase.small_past hb hw) hws⟩

theorem Instruction.Fits.spell_toWire {b : OffsetBase} {i : Instruction} (hi : i.Fits b)
    (rest : List UInt8) : spell b (i.toWire b ++ rest) = (spell (b.past i) rest).behind i := by
  rw [spell]
  cases i with
  | copy offset length =>
    have hp := Record.parse?_encode b.mode (.copy (b.encode offset).1 length)
      ⟨OffsetBase.stores_of_reaches hi.1, hi.2⟩ rest
    have hd := OffsetBase.decode_encode hi.1
    rw [Instruction.toWire, hp]
    simp only [hd]
    rfl
  | literal bytes =>
    have hp := Record.parse?_encode b.mode (.literal bytes.size) hi
      (bytes.data.toList ++ rest)
    have hl := length_toList bytes
    rw [Instruction.toWire, List.append_assoc, hp]
    simp only
    rw [if_pos (by rw [List.length_append]; omega), ← hl, List.drop_left, List.take_left,
      packBytes_toList]
    rfl

theorem spell_toWire_cons {b : OffsetBase} (hb : b.Small) {i : Instruction} (hi : i.Writable)
    (rest : List UInt8) : spell b (i.toWire b ++ rest) = (spell (b.past i) rest).behind i :=
  (hi.fits hb).spell_toWire rest

/-- Instructions that fit are spelled by their bytes. -/
theorem Fit.spell_toWire {b : OffsetBase} {is : List Instruction} (hi : Fit b is)
    (rest : List UInt8) :
    spell b (toWire b is ++ rest) = (spell (is.foldl OffsetBase.past b) rest).behindAll is := by
  induction is generalizing b with
  | nil => rfl
  | cons i is ih =>
    obtain ⟨hw, hws⟩ := hi
    rw [toWire, List.append_assoc, hw.spell_toWire, ih hws, List.foldl_cons,
      Spelling.behindAll_cons]

/-- Instructions that can be written are spelled by their bytes. -/
theorem spell_toWire {b : OffsetBase} (hb : b.Small) {is : List Instruction}
    (hi : ∀ i ∈ is, i.Writable) (rest : List UInt8) :
    spell b (toWire b is ++ rest) = (spell (is.foldl OffsetBase.past b) rest).behindAll is :=
  (fit_of_writable hb hi).spell_toWire rest

/-- The end marker is spelled as such. -/
theorem spell_eof (b : OffsetBase) (rest : List UInt8) :
    spell b (Record.eof.encode b.mode ++ rest) = .ends (.marker rest) := by
  have hp := Record.parse?_encode b.mode .eof trivial rest
  rw [spell, hp]

end BinaryDelta
