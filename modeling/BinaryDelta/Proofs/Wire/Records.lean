import BinaryDelta.Proofs.Wire.Parse
import Mathlib.Algebra.GroupWithZero.Nat

/-!
# All records of a byte string

Behind its preamble a patch is one record after the other, with payloads in between.
`wireRecords?` takes a byte string apart in that way and keeps of each record what it says and in
which form. So it can be counted what is on the wire, whatever a writer believes to have written.

* `offsetFields width` counts the records whose offset field has that many bytes, and
  `describedLength` adds up the bytes of output.

Results:
* `wireRecords?_append`: records in front of others stay as they are.
* `wireRecords?_copy`, `wireRecords?_literal`, `wireRecords?_eof`: a record that was written is
  found again, and its offset field has the width selected for it.
-/

namespace BinaryDelta

/-- The number of payload bytes behind a record. -/
def Record.payloadLength : Record → Nat
  | literal length => length
  | _ => 0

/-- The number of bytes of the offset field, if there is one. -/
def RecordForm.offsetBytes? : RecordForm → Option Nat
  | copy offset _ => some offset.bytes
  | _ => none

/-- The records of a byte string with their forms, none if it ends within one of them. -/
def wireRecords? (mode : Mode) : List UInt8 → Option (List (RecordForm × Record))
  | [] => some []
  | opcode :: bytes =>
    match _h : Record.parse? mode (opcode :: bytes) with
    | none => none
    | some (record, rest) =>
      if record.payloadLength ≤ rest.length then
        (RecordForm.ofOpcode? mode opcode).bind fun form =>
          (wireRecords? mode (rest.drop record.payloadLength)).map ((form, record) :: ·)
      else none
termination_by bytes => bytes.length
decreasing_by
  have := Record.length_lt_of_parse? _h
  rw [List.length_drop]
  omega

/-- How many of the records have an offset field of this many bytes? -/
def offsetFields (width : Nat) (records : List (RecordForm × Record)) : Nat :=
  records.countP fun (form, _) => form.offsetBytes? = some width

/-- The number of bytes that the records stand for. -/
def describedLength (records : List (RecordForm × Record)) : Nat :=
  (records.map fun (_, record) => record.outputLength).sum

@[simp] theorem offsetFields_append (width : Nat) (rs rs' : List (RecordForm × Record)) :
    offsetFields width (rs ++ rs') = offsetFields width rs + offsetFields width rs' :=
  List.countP_append

@[simp] theorem describedLength_append (rs rs' : List (RecordForm × Record)) :
    describedLength (rs ++ rs') = describedLength rs + describedLength rs' := by
  simp [describedLength]

section Wire

variable {mode : Mode}

theorem wireRecords?_cons {opcode : UInt8} {form : RecordForm}
    (hf : RecordForm.ofOpcode? mode opcode = some form) {bytes payload rest : List UInt8}
    {record : Record} (hp : Record.parse? mode (opcode :: bytes) = some (record, payload ++ rest))
    (hl : payload.length = record.payloadLength) :
    wireRecords? mode (opcode :: bytes) = (wireRecords? mode rest).map ((form, record) :: ·) := by
  rw [wireRecords?, hp]
  simp only
  rw [if_pos (by rw [List.length_append]; omega), hf, Option.bind_some, List.drop_left' hl]

/-- Records in front of others stay as they are. -/
theorem wireRecords?_append {bytes : List UInt8} {rs : List (RecordForm × Record)}
    (h : wireRecords? mode bytes = some rs) (bytes' : List UInt8) :
    wireRecords? mode (bytes ++ bytes') = (wireRecords? mode bytes').map (rs ++ ·) := by
  fun_induction wireRecords? mode bytes generalizing rs with
  | case1 =>
    cases h
    simp
  | case2 opcode bytes hp => cases h
  | case3 opcode bytes record rest hp hl ih =>
    obtain ⟨form, hf, hrest⟩ := Option.bind_eq_some_iff.mp h
    obtain ⟨rs', hrs', rfl⟩ := Option.map_eq_some_iff.mp hrest
    have hlen : (rest.take record.payloadLength).length = record.payloadLength :=
      List.length_take_of_le hl
    have hp' : Record.parse? mode (opcode :: (bytes ++ bytes')) =
        some (record, rest.take record.payloadLength ++
          (rest.drop record.payloadLength ++ bytes')) := by
      rw [← List.append_assoc, List.take_append_drop, ← List.cons_append]
      exact Record.parse?_append hp bytes'
    rw [List.cons_append, wireRecords?_cons hf hp' hlen, ih hrs', Option.map_map]
    rfl
  | case4 opcode bytes record rest hp hl => cases h

theorem wireRecords?_single {opcode : UInt8} {form : RecordForm}
    (hf : RecordForm.ofOpcode? mode opcode = some form) {bytes payload : List UInt8}
    {record : Record} (hp : Record.parse? mode (opcode :: bytes) = some (record, payload))
    (hl : payload.length = record.payloadLength) :
    wireRecords? mode (opcode :: bytes) = some [(form, record)] := by
  rw [← List.append_nil payload] at hp
  rw [wireRecords?_cons hf hp hl, wireRecords?]
  rfl

/-- A copy that was written is found again. Its offset field has the selected width, and so it has
if that does not hold the value. -/
theorem wireRecords?_copy (mode : Mode) (value : Int) {length : Nat} (hn : length < 0x100000000) :
    ∃ width value', wireRecords? mode ((Record.copy value length).encode mode) =
      some [(.copy (OffsetWidth.select mode value) width, .copy value' length)] := by
  obtain ⟨value', hp⟩ : ∃ value',
      Record.parse? mode ((Record.copy value length).encode mode ++ []) =
        some (.copy value' length, []) :=
    ⟨_, Record.parse?_encode_copy_field value hn []⟩
  rw [List.append_nil, Record.encode_copy] at hp
  rw [Record.encode_copy, ← fst_copyForm mode value length]
  exact ⟨_, _, wireRecords?_single (Record.ofOpcode?_copyForm mode value length) hp rfl⟩

/-- A literal that was written with its payload is found again. -/
theorem wireRecords?_literal (mode : Mode) {length : Nat} (h₀ : 0 < length)
    (hn : length < 0x100000000) {payload : List UInt8} (hl : payload.length = length) :
    ∃ form : RecordForm, form.offsetBytes? = none ∧
      wireRecords? mode ((Record.literal length).encode mode ++ payload) =
        some [(form, .literal length)] := by
  have hp : Record.parse? mode ((Record.literal length).encode mode ++ payload) =
    some (.literal length, payload) := Record.parse?_encode_literal h₀ hn payload
  obtain ⟨opcode, fields, form, hbytes, hf, -, hrecord⟩ := Record.parse?_eq_some hp
  rw [hbytes] at hp ⊢
  refine ⟨form, ?_, wireRecords?_single hf hp hl⟩
  cases form with
  | eof => rfl
  | inline length => rfl
  | literal width => rfl
  | copy offset width => cases hrecord

theorem wireRecords?_eof : wireRecords? mode (Record.eof.encode mode) = some [(.eof, .eof)] :=
  have hf : RecordForm.ofOpcode? mode 0 = some .eof := rfl
  wireRecords?_single hf rfl rfl

end Wire

end BinaryDelta
