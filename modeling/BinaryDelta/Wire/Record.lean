import BinaryDelta.Wire.Mode

/-!
# Records

Model of `Record`, `OffsetWidth` and `LengthWidth`: `select`, `copy_opcode`, `literal_opcode`,
`write_copy`, `write_literal_header` and `read_record`.

A stream is a sequence of records. Each opens with an opcode byte, which settles how long the fields
behind it are; the payload of a literal follows its record.

| opcode | meaning |
|---|---|
| 0 | end of the stream |
| 1 to `Mode.literalMax` | literal of that many bytes |
| 247, 248 | literal with a 2-byte, 4-byte length |
| 244 to 246 | copy with a 1-byte offset and a 1, 2, 4-byte length (differential mode only) |
| 249 to 251 | copy with a 2-byte offset and a 1, 2, 4-byte length |
| 252 to 254 | copy with a 4-byte offset and a 1, 2, 4-byte length |
| 255 | copy with an 8-byte offset and a 4-byte length |

Offset fields are signed in differential mode and unsigned in normal mode; 8-byte ones are always
signed.

* `RecordForm.ofOpcode?` is the table above, `RecordForm.record` reads the fields.
* `Record.encode` writes a record with the narrowest widths that it is given by `copyForm`, and
  `Record.headerLength` counts the bytes of that.
* `readRecord` reads one record and answers with the number of bytes it took.
-/

namespace BinaryDelta

/-- The width of an offset field. -/
inductive OffsetWidth where
  | byte
  | short
  | int
  | long
  deriving Repr, DecidableEq

/-- The width of a length field. -/
inductive LengthWidth where
  | byte
  | short
  | int
  deriving Repr, DecidableEq

namespace OffsetWidth

/-- The number of bytes. -/
def bytes : OffsetWidth → Nat
  | byte => 1
  | short => 2
  | int => 4
  | long => 8

/-- The width of an offset field, by the magnitude of its value. -/
def select (mode : Mode) (value : Int) : OffsetWidth :=
  if 0x80000000 ≤ value.natAbs then long
  else if mode = .differential ∧ value.natAbs < 128 then byte
  else if value.natAbs < 0x8000 then short
  else int

end OffsetWidth

namespace LengthWidth

/-- The number of bytes. -/
def bytes : LengthWidth → Nat
  | byte => 1
  | short => 2
  | int => 4

/-- The width of a length field. -/
def select (length : Nat) : LengthWidth :=
  if length < 256 then byte else if length < 0x8000 then short else int

end LengthWidth

/-- One record, without the payload of a literal. -/
inductive Record where
  | eof
  | literal (length : Nat)
  /-- A copy, with its offset as stored. -/
  | copy (value : Int) (length : Nat)
  deriving Repr, DecidableEq

namespace Record

/-- The number of bytes the record stands for. -/
def outputLength : Record → Nat
  | eof => 0
  | literal length => length
  | copy _ length => length

end Record

/-! ## Reading -/

/-- What an opcode says about the fields behind it. -/
inductive RecordForm where
  | eof
  /-- A literal whose length is the opcode itself. -/
  | inline (length : Nat)
  | literal (width : LengthWidth)
  | copy (offset : OffsetWidth) (length : LengthWidth)
  deriving Repr, DecidableEq

namespace RecordForm

/-- The copies among the opcodes. -/
def ofCopyOpcode? : Nat → Option RecordForm
  | 244 => some (copy .byte .byte)
  | 245 => some (copy .byte .short)
  | 246 => some (copy .byte .int)
  | 249 => some (copy .short .byte)
  | 250 => some (copy .short .short)
  | 251 => some (copy .short .int)
  | 252 => some (copy .int .byte)
  | 253 => some (copy .int .short)
  | 254 => some (copy .int .int)
  | 255 => some (copy .long .int)
  | _ => none

/-- The form that an opcode announces. -/
def ofOpcode? (mode : Mode) (opcode : UInt8) : Option RecordForm :=
  if opcode = 0 then some eof
  else if opcode.toNat ≤ mode.literalMax then some (inline opcode.toNat)
  else if opcode = 247 then some (literal .short)
  else if opcode = 248 then some (literal .int)
  else ofCopyOpcode? opcode.toNat

/-- The number of bytes of each field behind the opcode. -/
def fieldSizes : RecordForm → List Nat
  | eof => []
  | inline _ => []
  | literal width => [width.bytes]
  | copy offset length => [offset.bytes, length.bytes]

/-- The number of bytes behind the opcode. -/
def fieldBytes (form : RecordForm) : Nat := form.fieldSizes.foldr (· + ·) 0

/-- The value of an offset field. -/
def offsetValue (mode : Mode) (width : OffsetWidth) (field : Nat) : Int :=
  if mode = .differential ∨ width = .long then Int.bmod field (fieldRange width.bytes) else field

/-- The record that the fields of a form spell. -/
def record (mode : Mode) (fields : List UInt8) : RecordForm → Record
  | eof => .eof
  | inline length => .literal length
  | literal _ => .literal (ofBigEndian fields)
  | copy offset _ =>
    .copy (offsetValue mode offset (ofBigEndian (fields.take offset.bytes)))
      (ofBigEndian (fields.drop offset.bytes))

end RecordForm

/-- A stream that ends inside a record has ended too early. -/
def wireError : Shortfall → DeltaError
  | .ended => .unexpectedEndOfData
  | .fault fault => .io fault

/-- Reads one record whose opcode is at `position`, field by field, and answers with the number of
bytes it took. -/
def readRecord {ρ : Type} [ByteReader ρ] (mode : Mode) (r : ρ) (position : Nat) :
    Except DeltaError (Record × Nat) × ρ :=
  match ByteReader.readField r 1 with
  | (.error shortfall, r) => (.error (wireError shortfall), r)
  | (.ok opcode, r) =>
    match RecordForm.ofOpcode? mode (UInt8.ofNat opcode) with
    | none => (.error (.unknownOpcode (UInt8.ofNat opcode) position), r)
    | some form =>
      match ByteReader.readEach r form.fieldSizes with
      | (.error shortfall, r) => (.error (wireError shortfall), r)
      | (.ok fields, r) => (.ok (form.record mode fields.data.toList, 1 + form.fieldBytes), r)

/-- A record that was read is no longer to come. -/
theorem remaining_of_readRecord {ρ : Type} [ByteReader ρ] {mode : Mode} {r r' : ρ} {position : Nat}
    {record : Record} {length : Nat}
    (h : readRecord mode r position = (.ok (record, length), r')) :
    0 < length ∧ length + ByteReader.remaining r' ≤ ByteReader.remaining r := by
  unfold readRecord ByteReader.readField at h
  split at h
  · simp at h
  · rename_i hf
    split at hf
    · simp at hf
    · rename_i h₁
      obtain ⟨⟨⟩, rfl⟩ := Prod.mk.inj hf
      have := ByteReader.remaining_of_readExact h₁
      split at h
      · simp at h
      · split at h
        · simp at h
        · rename_i h₂
          have := ByteReader.remaining_of_readEach h₂
          rename_i form _ _ _ _
          have : form.fieldBytes = form.fieldSizes.foldr (· + ·) 0 := rfl
          simp only [Prod.mk.injEq, Except.ok.injEq] at h
          obtain ⟨⟨_, rfl⟩, rfl⟩ := h
          omega

/-- What every call keeps is kept by reading a record. -/
theorem ByteReader.Kept.readRecord {ρ : Type} [ByteReader ρ] {R : ρ → ρ → Prop}
    (k : ByteReader.Kept R) (mode : Mode) (r : ρ) (position : Nat) :
    R r (readRecord mode r position).2 := by
  have h := k.readExact r 1
  unfold BinaryDelta.readRecord ByteReader.readField
  split
  · rename_i hf
    split at hf <;> rename_i ho <;> rw [ho] at h <;> cases hf
    exact h
  · rename_i r' hf
    split at hf <;> rename_i ho <;> rw [ho] at h <;> cases hf
    split
    · exact h
    · rename_i form _
      have hs := k.readEach r' form.fieldSizes
      split <;> rename_i he <;> rw [he] at hs <;> exact k.trans h hs

/-! ## Writing -/

/-- The widths of a copy. The longest offset always goes with the longest length. -/
def copyForm (mode : Mode) (value : Int) (length : Nat) : OffsetWidth × LengthWidth :=
  match OffsetWidth.select mode value with
  | .long => (.long, .int)
  | offset => (offset, LengthWidth.select length)

/-- The opcode of a copy with these widths. -/
def opcodeOfWidths : OffsetWidth × LengthWidth → UInt8
  | (.byte, .byte) => 244
  | (.byte, .short) => 245
  | (.byte, .int) => 246
  | (.short, .byte) => 249
  | (.short, .short) => 250
  | (.short, .int) => 251
  | (.int, .byte) => 252
  | (.int, .short) => 253
  | (.int, .int) => 254
  | (.long, _) => 255

/-- The opcode of a copy. -/
def copyOpcode (mode : Mode) (value : Int) (length : Nat) : UInt8 :=
  opcodeOfWidths (copyForm mode value length)

/-- The opcode of a literal; an empty one has none. -/
def literalOpcode? (mode : Mode) (length : Nat) : Option UInt8 :=
  if length = 0 then none
  else if length ≤ mode.literalMax then some (UInt8.ofNat length)
  else if length < 0x10000 then some 247
  else some 248

namespace Record

/-- The fields of a copy: opcode, offset, length. -/
def copyFields (mode : Mode) (value : Int) (length : Nat) : List (List UInt8) :=
  let (offset, width) := copyForm mode value length
  [[copyOpcode mode value length],
    bigEndian offset.bytes (value % 0x10000000000000000).toNat, bigEndian width.bytes length]

/-- The fields in front of the payload of a literal: opcode, and length where the opcode does not
say it. An empty literal has none. -/
def literalFields (mode : Mode) (length : Nat) : List (List UInt8) :=
  match literalOpcode? mode length with
  | none => []
  | some opcode =>
    if opcode = 247 then [[opcode], bigEndian 2 length]
    else if opcode = 248 then [[opcode], bigEndian 4 length]
    else [[opcode]]

/-- The fields of a record. -/
def fields (mode : Mode) : Record → List (List UInt8)
  | eof => [[0]]
  | literal length => literalFields mode length
  | copy value length => copyFields mode value length

/-- The bytes of a record. -/
def encode (mode : Mode) (record : Record) : List UInt8 := (record.fields mode).flatten

/-- The number of these bytes, added up from the widths. -/
def headerLength (mode : Mode) : Record → Nat
  | eof => 1
  | literal length =>
    match literalOpcode? mode length with
    | none => 0
    | some opcode => if opcode = 247 then 3 else if opcode = 248 then 5 else 1
  | copy value length =>
    let (offset, width) := copyForm mode value length
    1 + offset.bytes + width.bytes

theorem length_encode (mode : Mode) (record : Record) :
    (record.encode mode).length = record.headerLength mode := by
  cases record with
  | eof => rfl
  | literal length =>
    simp only [encode, fields, literalFields, headerLength]
    cases literalOpcode? mode length with
    | none => rfl
    | some opcode =>
      dsimp only
      split
      · simp
      · split <;> simp
  | copy value length =>
    simp only [encode, fields, copyFields, headerLength, List.length_flatten, List.map_cons,
      List.map_nil, length_bigEndian, List.length_singleton, List.sum_cons, List.sum_nil]
    omega

end Record

end BinaryDelta
