import BinaryDelta.Proofs.Stream.Delivery
import BinaryDelta.Wire.Record

/-!
# The records of a byte string

`Record.parse?` takes the first record off a byte string. It is what reading a record comes to,
whatever reader the bytes arrive through, and it takes back off what writing a record puts in front.

Results:
* `exists_ofOpcode?`: every opcode announces a form, in either mode.
* `Delivery.readRecord`, `Delivery.readRecord_cut`: reading a record is parsing the bytes to come.
* `parse?_encode`: a record that was written is parsed back, and what follows it is left alone.
-/

namespace BinaryDelta

/-! ## Fields -/

theorem ofBigEndian_cons (byte : UInt8) (bytes : List UInt8) :
    ofBigEndian (byte :: bytes) = byte.toNat * fieldRange bytes.length + ofBigEndian bytes := by
  have hfold : ∀ (bytes : List UInt8) (acc : Nat),
      bytes.foldl (fun n (b : UInt8) => n * 256 + b.toNat) acc =
        acc * fieldRange bytes.length + bytes.foldl (fun n (b : UInt8) => n * 256 + b.toNat) 0 := by
    intro bytes
    induction bytes with
    | nil => intro acc; simp [fieldRange]
    | cons b bytes ih =>
      intro acc
      rw [List.foldl_cons, List.foldl_cons, ih, ih (0 * 256 + b.toNat), List.length_cons,
        fieldRange]
      grind
  rw [ofBigEndian, List.foldl_cons, hfold, Nat.zero_mul, Nat.zero_add, ← ofBigEndian]

/-- A field holds less than its range. -/
theorem ofBigEndian_lt (bytes : List UInt8) : ofBigEndian bytes < fieldRange bytes.length := by
  induction bytes with
  | nil => decide
  | cons byte bytes ih =>
    have hb := byte.toNat_lt
    have hm := Nat.mul_le_mul_right (fieldRange bytes.length) (Nat.le_sub_one_of_lt hb)
    rw [ofBigEndian_cons, List.length_cons, fieldRange]
    omega

theorem ofBigEndian_singleton (byte : UInt8) : ofBigEndian [byte] = byte.toNat := by
  simp [ofBigEndian]

theorem fieldRange_le_of_le {width width' : Nat} (h : width ≤ width') :
    fieldRange width ≤ fieldRange width' := by
  induction h with
  | refl => exact Nat.le_refl _
  | step _ ih => rw [fieldRange]; omega

theorem OffsetWidth.bytes_le (width : OffsetWidth) : width.bytes ≤ 8 := by
  cases width <;> decide

theorem LengthWidth.bytes_le (width : LengthWidth) : width.bytes ≤ 4 := by
  cases width <;> decide

theorem fieldRange_cases (width : OffsetWidth) :
    fieldRange width.bytes = 256 ∨ fieldRange width.bytes = 65536 ∨
      fieldRange width.bytes = 4294967296 ∨ fieldRange width.bytes = 18446744073709551616 := by
  cases width <;> decide

/-- The value of an offset field is a signed 64-bit number. -/
theorem bounds_offsetValue (mode : Mode) (width : OffsetWidth) {field : Nat}
    (h : field < fieldRange width.bytes) :
    -0x8000000000000000 ≤ RecordForm.offsetValue mode width field ∧
      RecordForm.offsetValue mode width field < 0x8000000000000000 := by
  unfold RecordForm.offsetValue
  split
  · have hr := fieldRange_cases width
    generalize fieldRange width.bytes = range at hr
    rw [Int.bmod_def]
    rcases hr with rfl | rfl | rfl | rfl <;> split <;> omega
  · rename_i hlong
    have hint : width.bytes ≤ 4 := by
      cases width with
      | long => exact absurd (.inr rfl) hlong
      | byte => decide
      | short => decide
      | int => decide
    have hr : fieldRange width.bytes ≤ 4294967296 := fieldRange_le_of_le hint
    omega

/-! ## Opcodes -/

theorem exists_ofCopyOpcode? {n : Nat} (h₁ : 244 ≤ n) (h₂ : n < 256) (h₃ : n ≠ 247)
    (h₄ : n ≠ 248) : ∃ form, RecordForm.ofCopyOpcode? n = some form := by
  have h : n = 244 ∨ n = 245 ∨ n = 246 ∨ n = 249 ∨ n = 250 ∨ n = 251 ∨ n = 252 ∨ n = 253 ∨
      n = 254 ∨ n = 255 := by omega
  rcases h with rfl | rfl | rfl | rfl | rfl | rfl | rfl | rfl | rfl | rfl <;> exact ⟨_, rfl⟩

theorem Mode.le_literalMax (mode : Mode) : 243 ≤ mode.literalMax := by
  cases mode <;> decide

theorem Mode.literalMax_lt (mode : Mode) : mode.literalMax < 247 := by
  cases mode <;> decide

/-- Every opcode announces a form. -/
theorem exists_ofOpcode? (mode : Mode) (opcode : UInt8) :
    ∃ form, RecordForm.ofOpcode? mode opcode = some form := by
  have hm := mode.le_literalMax
  unfold RecordForm.ofOpcode?
  split
  · exact ⟨_, rfl⟩
  · split
    · exact ⟨_, rfl⟩
    · split
      · exact ⟨_, rfl⟩
      · rename_i h₃
        split
        · exact ⟨_, rfl⟩
        · rename_i h₄
          refine exists_ofCopyOpcode? (by omega) opcode.toNat_lt (fun h => h₃ ?_) (fun h => h₄ ?_)
          · exact UInt8.toNat_inj.mp h
          · exact UInt8.toNat_inj.mp h

theorem eq_of_ofOpcode?_inline {mode : Mode} {opcode : UInt8} {length : Nat}
    (h : RecordForm.ofOpcode? mode opcode = some (.inline length)) : length = opcode.toNat := by
  unfold RecordForm.ofOpcode? at h
  split at h
  · cases h
  · split at h
    · cases h
      rfl
    · split at h
      · cases h
      · split at h
        · cases h
        · unfold RecordForm.ofCopyOpcode? at h
          split at h <;> cases h

/-! ## Parsing -/

namespace Record

/-- The first record of a byte string and the bytes behind it; none if the bytes end within it. -/
def parse? (mode : Mode) : List UInt8 → Option (Record × List UInt8)
  | [] => none
  | opcode :: bytes =>
    (RecordForm.ofOpcode? mode opcode).bind fun form =>
      if form.fieldBytes ≤ bytes.length then
        some (form.record mode (bytes.take form.fieldBytes), bytes.drop form.fieldBytes)
      else none

theorem parse?_cons {mode : Mode} {opcode : UInt8} {form : RecordForm}
    (h : RecordForm.ofOpcode? mode opcode = some form) (fields : List UInt8)
    (hl : fields.length = form.fieldBytes) (rest : List UInt8) :
    parse? mode (opcode :: (fields ++ rest)) = some (form.record mode fields, rest) := by
  rw [parse?, h, Option.bind_some, if_pos (by rw [List.length_append]; omega), ← hl,
    List.take_left, List.drop_left]

theorem parse?_eq_some {mode : Mode} {bytes rest : List UInt8} {record : Record}
    (h : parse? mode bytes = some (record, rest)) :
    ∃ opcode fields form, bytes = opcode :: (fields ++ rest) ∧
      RecordForm.ofOpcode? mode opcode = some form ∧ fields.length = form.fieldBytes ∧
        record = form.record mode fields := by
  cases bytes with
  | nil => cases h
  | cons opcode bytes =>
    obtain ⟨form, hf⟩ := exists_ofOpcode? mode opcode
    rw [parse?, hf, Option.bind_some] at h
    split at h
    · rename_i hle
      obtain ⟨rfl, rfl⟩ := Prod.mk.inj (Option.some.inj h)
      exact ⟨opcode, bytes.take form.fieldBytes, form, by rw [List.take_append_drop], hf,
        List.length_take_of_le hle, rfl⟩
    · cases h

/-- What follows is left alone. -/
theorem parse?_append {mode : Mode} {bytes rest : List UInt8} {record : Record}
    (h : parse? mode bytes = some (record, rest)) (behind : List UInt8) :
    parse? mode (bytes ++ behind) = some (record, rest ++ behind) := by
  obtain ⟨opcode, fields, form, rfl, hf, hl, rfl⟩ := parse?_eq_some h
  rw [List.cons_append, List.append_assoc]
  exact parse?_cons hf fields hl (rest ++ behind)

/-- What is left behind a record is the end of what it was taken off. -/
theorem suffix_of_parse? {mode : Mode} {bytes rest : List UInt8} {record : Record}
    (h : parse? mode bytes = some (record, rest)) : rest <:+ bytes := by
  obtain ⟨opcode, fields, form, rfl, -⟩ := parse?_eq_some h
  exact ⟨opcode :: fields, rfl⟩

/-- A record takes up at least one byte. -/
theorem length_lt_of_parse? {mode : Mode} {bytes rest : List UInt8} {record : Record}
    (h : parse? mode bytes = some (record, rest)) : rest.length < bytes.length := by
  obtain ⟨opcode, fields, form, rfl, -⟩ := parse?_eq_some h
  rw [List.length_cons, List.length_append]
  omega

/-- A record stands for less than 2³² bytes. -/
theorem outputLength_lt_of_parse? {mode : Mode} {bytes rest : List UInt8} {record : Record}
    (h : parse? mode bytes = some (record, rest)) : record.outputLength < 0x100000000 := by
  obtain ⟨opcode, fields, form, rfl, hf, hl, rfl⟩ := parse?_eq_some h
  have hfour : fieldRange 4 = 0x100000000 := rfl
  cases form with
  | eof => exact Nat.zero_lt_succ _
  | inline length =>
    have hi := eq_of_ofOpcode?_inline hf
    have hb := opcode.toNat_lt
    show length < _
    omega
  | literal width =>
    have hw := fieldRange_le_of_le width.bytes_le
    have hn := ofBigEndian_lt fields
    replace hl : fields.length = width.bytes := hl
    show ofBigEndian fields < _
    rw [hl] at hn
    omega
  | copy offset width =>
    have hw := fieldRange_le_of_le width.bytes_le
    have hn := ofBigEndian_lt (fields.drop offset.bytes)
    replace hl : fields.length = offset.bytes + width.bytes := hl
    show ofBigEndian (fields.drop offset.bytes) < _
    rw [List.length_drop, hl, Nat.add_sub_cancel_left] at hn
    omega

/-- The offset stored in a copy is a signed 64-bit number. -/
theorem bounds_of_parse? {mode : Mode} {bytes rest : List UInt8} {value : Int} {length : Nat}
    (h : parse? mode bytes = some (.copy value length, rest)) :
    -0x8000000000000000 ≤ value ∧ value < 0x8000000000000000 := by
  obtain ⟨opcode, fields, form, rfl, -, hl, hrecord⟩ := parse?_eq_some h
  cases form with
  | eof => cases hrecord
  | inline length => cases hrecord
  | literal width => cases hrecord
  | copy offset width =>
    cases hrecord
    have hn := ofBigEndian_lt (fields.take offset.bytes)
    have hle : offset.bytes ≤ fields.length := by
      replace hl : fields.length = offset.bytes + width.bytes := hl
      omega
    rw [List.length_take_of_le hle] at hn
    exact bounds_offsetValue mode offset hn

end Record

namespace ByteReader.Delivery

variable {ρ : Type} [ByteReader ρ] {R : ρ → List UInt8 → Prop} {bytes rest : List UInt8}
  {mode : Mode}

/-- Reading a record takes it off the bytes to come. -/
theorem readRecord (d : Delivery R) {r : ρ} (h : R r bytes) {record : Record}
    (hp : Record.parse? mode bytes = some (record, rest)) (position : Nat) :
    ∃ r', BinaryDelta.readRecord mode r position =
        (.ok (record, bytes.length - rest.length), r') ∧ R r' rest := by
  obtain ⟨opcode, fields, form, rfl, hf, hl, rfl⟩ := Record.parse?_eq_some hp
  obtain ⟨r₁, h₁, hrest⟩ := d.readField h 1 (by simp)
  have hop : ofBigEndian ((opcode :: (fields ++ rest)).take 1) = opcode.toNat :=
    ofBigEndian_singleton opcode
  have hsum : form.fieldSizes.foldr (· + ·) 0 = fields.length := hl.symm
  obtain ⟨r₂, h₂, hrest'⟩ := d.readEach hrest form.fieldSizes (by simp [hsum])
  have hlen : (opcode :: (fields ++ rest)).length - rest.length = 1 + form.fieldBytes := by
    rw [List.length_cons, List.length_append, hl]
    omega
  refine ⟨r₂, ?_, ?_⟩
  · rw [BinaryDelta.readRecord, h₁, hop, hlen]
    simp only [UInt8.ofNat_toNat, hf, h₂, hsum, data_packBytes, List.drop_one, List.tail_cons,
      List.take_left]
  · simpa [hsum] using hrest'

/-- Reading a record that the bytes to come end within comes up short. -/
theorem readRecord_cut (d : Delivery R) {r : ρ} (h : R r bytes)
    (hp : Record.parse? mode bytes = none) (position : Nat) :
    ∃ r', BinaryDelta.readRecord mode r position = (.error .unexpectedEndOfData, r') ∧ R r' [] := by
  cases bytes with
  | nil =>
    obtain ⟨r₁, h₁, hend⟩ := d.readField_short h 1 Nat.zero_lt_one
    exact ⟨r₁, by rw [BinaryDelta.readRecord, h₁]; rfl, hend⟩
  | cons opcode bytes =>
    obtain ⟨form, hf⟩ := exists_ofOpcode? mode opcode
    rw [Record.parse?, hf, Option.bind_some] at hp
    split at hp
    · cases hp
    · rename_i hlt
      obtain ⟨r₁, h₁, hrest⟩ := d.readField h 1 (by simp)
      have hop : ofBigEndian ((opcode :: bytes).take 1) = opcode.toNat :=
        ofBigEndian_singleton opcode
      obtain ⟨r₂, h₂, hend⟩ := d.readEach_short hrest form.fieldSizes
        (Nat.lt_of_not_le hlt)
      refine ⟨r₂, ?_, hend⟩
      rw [BinaryDelta.readRecord, h₁, hop]
      simp only [UInt8.ofNat_toNat, hf, h₂]
      rfl

end ByteReader.Delivery

/-! ## Writing -/

/-- The stored offsets that a stream of this mode can hold. -/
def Mode.Stores (value : Int) : Mode → Prop
  | .normal => 0 ≤ value ∧ value < 0x8000000000000000
  | .differential => -0x8000000000000000 ≤ value ∧ value < 0x8000000000000000

/-- Can the record be written in this mode? -/
def Record.Encodable (mode : Mode) : Record → Prop
  | eof => True
  | literal length => 0 < length ∧ length < 0x100000000
  | copy value length => mode.Stores value ∧ length < 0x100000000

theorem Mode.Stores.bounds {mode : Mode} {value : Int} (h : mode.Stores value) :
    -0x8000000000000000 ≤ value ∧ value < 0x8000000000000000 := by
  cases mode with
  | normal => exact ⟨Int.le_trans (by decide) h.1, h.2⟩
  | differential => exact h

namespace OffsetWidth

/-- One-byte offsets are for differential mode. -/
theorem mode_of_select_byte {mode : Mode} {value : Int} (h : select mode value = byte) :
    mode = .differential := by
  unfold select at h
  split at h
  · cases h
  · split at h
    · rename_i hb
      exact hb.1
    · split at h <;> cases h

/-- Short of the longest width, the value takes up at most half of the range of its field. -/
theorem natAbs_lt_of_select {mode : Mode} {value : Int} (h : select mode value ≠ long) :
    2 * value.natAbs < fieldRange (select mode value).bytes := by
  unfold select at h ⊢
  split at h
  · exact absurd rfl h
  · rename_i hl
    rw [if_neg hl]
    split
    · rename_i hb
      show 2 * value.natAbs < 256
      omega
    · split
      · show 2 * value.natAbs < 65536
        omega
      · show 2 * value.natAbs < 4294967296
        omega

end OffsetWidth

/-- A field of the selected width holds the value, in every mode that can store it. -/
theorem offsetValue_select {mode : Mode} {value : Int} (h : mode.Stores value) :
    RecordForm.offsetValue mode (OffsetWidth.select mode value)
      ((value % 0x10000000000000000).toNat %
        fieldRange (OffsetWidth.select mode value).bytes) = value := by
  have hr := fieldRange_cases (OffsetWidth.select mode value)
  have hb := h.bounds
  unfold RecordForm.offsetValue
  split
  · -- signed fields: the value is within half of the range on either side
    have hs : 2 * value.natAbs < fieldRange (OffsetWidth.select mode value).bytes ∨
        fieldRange (OffsetWidth.select mode value).bytes = 18446744073709551616 := by
      by_cases hl : OffsetWidth.select mode value = .long
      · rw [hl]
        exact .inr rfl
      · exact .inl (OffsetWidth.natAbs_lt_of_select hl)
    generalize fieldRange (OffsetWidth.select mode value).bytes = range at hr hs
    rw [Int.bmod_def]
    rcases hr with rfl | rfl | rfl | rfl <;> split <;> omega
  · rename_i hm
    obtain ⟨hd, hl⟩ := not_or.mp hm
    have hs := OffsetWidth.natAbs_lt_of_select hl
    have hn : 0 ≤ value := by
      cases mode with
      | normal => exact h.1
      | differential => exact absurd rfl hd
    generalize fieldRange (OffsetWidth.select mode value).bytes = range at hs
    rw [Nat.mod_eq_of_lt (by omega)]
    omega

theorem ofOpcode?_copy {mode : Mode} {offset : OffsetWidth} {width : LengthWidth}
    (hb : offset = .byte → mode = .differential) (hl : offset = .long → width = .int) :
    RecordForm.ofOpcode? mode (opcodeOfWidths (offset, width)) = some (.copy offset width) := by
  cases offset with
  | byte =>
    cases hb rfl
    cases width <;> rfl
  | short => cases mode <;> cases width <;> rfl
  | int => cases mode <;> cases width <;> rfl
  | long =>
    cases hl rfl
    cases mode <;> rfl

theorem length_lt_of_select {length : Nat} (h : length < 0x100000000) :
    length < fieldRange (LengthWidth.select length).bytes := by
  unfold LengthWidth.select
  split
  · assumption
  · split
    · show length < 65536
      omega
    · exact h

/-- The widths of a copy hold its length. -/
theorem length_lt_of_copyForm (mode : Mode) (value : Int) {length : Nat}
    (h : length < 0x100000000) : length < fieldRange (copyForm mode value length).2.bytes := by
  unfold copyForm
  split
  · exact h
  · exact length_lt_of_select h

theorem fst_copyForm (mode : Mode) (value : Int) (length : Nat) :
    (copyForm mode value length).1 = OffsetWidth.select mode value := by
  unfold copyForm
  split
  · rename_i h
    exact h.symm
  · rfl

theorem snd_copyForm_long {mode : Mode} {value : Int} (h : OffsetWidth.select mode value = .long)
    (length : Nat) : (copyForm mode value length).2 = .int := by
  unfold copyForm
  split
  · rfl
  · rename_i hn
    exact absurd h (by simpa using hn)

namespace Record

theorem encode_copy (mode : Mode) (value : Int) (length : Nat) :
    encode mode (.copy value length) = opcodeOfWidths (copyForm mode value length) ::
      (bigEndian (copyForm mode value length).1.bytes (value % 0x10000000000000000).toNat ++
        bigEndian (copyForm mode value length).2.bytes length) := by
  simp [encode, fields, copyFields, copyOpcode]

theorem ofOpcode?_copyForm (mode : Mode) (value : Int) (length : Nat) :
    RecordForm.ofOpcode? mode (opcodeOfWidths (copyForm mode value length)) =
      some (.copy (copyForm mode value length).1 (copyForm mode value length).2) := by
  have hs := fst_copyForm mode value length
  refine ofOpcode?_copy (fun h => ?_) (fun h => ?_)
  · exact OffsetWidth.mode_of_select_byte (hs.symm.trans h)
  · exact snd_copyForm_long (hs.symm.trans h) length

/-- A copy that was written is parsed back with what its offset field holds of the value. -/
theorem parse?_encode_copy_field {mode : Mode} (value : Int) {length : Nat}
    (hn : length < 0x100000000) (rest : List UInt8) :
    parse? mode (encode mode (.copy value length) ++ rest) =
      some (.copy (RecordForm.offsetValue mode (OffsetWidth.select mode value)
        ((value % 0x10000000000000000).toNat %
          fieldRange (OffsetWidth.select mode value).bytes)) length, rest) := by
  have hl := length_lt_of_copyForm mode value hn
  rw [encode_copy, List.cons_append, parse?_cons (ofOpcode?_copyForm mode value length) _
    (by simp; rfl), RecordForm.record, List.take_left' (length_bigEndian _ _),
    List.drop_left' (length_bigEndian _ _), ofBigEndian_bigEndian, ofBigEndian_bigEndian,
    Nat.mod_eq_of_lt hl, fst_copyForm]

theorem parse?_encode_copy {mode : Mode} {value : Int} {length : Nat} (hv : mode.Stores value)
    (hn : length < 0x100000000) (rest : List UInt8) :
    parse? mode (encode mode (.copy value length) ++ rest) = some (.copy value length, rest) := by
  rw [parse?_encode_copy_field value hn, offsetValue_select hv]

theorem toNat_ofNat_literal {mode : Mode} {length : Nat} (h : length ≤ mode.literalMax) :
    (UInt8.ofNat length).toNat = length := by
  have hm := mode.literalMax_lt
  rw [UInt8.toNat_ofNat', Nat.mod_eq_of_lt (by omega)]

theorem encode_inline {mode : Mode} {length : Nat} (h₀ : 0 < length)
    (h : length ≤ mode.literalMax) : encode mode (.literal length) = [UInt8.ofNat length] := by
  have hm := mode.literalMax_lt
  have ht := toNat_ofNat_literal h
  have hne : ∀ n : Nat, 247 ≤ n → n < 256 → UInt8.ofNat length ≠ UInt8.ofNat n := by
    intro n h₁ h₂ he
    rw [he, UInt8.toNat_ofNat', Nat.mod_eq_of_lt h₂] at ht
    omega
  have ho : literalOpcode? mode length = some (UInt8.ofNat length) := by
    rw [literalOpcode?, if_neg (by omega), if_pos h]
  have h247 : UInt8.ofNat length ≠ 247 := hne 247 (by omega) (by omega)
  have h248 : UInt8.ofNat length ≠ 248 := hne 248 (by omega) (by omega)
  simp [encode, fields, literalFields, ho, h247, h248]

theorem encode_short {mode : Mode} {length : Nat} (h : mode.literalMax < length)
    (hn : length < 0x10000) : encode mode (.literal length) = 247 :: bigEndian 2 length := by
  have ho : literalOpcode? mode length = some 247 := by
    rw [literalOpcode?, if_neg (by omega), if_neg (by omega), if_pos hn]
  simp [encode, fields, literalFields, ho]

theorem encode_int {mode : Mode} {length : Nat} (h : mode.literalMax < length)
    (hn : 0x10000 ≤ length) : encode mode (.literal length) = 248 :: bigEndian 4 length := by
  have ho : literalOpcode? mode length = some 248 := by
    rw [literalOpcode?, if_neg (by omega), if_neg (by omega), if_neg (by omega)]
  simp [encode, fields, literalFields, ho]

theorem parse?_encode_literal {mode : Mode} {length : Nat} (h₀ : 0 < length)
    (hn : length < 0x100000000) (rest : List UInt8) :
    parse? mode (encode mode (.literal length) ++ rest) = some (.literal length, rest) := by
  by_cases hm : length ≤ mode.literalMax
  · have hne : UInt8.ofNat length ≠ 0 := by
      intro h
      have ht := toNat_ofNat_literal hm
      rw [h] at ht
      exact absurd ht.symm (by simpa using Nat.ne_of_gt h₀)
    have hf : RecordForm.ofOpcode? mode (UInt8.ofNat length) = some (.inline length) := by
      rw [RecordForm.ofOpcode?, if_neg hne, toNat_ofNat_literal hm, if_pos hm]
    rw [encode_inline h₀ hm]
    exact parse?_cons hf [] rfl rest
  · have hf : ∀ {opcode : UInt8} (width : LengthWidth),
        RecordForm.ofOpcode? mode opcode = some (.literal width) → length < fieldRange width.bytes →
          parse? mode (opcode :: (bigEndian width.bytes length ++ rest)) =
            some (.literal length, rest) := by
      intro opcode width ho hl
      rw [parse?_cons ho _ (by simp; rfl), RecordForm.record, ofBigEndian_bigEndian,
        Nat.mod_eq_of_lt hl]
    by_cases hs : length < 0x10000
    · rw [encode_short (Nat.lt_of_not_le hm) hs]
      exact hf .short (by cases mode <;> rfl) hs
    · rw [encode_int (Nat.lt_of_not_le hm) (Nat.le_of_not_lt hs)]
      exact hf .int (by cases mode <;> rfl) hn

/-- A record that was written is parsed back, and what follows it is left alone. -/
theorem parse?_encode (mode : Mode) (record : Record) (h : record.Encodable mode)
    (rest : List UInt8) : parse? mode (record.encode mode ++ rest) = some (record, rest) := by
  cases record with
  | eof => rfl
  | literal length => exact parse?_encode_literal h.1 h.2 rest
  | copy value length => exact parse?_encode_copy h.1 h.2 rest

end Record

end BinaryDelta
