import BinaryDelta.Proofs.Sink.Writing
import BinaryDelta.Proofs.Wire.Parse

/-!
# Record headers

On the wire a record is a header: an opcode, and behind it the fields that the opcode announces. The
payload of a literal follows its header and is not part of it. One record has several headers, as a
field may be wider than its value needs and an opcode may leave room for a length that would fit
into the opcode itself. A writer picks one of them, a reader takes any.

* `IsHeader` relates a record to its headers. It knows the table of opcodes, and no reader.

Results:
* `Record.parse?_eq_some_iff`: a record is parsed exactly where one of its headers comes first.
* `Record.parse?_eq_none_iff`: none is parsed exactly where the bytes end within a header. So no
  byte string is outside the format, only too short.
* `isHeader_encode`: what is written for a record is one of its headers.
* `ByteReader.Delivers.readRecord_header`: reading a header takes all of it, and nothing behind it.
* **`readRecord_exact`**: what is written for a record is read back, over any output and through any
  reader, and what is read from any other bytes was a header or ended within one.
-/

namespace BinaryDelta

/-- The bytes are a header of the record: an opcode with all the fields that it announces. -/
inductive IsHeader (mode : Mode) : Record → List UInt8 → Prop
  | intro {opcode : UInt8} {form : RecordForm} {fields : List UInt8}
      (hform : RecordForm.ofOpcode? mode opcode = some form)
      (hlength : fields.length = form.fieldBytes) :
      IsHeader mode (form.record mode fields) (opcode :: fields)

variable {mode : Mode} {record : Record} {header bytes rest suffix : List UInt8}

/-! ## Parsing -/

namespace Record

/-- A header is told from its own bytes, whatever follows them. -/
theorem parse?_header (h : IsHeader mode record header) (rest : List UInt8) :
    parse? mode (header ++ rest) = some (record, rest) := by
  cases h with
  | intro hform hlength => exact parse?_cons hform _ hlength rest

/-- A record is parsed exactly where one of its headers comes first. -/
theorem parse?_eq_some_iff : parse? mode bytes = some (record, rest) ↔
    ∃ header, IsHeader mode record header ∧ bytes = header ++ rest := by
  constructor
  · intro h
    obtain ⟨opcode, fields, form, hbytes, hform, hlength, rfl⟩ := parse?_eq_some h
    exact ⟨opcode :: fields, .intro hform hlength, hbytes⟩
  · rintro ⟨header, h, rfl⟩
    exact parse?_header h rest

/-- Any fields can be filled up, so bytes that begin with no header are the beginning of one. -/
theorem exists_missing (h : parse? mode bytes = none) :
    ∃ record missing, missing ≠ [] ∧ IsHeader mode record (bytes ++ missing) := by
  cases bytes with
  | nil =>
    have hform : RecordForm.ofOpcode? mode 0 = some .eof := rfl
    exact ⟨.eof, [0], List.cons_ne_nil _ _, .intro hform rfl⟩
  | cons opcode fields =>
    obtain ⟨form, hform⟩ := exists_ofOpcode? mode opcode
    rw [parse?, hform, Option.bind_some] at h
    split at h
    · cases h
    · rename_i hshort
      let missing : List UInt8 := List.replicate (form.fieldBytes - fields.length) 0
      have hmissing : missing.length = form.fieldBytes - fields.length := List.length_replicate
      refine ⟨form.record mode (fields ++ missing), missing, ?_, .intro hform ?_⟩
      · apply List.ne_nil_of_length_pos
        omega
      · rw [List.length_append]
        omega

/-- No record is parsed exactly where the bytes end within a header. -/
theorem parse?_eq_none_iff : parse? mode bytes = none ↔
    ∃ record missing, missing ≠ [] ∧ IsHeader mode record (bytes ++ missing) := by
  refine ⟨exists_missing, ?_⟩
  rintro ⟨record, missing, hmissing, h⟩
  have hwhole := parse?_header h []
  rw [List.append_nil] at hwhole
  cases hbytes : parse? mode bytes with
  | none => rfl
  | some found =>
    -- a header in front of the bytes would leave what is missing behind it
    obtain ⟨record', rest⟩ := found
    have hleft := parse?_append hbytes missing
    rw [hwhole] at hleft
    have hnil : [] = rest ++ missing := (Prod.mk.inj (Option.some.inj hleft)).2
    exact absurd (List.append_eq_nil_iff.mp hnil.symm).2 hmissing

end Record

/-- What is written for a record is one of its headers. -/
theorem isHeader_encode (h : record.Encodable mode) :
    IsHeader mode record (record.encode mode) := by
  have hp := Record.parse?_encode mode record h []
  obtain ⟨header, hheader, he⟩ := Record.parse?_eq_some_iff.mp hp
  rw [List.append_nil, List.append_nil] at he
  rwa [he]

/-- The width of an offset goes by its magnitude, so -128 takes two bytes, though one would hold
it. -/
example : (Record.copy (-128) 10).encode .differential = [249, 0xff, 0x80, 10] := by decide

/-! ## Reading -/

namespace ByteReader.Delivers

variable {ρ : Type} [ByteReader ρ] {r : ρ}

/-- Reading a header gives its record and its length, and leaves what follows it. -/
theorem readRecord_header (hr : Delivers r (header ++ suffix)) (h : IsHeader mode record header)
    (position : Nat) : ∃ r', readRecord mode r position = (.ok (record, header.length), r') ∧
      ∀ rest, Delivers r' rest ↔ rest = suffix := by
  obtain ⟨r', hread, hleft⟩ :=
    delivery_delivers.readRecord hr (Record.parse?_header h suffix) position
  rw [List.length_append, Nat.add_sub_cancel] at hread
  exact ⟨r', hread, hleft.iff_eq⟩

/-- Reading bytes that end within a header takes all of them and says so. -/
theorem readRecord_within (hr : Delivers r bytes) (h : Record.parse? mode bytes = none)
    (position : Nat) : ∃ r', readRecord mode r position = (.error .unexpectedEndOfData, r') ∧
      ∀ rest, Delivers r' rest ↔ rest = [] := by
  obtain ⟨r', hread, hleft⟩ := delivery_delivers.readRecord_cut hr h position
  exact ⟨r', hread, hleft.iff_eq⟩

end ByteReader.Delivers

/-- **Record codec.** In either mode, every record in the range of the format is written, over any
output that never fails, as so many bytes as its header length says, which is what a writer counts
for it. From these bytes, with anything behind them, every reader reads the record and the same
length back and leaves exactly what was behind. From any bytes at all a reader either reads the
record of the header that they begin with, and takes just that header, or they end within a header,
and it reports their end. No opcode is unknown. -/
theorem readRecord_exact (mode : Mode) :
    (∀ {record : Record}, record.Encodable mode →
      ∀ {ω : Type} [ByteOutput ω] {R : ω → List UInt8 → Prop}, ByteOutput.Reliable R →
      ∀ {out : ω} {taken : List UInt8}, R out taken →
        ∃ out', ByteOutput.writeParts out (PatchWriter.partsOf mode record) = (.ok (), out') ∧
          R out' (taken ++ record.encode mode) ∧
          (record.encode mode).length = record.headerLength mode ∧
          ∀ {ρ : Type} [ByteReader ρ] {r : ρ} (suffix : List UInt8) (position : Nat),
            ByteReader.Delivers r (record.encode mode ++ suffix) →
              ∃ r', readRecord mode r position = (.ok (record, record.headerLength mode), r') ∧
                ∀ rest, ByteReader.Delivers r' rest ↔ rest = suffix) ∧
    ∀ {ρ : Type} [ByteReader ρ] {r : ρ} {bytes : List UInt8} (position : Nat),
      ByteReader.Delivers r bytes →
        (∃ record header suffix r', IsHeader mode record header ∧ bytes = header ++ suffix ∧
          readRecord mode r position = (.ok (record, header.length), r') ∧
          ∀ rest, ByteReader.Delivers r' rest ↔ rest = suffix) ∨
        (∃ record missing r', IsHeader mode record (bytes ++ missing) ∧ missing ≠ [] ∧
          readRecord mode r position = (.error .unexpectedEndOfData, r') ∧
          ∀ rest, ByteReader.Delivers r' rest ↔ rest = []) := by
  constructor
  · intro record h ω _ R o out taken ho
    obtain ⟨out', hwrite, hout⟩ := o.writeParts ho (PatchWriter.partsOf mode record)
    rw [PatchWriter.flatten_partsOf] at hout
    refine ⟨out', hwrite, hout, record.length_encode mode, ?_⟩
    intro ρ _ r suffix position hr
    rw [← record.length_encode mode]
    exact hr.readRecord_header (isHeader_encode h) position
  · intro ρ _ r bytes position hr
    cases hp : Record.parse? mode bytes with
    | some found =>
      obtain ⟨record, suffix⟩ := found
      obtain ⟨header, h, rfl⟩ := Record.parse?_eq_some_iff.mp hp
      obtain ⟨r', hread, hleft⟩ := hr.readRecord_header h position
      exact .inl ⟨record, header, suffix, r', h, rfl, hread, hleft⟩
    | none =>
      obtain ⟨record, missing, hmissing, h⟩ := Record.parse?_eq_none_iff.mp hp
      obtain ⟨r', hread, hleft⟩ := hr.readRecord_within hp position
      exact .inr ⟨record, missing, r', h, hmissing, hread, hleft⟩

/-- The negative offset of the least magnitude that takes eight bytes, with one more byte behind it,
and a header that is cut within its offset. -/
theorem readRecord_exact_wide :
    (∃ out' r', ByteOutput.writeParts ByteArray.empty
        (PatchWriter.partsOf .differential (.copy (-0x80000000) 300)) = (.ok (), out') ∧
      out'.data.toList = [255, 0xff, 0xff, 0xff, 0xff, 0x80, 0, 0, 0, 0, 0, 1, 44] ∧
      readRecord .differential (⟨packBytes (out'.data.toList ++ [7]), 0⟩ : MemoryStream) 0 =
        (.ok (.copy (-0x80000000) 300, 13), r') ∧
      ∀ rest, ByteReader.Delivers r' rest ↔ rest = [7]) ∧
    ∃ r', readRecord .differential (⟨packBytes [253, 0xff], 0⟩ : MemoryStream) 0 =
        (.error .unexpectedEndOfData, r') ∧ ∀ rest, ByteReader.Delivers r' rest ↔ rest = [] := by
  obtain ⟨hwritten, hread⟩ := readRecord_exact .differential
  constructor
  · let record := Record.copy (-0x80000000) 300
    have hrecord : record.Encodable .differential := ⟨⟨by decide, by decide⟩, by decide⟩
    have hempty : ByteArray.empty.data.toList = [] := rfl
    obtain ⟨out', hwrite, hout, -, hback⟩ :=
      hwritten hrecord ByteOutput.reliable_byteArray hempty
    obtain ⟨r', hr, hleft⟩ :=
      hback [7] 0 (MemoryStream.delivers ⟨packBytes (record.encode .differential ++ [7]), 0⟩)
    refine ⟨out', r', hwrite, hout.trans (by decide), ?_, hleft⟩
    rw [hout]
    exact hr
  · have hcut : Record.parse? .differential [253, 0xff] = none := by decide
    rcases hread 0 (MemoryStream.delivers ⟨packBytes [253, 0xff], 0⟩) with
      ⟨record, header, suffix, r', h, hbytes, -⟩ | ⟨record, missing, r', -, -, hr, hleft⟩
    · have hfound := Record.parse?_eq_some_iff.mpr ⟨header, h, hbytes⟩
      exact absurd (hcut.symm.trans hfound) nofun
    · exact ⟨r', hr, hleft⟩

end BinaryDelta
