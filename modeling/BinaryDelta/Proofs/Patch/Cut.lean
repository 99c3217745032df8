import BinaryDelta.Proofs.RoundTrip

/-!
# Patches that are cut off

A patch says itself where it ends. What lies behind its end marker is not looked at, and without the
marker it is no patch: wherever it is cut off, the reader runs out of bytes within a record or a
payload. By then it has handed on nothing but the front of what it would have handed on.

* `Complete` holds of patches with nothing behind their end marker.
* `BreaksOff` says how the spelling of a cut patch relates to the instructions of the whole one.
* `StopsShort` says what applying a cut patch comes to, over any streams.

Results:
* `Record.exists_wire`: a record is told from its own bytes, and from no fewer.
* `exists_wire_of_marker`, `breaksOff_take`: what is spelled with more bytes, and with fewer.
* `BreaksOff.exists_written`: what a cut patch hands on rebuilds a front of the target.
* **`decode_cut`**: a patch that is accepted can go on in any way behind its end marker, and is
  rejected for its format wherever it is cut in front of that, with a front of the target written.
-/

namespace BinaryDelta

/-! ## Records -/

/-- A record is told from its own bytes, whatever follows them, and from no fewer. -/
theorem Record.exists_wire {mode : Mode} {bytes rest : List UInt8} {record : Record}
    (h : parse? mode bytes = some (record, rest)) :
    ∃ wire, bytes = wire ++ rest ∧
      (∀ behind, parse? mode (wire ++ behind) = some (record, behind)) ∧
      ∀ {j}, j < wire.length → parse? mode (wire.take j) = none := by
  obtain ⟨opcode, fields, form, rfl, hf, hl, rfl⟩ := parse?_eq_some h
  refine ⟨opcode :: fields, rfl, parse?_cons hf fields hl, ?_⟩
  intro j hj
  cases j with
  | zero => rfl
  | succ j =>
    have hshort : ¬ form.fieldBytes ≤ (fields.take j).length := by
      rw [List.length_cons] at hj
      rw [List.length_take]
      omega
    rw [List.take_succ_cons, parse?, hf, Option.bind_some, if_neg hshort]

/-! ## Spellings -/

/-- The spelling stops short of these instructions, in front of one or within the payload of one. -/
inductive BreaksOff : List Instruction → Spelling → Prop
  | record (front back : List Instruction) : BreaksOff (front ++ back) ⟨front, .cutRecord⟩
  | payload (front back : List Instruction) {bytes : ByteArray} {available : List UInt8} :
      available <+: bytes.data.toList →
      BreaksOff (front ++ .literal bytes :: back) ⟨front, .cutPayload available⟩

theorem BreaksOff.behind {is : List Instruction} {s : Spelling} (h : BreaksOff is s)
    (i : Instruction) : BreaksOff (i :: is) (s.behind i) := by
  cases h with
  | record front back => exact .record (i :: front) back
  | payload front back hp => exact .payload (i :: front) back hp

theorem BreaksOff.error?_eq {is : List Instruction} {s : Spelling} (h : BreaksOff is s) :
    s.ending.error? = some .unexpectedEndOfData := by
  cases h with
  | record front back => rfl
  | payload front back hp => rfl

/-- Bytes that are spelled up to an end marker are spelled alike with anything behind it. -/
theorem exists_wire_of_marker (b : OffsetBase) (bytes : List UInt8) {rest : List UInt8}
    (h : (spell b bytes).ending = .marker rest) :
    ∃ wire, bytes = wire ++ rest ∧
      ∀ behind, spell b (wire ++ behind) = ⟨(spell b bytes).instructions, .marker behind⟩ := by
  fun_induction spell b bytes with
  | case1 b bytes hp => cases h
  | case2 b bytes rest' hp =>
    cases h
    obtain ⟨wire, rfl, hwire, -⟩ := Record.exists_wire hp
    refine ⟨wire, rfl, fun behind => ?_⟩
    rw [spell_marker (hwire behind)]
    rfl
  | case3 b bytes length rest' hp hl ih =>
    obtain ⟨wire, rfl, hwire, -⟩ := Record.exists_wire hp
    obtain ⟨wires, hrest, hwires⟩ := ih h
    have hlen : (rest'.take length).length = length := List.length_take_of_le hl
    refine ⟨wire ++ (rest'.take length ++ wires), ?_, fun behind => ?_⟩
    · rw [List.append_assoc, List.append_assoc, ← hrest, List.take_append_drop]
    · rw [List.append_assoc, List.append_assoc, spell_literal (hwire _),
        if_pos (by rw [List.length_append]; omega), List.take_left' hlen, List.drop_left' hlen,
        hwires]
      rfl
  | case4 b bytes length rest' hp hl => cases h
  | case5 b bytes value length rest' hp e b' hd => cases h
  | case6 b bytes value length rest' hp offset b' hd ih =>
    obtain ⟨wire, rfl, hwire, -⟩ := Record.exists_wire hp
    obtain ⟨wires, hrest, hwires⟩ := ih h
    refine ⟨wire ++ wires, by rw [List.append_assoc, ← hrest], fun behind => ?_⟩
    rw [List.append_assoc, spell_copy (hwire _) hd, hwires]
    rfl

/-- Bytes that end with their end marker break off wherever they are cut. -/
theorem breaksOff_take (b : OffsetBase) (bytes : List UInt8)
    (h : (spell b bytes).ending = .marker []) {j : Nat} (hj : j < bytes.length) :
    BreaksOff (spell b bytes).instructions (spell b (bytes.take j)) := by
  -- a cut within the first record, or behind it
  have hcut : ∀ {b : OffsetBase} {wire rest : List UInt8} {is : List Instruction} {j : Nat},
      (∀ {j}, j < wire.length → Record.parse? b.mode (wire.take j) = none) → j < wire.length →
      BreaksOff is (spell b ((wire ++ rest).take j)) := by
    intro b wire rest is j hnone hlt
    rw [List.take_append_of_le_length (Nat.le_of_lt hlt), spell_cut (hnone hlt)]
    exact .record [] is
  fun_induction spell b bytes generalizing j with
  | case1 b bytes hp => cases h
  | case2 b bytes rest' hp =>
    cases h
    obtain ⟨wire, rfl, -, hnone⟩ := Record.exists_wire hp
    exact hcut hnone (by rwa [List.append_nil] at hj)
  | case3 b bytes length rest' hp hl ih =>
    obtain ⟨wire, rfl, hwire, hnone⟩ := Record.exists_wire hp
    rcases Nat.lt_or_ge j wire.length with hlt | hge
    · exact hcut hnone hlt
    · obtain ⟨i, rfl⟩ := Nat.exists_eq_add_of_le hge
      rw [List.length_append] at hj
      rw [List.take_length_add_append, spell_literal (hwire _), List.length_take]
      by_cases hi : length ≤ i
      · rw [if_pos (by omega), List.take_take, Nat.min_eq_left hi, List.drop_take]
        exact (ih h (by rw [List.length_drop]; omega)).behind _
      · rw [if_neg (by omega)]
        refine .payload [] _ ?_
        rw [data_packBytes, List.toList_toArray]
        exact List.take_prefix_take_left (by omega)
  | case4 b bytes length rest' hp hl => cases h
  | case5 b bytes value length rest' hp e b' hd => cases h
  | case6 b bytes value length rest' hp offset b' hd ih =>
    obtain ⟨wire, rfl, hwire, hnone⟩ := Record.exists_wire hp
    rcases Nat.lt_or_ge j wire.length with hlt | hge
    · exact hcut hnone hlt
    · obtain ⟨i, rfl⟩ := Nat.exists_eq_add_of_le hge
      rw [List.length_append] at hj
      rw [List.take_length_add_append, spell_copy (hwire _) hd]
      exact (ih h (by omega)).behind _

/-! ## What is handed on -/

/-- The full pieces of a payload are a front of it. -/
theorem exists_rebuilds_fullPieces (source bytes : List UInt8) : ∃ front, front <+: bytes ∧
    Rebuilds source ((fullPieces bytes).map .literal) front := by
  fun_induction fullPieces bytes with
  | case1 bytes h => exact ⟨[], List.nil_prefix, rebuilds_nil⟩
  | case2 bytes h ih =>
    obtain ⟨front, hfront, hreb⟩ := ih
    refine ⟨bytes.take pieceSize ++ front, ?_, rebuilds_append (rebuilds_literal _) hreb⟩
    have hall := (List.prefix_append_right_inj (bytes.take pieceSize)).mpr hfront
    rwa [List.take_append_drop] at hall

/-- What is handed on of a patch that breaks off rebuilds a front of the target. -/
theorem BreaksOff.exists_written {source target : List UInt8} {is : List Instruction}
    {s : Spelling} (h : BreaksOff is s) (ht : Rebuilds source is target) :
    ∃ written, written <+: target ∧
      Rebuilds source (s.steps.flatMap SinkStep.instructions) written := by
  have hsteps : ∀ {front : List Instruction} {written : List UInt8},
      Rebuilds source front written →
      Rebuilds source ((front.flatMap Instruction.steps).flatMap SinkStep.instructions)
        written :=
    fun hr => (rebuilds_congr (origins_flatMap_steps _)).mpr hr
  cases h with
  | record front back =>
    obtain ⟨t₁, t₂, rfl, h₁, -⟩ := rebuilds_append_iff.mp ht
    have hnone : Ending.cutRecord.steps = [] := rfl
    refine ⟨t₁, List.prefix_append t₁ t₂, ?_⟩
    rw [Spelling.steps, hnone, List.append_nil]
    exact hsteps h₁
  | @payload front back bytes available hp =>
    obtain ⟨t₁, t₂, rfl, h₁, h₂⟩ := rebuilds_append_iff.mp ht
    rw [← List.singleton_append] at h₂
    obtain ⟨t₃, t₄, rfl, h₃, -⟩ := rebuilds_append_iff.mp h₂
    obtain rfl := rebuilds_literal_iff.mp h₃
    obtain ⟨full, hfull, hpieces⟩ := exists_rebuilds_fullPieces source available
    refine ⟨t₁ ++ full, ?_, ?_⟩
    · exact (List.prefix_append_right_inj t₁).mpr
        ((hfull.trans hp).trans (List.prefix_append _ t₄))
    · rw [Spelling.steps, Ending.steps, List.flatMap_append, instructions_literals]
      exact rebuilds_append (hsteps h₁) hpieces

/-! ## Whole patches -/

/-- The patch has nothing behind its end marker. -/
def Complete (patch : List UInt8) : Prop :=
  ∃ is, spellPatch? patch = some ⟨is, .marker []⟩

/-- A patch that is spelled up to an end marker is a complete one with some bytes behind it, and
these do not matter. -/
theorem exists_complete_front {patch rest : List UInt8} {is : List Instruction}
    (h : spellPatch? patch = some ⟨is, .marker rest⟩) : ∃ wire, patch = wire ++ rest ∧
      ∀ behind, spellPatch? (wire ++ behind) = some ⟨is, .marker behind⟩ := by
  obtain ⟨mode, records, rfl, hs⟩ := spellPatch?_eq_some_iff.mp h
  obtain ⟨wire, rfl, hwire⟩ := exists_wire_of_marker ⟨mode, 0⟩ records
    (congrArg Spelling.ending hs.symm)
  refine ⟨preamble mode ++ wire, (List.append_assoc _ _ _).symm, fun behind => ?_⟩
  refine spellPatch?_eq_some_iff.mpr ⟨mode, wire ++ behind, List.append_assoc _ _ _, ?_⟩
  rw [hwire, ← hs]

/-- A complete patch that is cut has no preamble, or breaks off. -/
theorem spellPatch?_take {patch : List UInt8} {is : List Instruction}
    (h : spellPatch? patch = some ⟨is, .marker []⟩) {j : Nat} (hj : j < patch.length) :
    spellPatch? (patch.take j) = none ∨
      ∃ s, spellPatch? (patch.take j) = some s ∧ BreaksOff is s := by
  obtain ⟨mode, records, rfl, hs⟩ := spellPatch?_eq_some_iff.mp h
  have hlen : (preamble mode).length = preambleLength := rfl
  rcases Nat.lt_or_ge j preambleLength with hlt | hge
  · left
    rw [spellPatch?, modeOfPreamble?_of_length_lt (by rw [List.length_take]; omega),
      Option.map_none]
  · right
    obtain ⟨i, rfl⟩ := Nat.exists_eq_add_of_le hge
    rw [← hlen, List.take_length_add_append]
    refine ⟨_, spellPatch?_eq_some_iff.mpr ⟨mode, records.take i, rfl, rfl⟩, ?_⟩
    have hbreaks := breaksOff_take ⟨mode, 0⟩ records (congrArg Spelling.ending hs.symm)
      (j := i) (by rw [List.length_append] at hj; omega)
    rwa [← hs] at hbreaks

/-- Over this source, applying the patch fails with this error, and a front of the target has been
written by then. -/
structure StopsShort (patch source target : List UInt8) (e : DeltaError) : Prop where
  apply_eq : ∀ {σ ρ ω : Type} [Source σ] [ByteReader ρ] [ByteOutput ω]
    {R : ω → List UInt8 → Prop} {src : σ} {r : ρ} {out : ω} {taken : List UInt8},
    ByteOutput.Reliable R → Source.Holds src source → ByteReader.Delivers r patch → R out taken →
      ∃ rebuilt written, apply src r out = (.error e, rebuilt) ∧
        R rebuilt.output (taken ++ written) ∧ written <+: target

theorem StopsShort.decode_eq {patch source : ByteArray} {target : List UInt8} {e : DeltaError}
    (h : StopsShort patch.data.toList source.data.toList target e) :
    decode patch source = .error e := by
  have hempty : ByteArray.empty.data.toList = [] := rfl
  obtain ⟨rebuilt, written, happly, -⟩ := h.apply_eq ByteOutput.reliable_byteArray
    (MemoryStream.holds ⟨source, 0⟩) (MemoryStream.delivers ⟨patch, 0⟩) hempty
  rw [decode, happly]

theorem stopsShort_of_none {patch : List UInt8} (h : spellPatch? patch = none)
    (source target : List UInt8) : StopsShort patch source target .invalidMagic := by
  constructor
  intro σ ρ ω _ _ _ R src r out taken o hsrc hr hout
  refine ⟨⟨src, out⟩, [], ?_, by rwa [List.append_nil], List.nil_prefix⟩
  rw [apply, convert_eq hr, h]

theorem BreaksOff.stopsShort {patch source target : List UInt8} {is : List Instruction}
    {s : Spelling} (h : BreaksOff is s) (hs : spellPatch? patch = some s)
    (ht : Rebuilds source is target) : StopsShort patch source target .unexpectedEndOfData := by
  constructor
  intro σ ρ ω _ _ _ R src r out taken o hsrc hr hout
  obtain ⟨H, k, hsrc⟩ := hsrc
  obtain ⟨written, hfront, hreb⟩ := h.exists_written ht
  obtain ⟨rebuilt, hfeed, hhas⟩ := Rebuilder.feed_of_rebuilds k o (r := ⟨src, out⟩)
    ⟨hsrc, hout⟩ hreb
  refine ⟨rebuilt, written, ?_, hhas.wrote, hfront⟩
  rw [apply, convert_eq hr, hs]
  simp only [Spelling.convey, hfeed, andThen_ok, h.error?_eq]

/-- A complete patch that is cut fails for its format. -/
theorem exists_stopsShort_take {patch source target : List UInt8} {is : List Instruction}
    (h : spellPatch? patch = some ⟨is, .marker []⟩) (ht : Rebuilds source is target) {j : Nat}
    (hj : j < patch.length) :
    ∃ e : DeltaError, e.isFormatError = true ∧ StopsShort (patch.take j) source target e := by
  rcases spellPatch?_take h hj with hnone | ⟨s, hs, hbreaks⟩
  · exact ⟨.invalidMagic, rfl, stopsShort_of_none hnone source target⟩
  · exact ⟨.unexpectedEndOfData, rfl, hbreaks.stopsShort hs ht⟩

/-- **Truncation is never silent.** A patch that is accepted has a front that is complete, so that
anything may follow it. Cut anywhere in this front, it is rejected for its format, and applying it
over any streams has written a front of the target by then. -/
theorem decode_cut {patch source target : ByteArray} (h : decode patch source = .ok target) :
    ∃ k ≤ patch.size, Complete (patch.data.toList.take k) ∧
      (∀ behind : ByteArray, decode (patch.extract 0 k ++ behind) source = .ok target) ∧
      ∀ j < k, ∃ e : DeltaError, e.isFormatError = true ∧
        decode (patch.extract 0 j) source = .error e ∧
        StopsShort (patch.data.toList.take j) source.data.toList target.data.toList e := by
  obtain ⟨⟨is, _⟩, rest, hs, rfl, ht⟩ := (decode_eq_ok_iff patch source target).mp h
  obtain ⟨wire, hpatch, hwire⟩ := exists_complete_front hs
  have htake : patch.data.toList.take wire.length = wire := by rw [hpatch, List.take_left]
  have hcomplete := hwire []
  rw [List.append_nil] at hcomplete
  have hsize := congrArg List.length hpatch
  rw [length_toList, List.length_append] at hsize
  refine ⟨wire.length, by omega, ⟨is, by rw [htake]; exact hcomplete⟩, ?_, ?_⟩
  · intro behind
    refine (decode_eq_ok_iff _ _ _).mpr ⟨⟨is, .marker behind.data.toList⟩, _, ?_, rfl, ht⟩
    rw [toList_append, toList_extract, List.drop_zero, htake]
    exact hwire behind.data.toList
  · intro j hj
    obtain ⟨e, he, hstops⟩ := exists_stopsShort_take hcomplete ht hj
    have hcut : patch.data.toList.take j = wire.take j := by
      rw [hpatch, List.take_append_of_le_length (Nat.le_of_lt hj)]
    have hextract : (patch.extract 0 j).data.toList = patch.data.toList.take j := by
      rw [toList_extract, List.drop_zero]
    rw [← hcut] at hstops
    exact ⟨e, he, StopsShort.decode_eq (by rw [hextract]; exact hstops), hstops⟩

/-- A copy and a literal, with two bytes behind the end marker. -/
theorem decode_cut_trailing :
    let patch := packBytes
      (patchOf .differential [.copy 2 3, .literal (packBytes [7, 8])] ++ [99, 98])
    let source := packBytes [1, 2, 3, 4, 5, 6]
    let target := packBytes [3, 4, 5, 7, 8]
    decode patch source = .ok target ∧
      ∃ k ≤ patch.size, Complete (patch.data.toList.take k) ∧
        (∀ behind : ByteArray, decode (patch.extract 0 k ++ behind) source = .ok target) ∧
        ∀ j < k, ∃ e : DeltaError, e.isFormatError = true ∧
          decode (patch.extract 0 j) source = .error e := by
  intro patch source target
  have hdescribes : Describes patch.data.toList source.data.toList target.data.toList :=
    (describes_patchOf .differential (by decide) [99, 98] _ _).mpr (by decide)
  have h : decode patch source = .ok target := (decode_eq_ok_iff _ _ _).mpr hdescribes
  obtain ⟨k, hk, hcomplete, hbehind, hcut⟩ := decode_cut h
  refine ⟨h, k, hk, hcomplete, hbehind, fun j hj => ?_⟩
  obtain ⟨e, he, hdecode, -⟩ := hcut j hj
  exact ⟨e, he, hdecode⟩

end BinaryDelta
