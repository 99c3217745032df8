import BinaryDelta.Codec
import BinaryDelta.Proofs.Engine.Emitted
import BinaryDelta.Proofs.Sink.Writing

/-!
# How long a patch can be

A patch is never much longer than the target. A literal costs a header of at most three bytes and a
copy a record of at most 13, so a copy of 16 bytes pays for its own record and for the header of the
literal in front of it. That leaves the headers of the literals that fill a chunk, the last literal,
the preamble and the end marker.

* `wireLimit` is what records may take on the wire, whatever their offsets.
* `Atom.Pays` holds of copies that are long enough, `Packing.Thrifty` is the invariant that they
  keep.

Results:
* `length_toWire_le`: records take no more than their limit.
* `Packing.thrifty_addAll`: only full chunks are not paid for.
* `wireLimit_packed_le`: so records are not much longer than what they stand for.
* **`size_encodeWith_le`**: neither is a patch, for any engine with blocks of at least 16 bytes and
  any writer.
-/

namespace BinaryDelta

/-! ## Records -/

/-- The most bytes that an instruction takes on the wire. -/
def Instruction.wireLimit : Instruction → Nat
  | copy _ _ => 13
  | literal bytes => (if bytes.size < 0x10000 then 3 else 5) + bytes.size

/-- The most bytes that instructions take on the wire. -/
def wireLimit (is : List Instruction) : Nat := (is.map Instruction.wireLimit).sum

@[simp] theorem wireLimit_append (is is' : List Instruction) :
    wireLimit (is ++ is') = wireLimit is + wireLimit is' := by
  rw [wireLimit, List.map_append, List.sum_append]
  rfl

theorem wireLimit_copy (offset length : Nat) : wireLimit [.copy offset length] = 13 := rfl

theorem wireLimit_literal {bytes : ByteArray} (h : bytes.size ≤ literalChunk) :
    wireLimit [.literal bytes] = 3 + bytes.size := by
  have hchunk : literalChunk < 0x10000 := by decide
  show (if bytes.size < 0x10000 then 3 else 5) + bytes.size + 0 = _
  rw [if_pos (Nat.lt_of_le_of_lt h hchunk), Nat.add_zero]

theorem Record.length_encode_copy_le (mode : Mode) (value : Int) (length : Nat) :
    ((Record.copy value length).encode mode).length ≤ 13 := by
  have hoffset := (copyForm mode value length).1.bytes_le
  have hlength := (copyForm mode value length).2.bytes_le
  rw [encode_copy, List.length_cons, List.length_append, length_bigEndian, length_bigEndian]
  omega

theorem Record.length_encode_literal_le (mode : Mode) (length : Nat) :
    ((Record.literal length).encode mode).length ≤ if length < 0x10000 then 3 else 5 := by
  rcases Nat.eq_zero_or_pos length with rfl | h₀
  · exact Nat.zero_le 3
  · have hmax : mode.literalMax < 0x10000 := Nat.lt_trans mode.literalMax_lt (by decide)
    by_cases hm : length ≤ mode.literalMax
    · rw [encode_inline h₀ hm, if_pos (by omega), List.length_singleton]
      decide
    · by_cases hn : length < 0x10000
      · rw [encode_short (by omega) hn, if_pos hn, List.length_cons, length_bigEndian]
      · rw [encode_int (by omega) (by omega), if_neg hn, List.length_cons, length_bigEndian]

theorem Instruction.length_toWire_le (b : OffsetBase) (i : Instruction) :
    (i.toWire b).length ≤ i.wireLimit := by
  cases i with
  | copy offset length => exact Record.length_encode_copy_le _ _ _
  | literal bytes =>
    have hheader := Record.length_encode_literal_le b.mode bytes.size
    rw [toWire, List.length_append, length_toList, wireLimit]
    omega

/-- Records take no more than their limit. -/
theorem length_toWire_le (b : OffsetBase) (is : List Instruction) :
    (toWire b is).length ≤ wireLimit is := by
  induction is generalizing b with
  | nil => exact Nat.le_refl _
  | cons i is ih =>
    rw [toWire, List.length_append]
    exact Nat.add_le_add (i.length_toWire_le b) (ih _)

/-- The preamble and the end marker take six bytes. -/
theorem length_segmentOf_le (o : WriterOptions) (is : List Instruction) :
    (o.segmentOf is).length ≤ wireLimit is + 6 := by
  have hopening : o.opening.length ≤ 5 := by
    unfold WriterOptions.opening
    split
    · exact Nat.zero_le _
    · exact Nat.le_refl _
  have hending : o.ending.length ≤ 1 := by
    unfold WriterOptions.ending
    split
    · exact Nat.zero_le _
    · exact Nat.le_refl _
  have hrecords := length_toWire_le { mode := o.mode } is
  rw [WriterOptions.segmentOf, List.length_append, List.length_append]
  omega

/-- Zeros take as much as what they stand for. -/
theorem wireLimit_of_masked {zeroRuns : Option ZeroRuns} {is js : List Instruction}
    (h : List.Forall₂ (Masked zeroRuns) is js) : wireLimit js = wireLimit is := by
  induction h with
  | nil => rfl
  | @cons i j is js hi _ ih =>
    have hlimit : j.wireLimit = i.wireLimit := by
      cases hi with
      | same i => rfl
      | @zeros _ bytes _ _ =>
        rw [Instruction.wireLimit, Instruction.wireLimit, size_zeroBytes]
    show j.wireLimit + wireLimit js = i.wireLimit + wireLimit is
    rw [hlimit, ih]

/-! ## Packings -/

/-- Is the atom a byte, or a copy that pays for its record and for the header of a literal? -/
def Atom.Pays : Atom → Prop
  | copy _ length => 16 ≤ length
  | byte _ => True

namespace Packing

/-- The records take no more than what they stand for, but for the headers of full chunks. -/
def Thrifty (p : Packing) : Prop :=
  ∃ full, wireLimit p.records ≤ outputLength p.records + 3 * full ∧
    literalChunk * full ≤ outputLength p.records

variable {p : Packing}

theorem outputLength_settle (p : Packing) :
    outputLength p.settle.records = outputLength p.records + p.pending.length := by
  unfold settle
  split
  · rename_i h
    rw [h, List.length_nil, Nat.add_zero]
  · simp [Instruction.outputLength]

theorem wireLimit_settle_le (hp : p.pending.length ≤ literalChunk) :
    wireLimit p.settle.records ≤ wireLimit p.records + (3 + p.pending.length) := by
  unfold settle
  split
  · exact Nat.le_add_right _ _
  · rw [wireLimit_append, wireLimit_literal (by rwa [size_packBytes]), size_packBytes]

/-- A full chunk pays for itself, with one more header. -/
theorem Thrifty.settle (h : p.Thrifty) (hp : p.pending.length = literalChunk) :
    p.settle.Thrifty := by
  obtain ⟨full, hlimit, hfull⟩ := h
  have hsettle := wireLimit_settle_le (Nat.le_of_eq hp)
  refine ⟨full + 1, ?_, ?_⟩
  · rw [outputLength_settle]
    omega
  · rw [outputLength_settle, hp, Nat.mul_succ]
    exact Nat.add_le_add_right hfull _

theorem Thrifty.hold (h : p.Thrifty) (hp : p.pending.length < literalChunk) (value : UInt8) :
    (p.hold value).Thrifty := by
  by_cases hroom : p.pending.length + 1 < literalChunk
  · rw [hold_of_lt hroom]
    exact h
  · rw [hold_of_not_lt hroom]
    have hpending : Thrifty ⟨p.records, p.pending ++ [value]⟩ := h
    refine hpending.settle ?_
    rw [List.length_append, List.length_singleton]
    omega

/-- A copy pays for the literal in front of it. -/
theorem Thrifty.copy (h : p.Thrifty) (hp : p.pending.length < literalChunk) (offset : Nat)
    {length : Nat} (hl : 16 ≤ length) : (p.add (.copy offset length)).Thrifty := by
  obtain ⟨full, hlimit, hfull⟩ := h
  have hsettle := wireLimit_settle_le (Nat.le_of_lt hp)
  have houtput : outputLength (p.settle.records ++ [.copy offset length]) =
      outputLength p.records + p.pending.length + length := by
    rw [outputLength_append, outputLength_settle]
    rfl
  rw [add_copy p offset (by omega)]
  refine ⟨full, ?_, ?_⟩
  · rw [houtput, wireLimit_append, wireLimit_copy]
    omega
  · rw [houtput]
    omega

/-- What pays keeps the invariant. -/
theorem thrifty_addAll (h : p.Thrifty) (hp : p.pending.length < literalChunk) {as : List Atom}
    (ha : ∀ a ∈ as, a.Pays) : (p.addAll as).Thrifty := by
  induction as generalizing p with
  | nil => exact h
  | cons a as ih =>
    obtain ⟨hpays, ha⟩ := List.forall_mem_cons.mp ha
    refine ih ?_ (pending_add_lt p a) ha
    cases a with
    | copy offset length => exact h.copy hp offset hpays
    | byte value => exact h.hold hp value

end Packing

/-- Records are not much longer than what they stand for. -/
theorem wireLimit_packed_le {as : List Atom} (ha : ∀ a ∈ as, a.Pays) :
    wireLimit (packed as) ≤
      (cells as).length + 3 + 3 * ((cells as).length / literalChunk) := by
  have hstart : Packing.Thrifty {} := ⟨0, Nat.le_refl _, Nat.le_refl _⟩
  have hpending := pending_lt as
  obtain ⟨full, hlimit, hfull⟩ := Packing.thrifty_addAll hstart (by decide) ha
  have hsettle := Packing.wireLimit_settle_le (Nat.le_of_lt hpending)
  have houtput := Packing.outputLength_settle (Packing.addAll {} as)
  have htotal : outputLength (packed as) = (cells as).length := outputLength_packed as
  have hchunks : full ≤ (cells as).length / literalChunk := by
    refine (Nat.le_div_iff_mul_le (by decide)).mpr ?_
    rw [Nat.mul_comm, ← htotal, packed, houtput]
    omega
  rw [packed] at htotal ⊢
  omega

/-! ## Plans -/

section Plan

variable {c : Search}

/-- With blocks that are long enough, everything in a plan pays. -/
theorem pays_plan (hb : 16 ≤ c.blockSize) (source left : List UInt8)
    (hash : Option WindowHash) (continuation : Option Nat) (position : Nat) :
    ∀ a ∈ (c.plan source left hash continuation position).flatMap SinkStep.atoms, a.Pays := by
  have hbyte : ∀ values : List UInt8, ∀ a ∈ values.map Atom.byte, a.Pays := by
    intro values a ha
    obtain ⟨value, -, rfl⟩ := List.mem_map.mp ha
    trivial
  induction hn : left.length using Nat.strongRecOn
    generalizing left hash continuation position with
  | _ n ih =>
    subst hn
    by_cases hl : left.length < c.blockSize
    · rw [Search.plan_rest hl]
      split
      · exact List.forall_mem_nil _
      · rw [List.flatMap_singleton]
        exact hbyte _
    · have hge := Nat.le_of_not_lt hl
      cases hfound : c.bestOf source left none
          (c.probes (hash.getD (c.hashOf left)) continuation position) with
      | some found =>
        have hlong := found.le_length
        rw [Search.plan_copy hge hfound, List.flatMap_cons, SinkStep.atoms, List.singleton_append]
        refine List.forall_mem_cons.mpr ⟨Nat.le_trans hb hlong, ?_⟩
        exact ih _ (by rw [List.length_drop]; omega) _ _ _ _ rfl
      | none =>
        rw [Search.plan_byte hge hfound, List.flatMap_cons]
        refine List.forall_mem_append.mpr ⟨hbyte [_], ?_⟩
        exact ih _ (by rw [List.length_drop]; omega) _ _ _ _ rfl

/-- A plan describes the whole target. -/
theorem length_cells_plan (hp : c.options.maxProbes ≠ 0) (source target : List UInt8) :
    (cells ((c.plan source target none none 0).flatMap SinkStep.atoms)).length =
      target.length := by
  rw [SinkStep.cells_flatMap_atoms, length_cells,
    Greedy.instructions_plan hp _ _ Option.getD_none]
  exact Greedy.outputLength_encode c source target

end Plan

/-- What a writer makes of calls that pay, with a flush behind them, is not much longer than what
they stand for. -/
theorem PatchWriter.exists_size_le {options : WriterOptions} (ho : options.problem? = none)
    {steps : List SinkStep} (ha : ∀ a ∈ steps.flatMap SinkStep.atoms, a.Pays) {n : Nat}
    (hn : (cells (steps.flatMap SinkStep.atoms)).length = n) :
    ∃ w w', create ByteArray.empty options = .ok w ∧
      complete w (steps ++ [.flush]) = (.ok (), w') ∧
      w'.output.size ≤ n + 9 + 3 * (n / literalChunk) := by
  obtain ⟨w, w', is, hw, h', his, hout⟩ := exists_masked_segment ByteOutput.reliable_byteArray
    (rfl : ByteArray.empty.data.toList = []) options ho (steps ++ [.flush])
  refine ⟨w, w', hw, h', ?_⟩
  replace hout : w'.output.data.toList = [] ++ options.segmentOf is := hout
  have hatoms : packed ((steps ++ [SinkStep.flush]).flatMap SinkStep.atoms) =
      packed (steps.flatMap SinkStep.atoms) := by
    rw [List.flatMap_append, List.flatMap_singleton]
    exact packed_flush _
  have hlimit := wireLimit_packed_le ha
  rw [hn] at hlimit
  calc w'.output.size = (options.segmentOf is).length := by
        rw [← length_toList, hout, List.nil_append]
    _ ≤ wireLimit is + 6 := length_segmentOf_le options is
    _ = wireLimit (packed (steps.flatMap SinkStep.atoms)) + 6 := by
        rw [wireLimit_of_masked his, hatoms]
    _ ≤ n + 3 + 3 * (n / literalChunk) + 6 := Nat.add_le_add_right hlimit 6
    _ = n + 9 + 3 * (n / literalChunk) := by omega

/-- **A patch is not much longer than the target.** With blocks of at least 16 bytes, encoding
succeeds, and the patch is longer than the target by at most nine bytes and three for each full
chunk of literals that fits into the target. -/
theorem size_encodeWith_le (source target : ByteArray) {options : EngineOptions}
    (ho : options.problem? = none) (hc : 16 ≤ options.chunkSize) {writer : WriterOptions}
    (hw : writer.problem? = none) :
    ∃ patch, encodeWith source target options writer = .ok patch ∧
      patch.size ≤ target.size + 9 + 3 * (target.size / literalChunk) := by
  have hsrc := MemoryStream.holds ⟨source, 0⟩
  have htgt : ByteReader.Delivers (⟨target, 0⟩ : MemoryStream) target.data.toList :=
    MemoryStream.delivers ⟨target, 0⟩
  obtain ⟨hpos, hcompute⟩ := Engine.compute_ofSource (κ := PatchWriter ByteArray) ho hsrc htgt
  let c : Search := .ofSource source.data.toList options hpos
  have hblock : 16 ≤ c.blockSize := by
    rwa [Search.blockSize_ofSource hpos]
  have hprobes : c.options.maxProbes ≠ 0 := (EngineOptions.problem?_eq_none_iff.mp ho).2
  have hlength := length_cells_plan hprobes source.data.toList target.data.toList
  rw [length_toList] at hlength
  obtain ⟨w, w', hcreate, hcomplete, hsize⟩ :=
    PatchWriter.exists_size_le hw (pays_plan hblock _ _ _ _ _) hlength
  obtain ⟨hresult, hsink⟩ := hcompute w
  rw [hcomplete] at hresult hsink
  refine ⟨w'.output, ?_, hsize⟩
  rw [encodeWith, Engine.ofOptions, ho]
  simp only [hcreate, hresult, hsink]
  rfl

/-- The smallest blocks that pay for themselves, with hashes accepted, in the mode with the shorter
inline literals. -/
theorem size_encodeWith_le_blind :
    let source := packBytes [1, 2, 3, 4, 5, 6, 7, 8, 9, 10, 11, 12, 13, 14, 15, 16]
    let target := packBytes [0, 1, 2, 3, 4, 5, 6, 7, 8, 9, 10, 11, 12, 13, 14, 15, 16, 0]
    let options : EngineOptions := { chunkSize := 16, acceptHash := true, autocode := true }
    ∃ patch, encodeWith source target options { differential := true } = .ok patch ∧
      patch.size ≤ target.size + 9 + 3 * (target.size / literalChunk) :=
  size_encodeWith_le _ _ rfl (Nat.le_refl 16) rfl

end BinaryDelta
