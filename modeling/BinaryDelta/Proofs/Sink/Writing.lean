import BinaryDelta.Proofs.Sink.Collect
import BinaryDelta.Proofs.Sink.Packing
import BinaryDelta.Proofs.Stream.Taking
import Mathlib.Data.List.Forall2

/-!
# What a patch writer writes

A patch writer over an output that never fails does what a packing does: the bytes it has written
are those of the records, up to long literals that a writer with zero runs has written as zeros, and
it holds back the same bytes. `Wrote` is this relation, and every call keeps it. So the patch of any
calls to a writer without zero runs is that of the records their atoms are packed into, and a
collector that had got the same calls, less the empty copies, would hold the instructions of the
patch.

* `Masked` relates a record of the packing to what is written for it.

Results:
* `exists_create`: starting a patch succeeds, and writes the preamble unless it is skipped.
* `Wrote.act`, `Wrote.feed`: every call succeeds and keeps the relation, and so do any number.
* `Wrote.close`: closing succeeds and writes what is held back, and the end marker behind it unless
  it is skipped.
* `exists_masked_segment`: so any calls make up a segment of the records that their atoms are packed
  into, with zeros in the place of some literals.
* `exists_segment`, `exists_patch`: without zero runs, of the records themselves, and a patch if
  nothing is skipped.
* `exists_complete`: in the range of the format, a collector would collect the same.
-/

namespace BinaryDelta

/-- Are the arguments of the call in the range of the format? -/
def SinkStep.Writable : SinkStep → Prop
  | copy offset length => offset < 0x8000000000000000 ∧ length < 0x100000000
  | _ => True

instance : (step : SinkStep) → Decidable step.Writable
  | .copy _ _ => inferInstanceAs (Decidable (_ ∧ _))
  | .byte _ => isTrue trivial
  | .literal _ => isTrue trivial
  | .flush => isTrue trivial

theorem SinkStep.writable_atoms {step : SinkStep} (h : step.Writable) :
    ∀ a ∈ step.atoms, a.Writable := by
  intro a ha
  cases step with
  | copy offset length =>
    obtain rfl := List.mem_singleton.mp ha
    exact h
  | byte value =>
    obtain rfl := List.mem_singleton.mp ha
    trivial
  | literal bytes =>
    obtain ⟨value, -, rfl⟩ := List.mem_map.mp ha
    trivial
  | flush =>
    obtain rfl := List.mem_singleton.mp ha
    exact ⟨by decide, by decide⟩

/-- Calls in the range of the format are packed into records that can be written. -/
theorem writable_packed_atoms {steps : List SinkStep} (hs : ∀ step ∈ steps, step.Writable) :
    ∀ i ∈ packed (steps.flatMap SinkStep.atoms), i.Writable := by
  refine writable_packed fun a ha _ => ?_
  obtain ⟨step, hstep, ha⟩ := List.mem_flatMap.mp ha
  exact SinkStep.writable_atoms (hs step hstep) a ha

/-- Is the call no copy that is empty, or more than a record can hold? -/
def SinkStep.Short : SinkStep → Prop
  | copy _ length => 0 < length ∧ length < 0x100000000
  | _ => True

/-- Copies that rebuild something over less than 2^63 bytes are in the range of the format. -/
theorem writable_of_short {source target : List UInt8} (hl : source.length < 0x8000000000000000)
    {steps : List SinkStep} (hs : ∀ step ∈ steps, step.Short)
    (h : Rebuilds source (steps.flatMap SinkStep.instructions) target) :
    ∀ step ∈ steps, step.Writable := by
  induction steps generalizing target with
  | nil => exact nofun
  | cons step steps ih =>
    obtain ⟨hshort, hs⟩ := List.forall_mem_cons.mp hs
    rw [List.flatMap_cons] at h
    obtain ⟨front, back, -, hfront, hback⟩ := rebuilds_append_iff.mp h
    refine List.forall_mem_cons.mpr ⟨?_, ih hs hback⟩
    cases step with
    | copy offset length =>
      obtain ⟨hin, -⟩ := rebuilds_copy_iff.mp hfront
      have hpos : 0 < length := hshort.1
      exact ⟨by omega, hshort.2⟩
    | byte value => trivial
    | literal bytes => trivial
    | flush => trivial

namespace WriterOptions

/-- What a writer begins with. -/
def opening (o : WriterOptions) : List UInt8 := if o.skipPreamble then [] else preamble o.mode

/-- What a writer ends with. -/
def ending (o : WriterOptions) : List UInt8 := if o.skipEof then [] else Record.eof.encode o.mode

/-- The bytes that a writer of these instructions puts out, from its opening to its ending. -/
def segmentOf (o : WriterOptions) (is : List Instruction) : List UInt8 :=
  o.opening ++ (toWire { mode := o.mode } is ++ o.ending)

/-- A writer that skips nothing puts out a patch. -/
theorem segmentOf_eq_patchOf {o : WriterOptions} (hp : o.skipPreamble = false)
    (he : o.skipEof = false) (is : List Instruction) : o.segmentOf is = patchOf o.mode is := by
  rw [segmentOf, patchOf, opening, ending, hp, he, if_neg Bool.false_ne_true,
    if_neg Bool.false_ne_true]

end WriterOptions

/-! ## Zero runs -/

/-- The instruction itself or, where runs of zeros are written, zeros in the place of a literal that
is long enough. -/
inductive Masked (zeroRuns : Option ZeroRuns) : Instruction → Instruction → Prop
  | same (i : Instruction) : Masked zeroRuns i i
  | zeros {z : ZeroRuns} {bytes : ByteArray} (hz : zeroRuns = some z)
      (h : z.minBlock ≤ bytes.size) :
      Masked zeroRuns (.literal bytes) (.literal (zeroBytes bytes.size))

section Masked

variable {zeroRuns : Option ZeroRuns} {is js : List Instruction}

/-- Without zero runs, every instruction is itself. -/
theorem eq_of_masked_none (h : List.Forall₂ (Masked none) is js) : js = is := by
  induction h with
  | nil => rfl
  | cons hi _ ih =>
    cases hi with
    | same i => rw [ih]
    | zeros hz _ => cases hz

/-- Zeros do not move the offset base. -/
theorem foldl_past_of_masked (h : List.Forall₂ (Masked zeroRuns) is js) (b : OffsetBase) :
    js.foldl OffsetBase.past b = is.foldl OffsetBase.past b := by
  induction h generalizing b with
  | nil => rfl
  | cons hi _ ih =>
    rw [List.foldl_cons, List.foldl_cons, ih]
    cases hi with
    | same i => rfl
    | zeros _ _ => rfl

end Masked

namespace PatchWriter

/-- What is written for the bytes held back is as long as they are. -/
theorem size_payload (options : WriterOptions) (stats : WriterStats) (pending : ByteArray) :
    (if zeroes options stats pending.size then zeroBytes pending.size else pending).size =
      pending.size := by
  split
  · exact size_zeroBytes _
  · rfl

/-- It is masked. -/
theorem masked_payload (options : WriterOptions) (stats : WriterStats) (pending : ByteArray) :
    Masked options.zeroRuns (.literal pending) (.literal
      (if zeroes options stats pending.size then zeroBytes pending.size else pending)) := by
  by_cases hzero : zeroes options stats pending.size = true
  · rw [if_pos hzero]
    cases hz : options.zeroRuns with
    | none =>
      rw [zeroes, hz] at hzero
      cases hzero
    | some z =>
      rw [zeroes, hz] at hzero
      exact .zeros rfl (of_decide_eq_true (Bool.and_eq_true_iff.mp hzero).1)
  · rw [if_neg hzero]
    exact .same _

variable {ω : Type} [ByteOutput ω] {R : ω → List UInt8 → Prop} {front : List UInt8}
  {options : WriterOptions}

/-- The writer has written the records of a packing, as far as they are not masked, behind what its
output had taken before, and holds back the same bytes. -/
structure Wrote (R : ω → List UInt8 → Prop) (front : List UInt8) (options : WriterOptions)
    (w : PatchWriter ω) (p : Packing) : Prop where
  output : ∃ is, List.Forall₂ (Masked options.zeroRuns) p.records is ∧
    R w.output (front ++ toWire { mode := options.mode } is)
  base : w.base = p.records.foldl OffsetBase.past { mode := options.mode }
  pending : w.pending = packBytes p.pending
  kept : w.options = options
  closed : w.closed = false

variable {w : PatchWriter ω} {p : Packing}

theorem flatten_partsOf (mode : Mode) (record : Record) :
    (partsOf mode record).flatMap (·.data.toList) = record.encode mode := by
  rw [partsOf, List.flatMap_map, Record.encode]
  simp only [data_packBytes, List.toList_toArray, List.flatMap_id']

omit [ByteOutput ω] in
/-- One more record. -/
theorem Wrote.push (h : Wrote R front options w p) {is : List Instruction}
    (his : List.Forall₂ (Masked options.zeroRuns) p.records is) {i j : Instruction}
    (hj : Masked options.zeroRuns i j) {w' : PatchWriter ω} (hopt : w'.options = w.options)
    (hbase : w'.base = w.base.past i)
    (hout : R w'.output (front ++ toWire { mode := options.mode } is ++ j.toWire w.base))
    (hp : w'.pending = ByteArray.empty) (hc : w'.closed = w.closed) :
    Wrote R front options w' ⟨p.records ++ [i], []⟩ where
  output := by
    refine ⟨is ++ [j], List.rel_append his (.cons hj .nil), ?_⟩
    rw [toWire_append, foldl_past_of_masked his, ← h.base, toWire, toWire, List.append_nil,
      ← List.append_assoc]
    exact hout
  base := by rw [List.foldl_append, ← h.base, hbase]; rfl
  pending := hp
  kept := by rw [hopt, h.kept]
  closed := by rw [hc, h.closed]

/-- What is held back is written as one record. -/
theorem Wrote.writePending (o : ByteOutput.Reliable R) (h : Wrote R front options w p) :
    ∃ w', w.writePending = (.ok (), w') ∧ Wrote R front options w' p.settle := by
  rcases w with ⟨output, kept, base, pending, stats, closed⟩
  obtain rfl : options = kept := h.kept.symm
  obtain rfl : pending = packBytes p.pending := h.pending
  by_cases h₀ : p.pending = []
  · have hsize : (packBytes p.pending).size = 0 := by rw [h₀]; rfl
    rw [Packing.settle_of_pending h₀]
    exact ⟨_, by rw [PatchWriter.writePending, if_pos hsize], h⟩
  · have hsize : (packBytes p.pending).size ≠ 0 := by
      rw [size_packBytes]
      exact fun hlen => h₀ (List.eq_nil_of_length_eq_zero hlen)
    have hmasked := masked_payload options stats (packBytes p.pending)
    obtain ⟨is, his, hout⟩ := h.output
    rw [PatchWriter.writePending, if_neg hsize]
    simp only
    generalize (if zeroes options stats (packBytes p.pending).size
      then zeroBytes (packBytes p.pending).size else packBytes p.pending) = payload at hmasked ⊢
    obtain ⟨out', hp, ho⟩ := o.writeParts hout
      (partsOf base.mode (.literal payload.size) ++ [payload])
    rw [List.flatMap_append, flatten_partsOf, List.flatMap_cons, List.flatMap_nil,
      List.append_nil] at ho
    let size := (Record.literal payload.size).headerLength base.mode + payload.size
    let w' : PatchWriter ω := ⟨out', options, base, ByteArray.empty,
      { stats with written := stats.written + size }, closed⟩
    have hw' : Wrote R front options w' ⟨p.records ++ [.literal (packBytes p.pending)], []⟩ :=
      h.push his hmasked rfl rfl ho rfl rfl
    refine ⟨w', ?_, ?_⟩
    · rw [hp]
    · rwa [Packing.settle, if_neg h₀]

/-- A copy is written when nothing is held back. -/
theorem Wrote.writeCopy (o : ByteOutput.Reliable R) (h : Wrote R front options w p)
    (hp : p.pending = []) (offset length : Nat) :
    ∃ w', w.writeCopy offset length = (.ok (), w') ∧
      Wrote R front options w' ⟨p.records ++ [.copy offset length], []⟩ := by
  rcases w with ⟨output, kept, base, pending, stats, closed⟩
  obtain rfl : pending = ByteArray.empty := by
    rw [show pending = packBytes p.pending from h.pending, hp, packBytes_nil]
  obtain ⟨is, his, hout⟩ := h.output
  obtain ⟨out', hp', ho'⟩ := o.writeParts hout
    (partsOf (base.encode offset).2.mode (.copy (base.encode offset).1 length))
  rw [flatten_partsOf, OffsetBase.mode_encode] at ho'
  let w' : PatchWriter ω := (PatchWriter.writeCopy
    ⟨output, kept, base, ByteArray.empty, stats, closed⟩ offset length).2
  have hcopy : PatchWriter.writeCopy ⟨output, kept, base, ByteArray.empty, stats, closed⟩
      offset length = (.ok (),
        ⟨out', kept, (base.encode offset).2, ByteArray.empty, w'.stats, closed⟩) := by
    simp only [w', PatchWriter.writeCopy, hp']
  exact ⟨_, hcopy, h.push his (.same _) rfl rfl ho' rfl rfl⟩

/-! ## Calls -/

theorem Wrote.flushOutput (o : ByteOutput.Reliable R) (h : Wrote R front options w p) :
    ∃ w', w.flushOutput = (.ok (), w') ∧ Wrote R front options w' p := by
  rcases w with ⟨output, kept, base, pending, stats, closed⟩
  obtain ⟨is, his, hout⟩ := h.output
  obtain ⟨out', hf, ho⟩ := o.flush hout
  exact ⟨⟨out', kept, base, pending, stats, closed⟩, by rw [PatchWriter.flushOutput, hf],
    ⟨is, his, ho⟩, h.base, h.pending, h.kept, h.closed⟩

omit [ByteOutput ω] in
theorem Wrote.not_closed (h : Wrote R front options w p) : ¬ w.closed = true := by
  rw [h.closed]
  decide

/-- A copy is written behind what is held back, unless it is empty. -/
theorem Wrote.addCopy (o : ByteOutput.Reliable R) (h : Wrote R front options w p)
    (offset length : Nat) :
    ∃ w', w.addCopy offset length = (.ok (), w') ∧
      Wrote R front options w' (p.add (.copy offset length)) := by
  obtain ⟨w₁, h₁, hw₁⟩ := h.writePending o
  rw [PatchWriter.addCopy, if_neg h.not_closed, h₁]
  by_cases h₀ : length = 0
  · subst h₀
    rw [Packing.add_empty]
    exact ⟨w₁, if_pos rfl, hw₁⟩
  · obtain ⟨w₂, h₂, hw₂⟩ := hw₁.writeCopy o p.pending_settle offset length
    rw [Packing.add_copy p offset h₀]
    exact ⟨w₂, (if_neg h₀).trans h₂, hw₂⟩

/-- Bytes for which there is room are held back, and written once they fill a chunk. -/
theorem Wrote.hold (o : ByteOutput.Reliable R) (h : Wrote R front options w p)
    (hp : p.pending.length < literalChunk) (bytes : ByteArray)
    (hb : p.pending.length + bytes.size ≤ literalChunk) :
    ∃ w', w.hold bytes = (.ok (), w') ∧
      Wrote R front options w' (p.addAll (bytes.data.toList.map .byte)) := by
  rcases w with ⟨output, kept, base, pending, stats, closed⟩
  rw [← length_toList] at hb
  have hall : pending ++ bytes = packBytes (p.pending ++ bytes.data.toList) := by
    rw [packBytes_append, packBytes_toList, ← h.pending]
  have hw : Wrote R front options ⟨output, kept, base, pending ++ bytes,
      stats.addLiteral kept.window bytes.size, closed⟩
      ⟨p.records, p.pending ++ bytes.data.toList⟩ :=
    ⟨h.output, h.base, hall, h.kept, h.closed⟩
  have hsize : (pending ++ bytes).size = p.pending.length + bytes.data.toList.length := by
    rw [hall, size_packBytes, List.length_append]
  rw [Packing.addAll_bytes hp hb]
  by_cases hroom : p.pending.length + bytes.data.toList.length < literalChunk
  · rw [if_pos hroom]
    exact ⟨_, by rw [PatchWriter.hold]; exact if_neg (by dsimp only; omega), hw⟩
  · obtain ⟨w', h', hw'⟩ := hw.writePending o
    rw [if_neg hroom]
    exact ⟨w', by rw [PatchWriter.hold]; exact (if_pos (by dsimp only; omega)).trans h', hw'⟩

/-- Literal bytes are held back byte by byte, however many chunks they fill. -/
theorem Wrote.addLiteralFrom (o : ByteOutput.Reliable R) (h : Wrote R front options w p)
    (hp : p.pending.length < literalChunk) (bytes : ByteArray) {start : Nat}
    (hs : start ≤ bytes.size) :
    ∃ w', w.addLiteralFrom bytes start = (.ok (), w') ∧ Wrote R front options w'
      (p.addAll ((bytes.data.toList.drop start).map .byte)) := by
  have hsize : ∀ {w : PatchWriter ω} {p : Packing}, Wrote R front options w p →
      w.pending.size = p.pending.length := by
    intro w p h
    rw [h.pending, size_packBytes]
  fun_induction PatchWriter.addLiteralFrom w bytes start generalizing p with
  | case1 w start hstart count e w' =>
    rename_i hh
    have := hsize h
    obtain ⟨w₁, h₁, -⟩ := h.hold o hp (bytes.extract start (start + count))
      (by rw [ByteArray.size_extract]; omega)
    rw [hh] at h₁
    cases h₁
  | case2 w start hstart count w' hh =>
    rename_i ih
    have := hsize h
    obtain ⟨w₁, h₁, hw₁⟩ := h.hold o hp (bytes.extract start (start + count))
      (by rw [ByteArray.size_extract]; omega)
    rw [hh] at h₁
    obtain ⟨-, rfl⟩ := Prod.mk.inj h₁
    obtain ⟨w₂, h₂, hw₂⟩ := ih hw₁ (Packing.pending_addAll_lt hp _) (by omega)
    refine ⟨w₂, h₂, ?_⟩
    rwa [← Packing.addAll_append, ← List.map_append, toList_extract, List.drop_take,
      Nat.add_sub_cancel_left, ← List.drop_drop, List.take_append_drop] at hw₂
  | case3 w start hge =>
    rw [List.drop_eq_nil_of_le (by rw [length_toList]; omega)]
    exact ⟨w, rfl, h⟩

theorem Wrote.flush (o : ByteOutput.Reliable R) (h : Wrote R front options w p) :
    ∃ w', w.flush = (.ok (), w') ∧ Wrote R front options w' p.settle := by
  obtain ⟨w₁, h₁, hw₁⟩ := h.writePending o
  obtain ⟨w₂, h₂, hw₂⟩ := hw₁.flushOutput o
  exact ⟨w₂, by rw [PatchWriter.flush, h₁]; exact h₂, hw₂⟩

/-- Every call succeeds and packs its atoms. -/
theorem Wrote.act (o : ByteOutput.Reliable R) (h : Wrote R front options w p)
    (hp : p.pending.length < literalChunk) (step : SinkStep) :
    ∃ w', step.act w = (.ok (), w') ∧ Wrote R front options w' (p.addAll step.atoms) := by
  cases step with
  | copy offset length => exact h.addCopy o offset length
  | byte value =>
    obtain ⟨w', h', hw'⟩ := h.hold o hp (packBytes [value]) hp
    exact ⟨w', (if_neg h.not_closed).trans h', hw'⟩
  | literal bytes =>
    obtain ⟨w', h', hw'⟩ := h.addLiteralFrom o hp bytes (Nat.zero_le _)
    exact ⟨w', (if_neg h.not_closed).trans h', hw'⟩
  | flush =>
    obtain ⟨w', h', hw'⟩ := h.flush o
    exact ⟨w', h', by rwa [SinkStep.atoms, Packing.addAll_cons, Packing.add_empty]⟩

/-- So do any number of calls. -/
theorem Wrote.feed (o : ByteOutput.Reliable R) (h : Wrote R front options w {})
    (steps : List SinkStep) :
    ∃ w', BinaryDelta.feed w steps = (.ok (), w') ∧
      Wrote R front options w' (Packing.addAll {} (steps.flatMap SinkStep.atoms)) :=
  exists_feed (P := fun _ => True)
    (I := fun done w => Wrote R front options w (Packing.addAll {} (done.flatMap SinkStep.atoms)))
    (fun {done sink step} hi _ => by
      obtain ⟨sink', ha, hw⟩ := hi.act o (pending_lt _) step
      refine ⟨sink', ha, ?_⟩
      rwa [List.flatMap_append, List.flatMap_singleton, Packing.addAll_append])
    [] h fun _ _ => trivial

/-! ## Beginning and end -/

/-- Starting a patch writes the preamble, unless that is switched off. -/
theorem exists_create (o : ByteOutput.Reliable R) {out : ω} (ho : R out front)
    (options : WriterOptions) (hproblem : options.problem? = none) :
    ∃ w, create out options = .ok w ∧ Wrote R (front ++ options.opening) options w {} := by
  by_cases hp : options.skipPreamble = true
  · refine ⟨⟨out, options, { mode := options.mode }, ByteArray.empty, {}, false⟩, ?_,
      ⟨[], .nil, ?_⟩, rfl, rfl, rfl, rfl⟩
    · simp only [create, hproblem, if_pos hp]
    · rw [WriterOptions.opening, if_pos hp, toWire, List.append_nil, List.append_nil]
      exact ho
  · obtain ⟨out', hw, ho'⟩ := o.write ho (packBytes (preamble options.mode))
    refine ⟨⟨out', options, { mode := options.mode }, ByteArray.empty,
      { written := preambleLength }, false⟩, ?_, ⟨[], .nil, ?_⟩, rfl, rfl, rfl, rfl⟩
    · simp only [create, hproblem, if_neg hp, hw]
    · rw [WriterOptions.opening, if_neg hp, toWire, List.append_nil]
      exact ho'

/-- The end marker is written, unless that is switched off. -/
theorem Wrote.writeEof (o : ByteOutput.Reliable R) (h : Wrote R front options w p) :
    ∃ w' is, w.writeEof = (.ok (), w') ∧ List.Forall₂ (Masked options.zeroRuns) p.records is ∧
      R w'.output (front ++ toWire { mode := options.mode } is ++ options.ending) := by
  rcases w with ⟨output, kept, base, pending, stats, closed⟩
  obtain rfl : options = kept := h.kept.symm
  obtain ⟨is, his, hout⟩ := h.output
  by_cases he : options.skipEof = true
  · rw [WriterOptions.ending, if_pos he]
    refine ⟨_, is, by rw [PatchWriter.writeEof]; exact if_pos he, his, ?_⟩
    rwa [List.append_nil]
  · obtain ⟨out', hp, ho⟩ := o.writeParts hout (partsOf base.mode .eof)
    rw [flatten_partsOf] at ho
    rw [WriterOptions.ending, if_neg he]
    refine ⟨⟨out', options, base, pending, { stats with written := stats.written + 1 }, closed⟩,
      is, ?_, his, ho⟩
    rw [PatchWriter.writeEof, if_neg he, hp]

/-- Closing writes what is held back, and the end marker unless that is switched off. -/
theorem Wrote.close (o : ByteOutput.Reliable R) (h : Wrote R front options w p) :
    ∃ w' is, w.close = (.ok (), w') ∧
      List.Forall₂ (Masked options.zeroRuns) p.settle.records is ∧
      R w'.output (front ++ (toWire { mode := options.mode } is ++ options.ending)) := by
  obtain ⟨w₁, h₁, hw₁⟩ := h.writePending o
  obtain ⟨w₂, is, h₂, his, ho₂⟩ := hw₁.writeEof o
  obtain ⟨out₃, hf, ho₃⟩ := o.flush ho₂
  rw [List.append_assoc] at ho₃
  refine ⟨{ w₂ with output := out₃, closed := true }, is, ?_, his, ho₃⟩
  rw [PatchWriter.close, if_neg h.not_closed, h₁]
  simp only [h₂, PatchWriter.flushOutput, hf]

/-- Any calls make up a segment of the records that their atoms are packed into, with zeros in the
place of some literals. -/
theorem exists_masked_segment (o : ByteOutput.Reliable R) {out : ω} (ho : R out front)
    (options : WriterOptions) (hproblem : options.problem? = none) (steps : List SinkStep) :
    ∃ w w' is, create out options = .ok w ∧ complete w steps = (.ok (), w') ∧
      List.Forall₂ (Masked options.zeroRuns) (packed (steps.flatMap SinkStep.atoms)) is ∧
      R w'.output (front ++ options.segmentOf is) := by
  obtain ⟨w, hw, hwrote⟩ := exists_create o ho options hproblem
  obtain ⟨w₁, h₁, hw₁⟩ := hwrote.feed o steps
  obtain ⟨w₂, is, h₂, his, ho₂⟩ := hw₁.close o
  refine ⟨w, w₂, is, hw, ?_, his, ?_⟩
  · rw [complete, h₁, andThen_ok]
    exact h₂
  · rw [WriterOptions.segmentOf, ← List.append_assoc]
    exact ho₂

/-- Without zero runs, any calls make up a segment of the records that their atoms are packed
into. -/
theorem exists_segment (o : ByteOutput.Reliable R) {out : ω} (ho : R out front)
    (options : WriterOptions) (hz : options.zeroRuns = none) (steps : List SinkStep) :
    ∃ w w', create out options = .ok w ∧ complete w steps = (.ok (), w') ∧
      R w'.output (front ++ options.segmentOf (packed (steps.flatMap SinkStep.atoms))) := by
  have hproblem : options.problem? = none := by
    rw [WriterOptions.problem?, hz, Option.bind_none]
  obtain ⟨w, w', is, hw, h', his, hout⟩ := exists_masked_segment o ho options hproblem steps
  rw [hz] at his
  rw [eq_of_masked_none his] at hout
  exact ⟨w, w', hw, h', hout⟩

/-- A writer that skips nothing makes up the patch of these records. -/
theorem exists_patch (o : ByteOutput.Reliable R) {out : ω} (ho : R out front)
    (options : WriterOptions) (hz : options.zeroRuns = none) (hp : options.skipPreamble = false)
    (he : options.skipEof = false) (steps : List SinkStep) :
    ∃ w w', create out options = .ok w ∧ complete w steps = (.ok (), w') ∧
      R w'.output (front ++ patchOf options.mode (packed (steps.flatMap SinkStep.atoms))) := by
  rw [← WriterOptions.segmentOf_eq_patchOf hp he]
  exact exists_segment o ho options hz steps

/-- Any calls in the range of the format make up a patch, of instructions that a collector would
have collected from them, had it not got the empty copies. -/
theorem exists_complete (o : ByteOutput.Reliable R) {out : ω} (ho : R out front)
    (options : WriterOptions) (hz : options.zeroRuns = none) (hp : options.skipPreamble = false)
    (he : options.skipEof = false) {steps : List SinkStep} (hs : ∀ step ∈ steps, step.Writable) :
    ∃ w w' is, create out options = .ok w ∧ complete w steps = (.ok (), w') ∧
      R w'.output (front ++ patchOf options.mode is) ∧ (∀ i ∈ is, i.Writable) ∧
      ({} : Collector).addAll is =
        ({} : Collector).addAll ((steps.filter SinkStep.counts).flatMap SinkStep.instructions) := by
  obtain ⟨w, w', hw, h', hout⟩ := exists_patch o ho options hz hp he steps
  refine ⟨w, w', _, hw, h', hout, writable_packed_atoms hs, Collector.addAll_congr ?_ _⟩
  rw [atoms_packed, filter_flatMap_atoms]

end PatchWriter

end BinaryDelta
