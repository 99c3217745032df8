import BinaryDelta.Proofs.Sink.Backlog
import BinaryDelta.Proofs.Wire.Records

/-!
# The counters of a patch writer

A patch writer adds up what it writes from the widths that it selects, and never looks at its
output. Here the sums are compared with what is there: the bytes that the output has taken, and the
records that these spell.

* `SinkEvent` is any call to a sink, closing it included.
* `Tallies` says that the counters are those of the given bytes and of the records in them;
  `Counted` that they are those of what the output has taken.

Results:
* `Counted.writePending`, `Counted.writeCopy`, `Counted.writeEof`: a record that is written is
  counted.
* `Counted.act`, `Counted.close`: so every call keeps the counters right, zero runs or not.
* `make_of_shut`: a writer that was closed does nothing but flush its output.
* `counters_exact`: after any calls the counters are right, and after closing they stay as they are.
-/

namespace BinaryDelta

/-- Does the length of a copy fit into a record? Its offset may be any. -/
def SinkStep.Sized : SinkStep → Prop
  | copy _ length => length < 0x100000000
  | _ => True

/-- A call to a sink. -/
inductive SinkEvent where
  | call (step : SinkStep)
  | close

namespace SinkEvent

/-- Does the length of a copy fit into a record? -/
def Sized : SinkEvent → Prop
  | call step => step.Sized
  | close => True

/-- The sink after the call, whatever it answered. -/
def make {κ : Type} [InstructionSink κ] (sink : κ) : SinkEvent → κ
  | call step => (step.act sink).2
  | close => (InstructionSink.close sink).2

end SinkEvent

/-! ## Copies by the width of their offset -/

/-- Counts the copies by the width of their offset field. -/
def copiesOf (records : List (RecordForm × Record)) : CopyCounts where
  byte := offsetFields 1 records
  short := offsetFields 2 records
  int := offsetFields 4 records
  long := offsetFields 8 records

theorem copiesOf_append_copy (rs : List (RecordForm × Record)) (offset : OffsetWidth)
    (width : LengthWidth) (record : Record) :
    copiesOf (rs ++ [(.copy offset width, record)]) = (copiesOf rs).add offset := by
  cases offset <;> simp [copiesOf, offsetFields, CopyCounts.add, RecordForm.offsetBytes?,
    OffsetWidth.bytes]

theorem copiesOf_append_of_none (rs : List (RecordForm × Record)) {form : RecordForm}
    (h : form.offsetBytes? = none) (record : Record) :
    copiesOf (rs ++ [(form, record)]) = copiesOf rs := by
  simp [copiesOf, offsetFields, h]

namespace PatchWriter

variable {ω : Type}

/-! ## Counters and bytes -/

/-- The counters of the writer are those of these bytes behind its opening, and of the records in
them. Bytes that are held back count towards the total length only. -/
structure Tallies (options : WriterOptions) (w : PatchWriter ω) (bytes : List UInt8)
    (records : List (RecordForm × Record)) : Prop where
  wire : wireRecords? options.mode bytes = some records
  written : w.stats.written = (options.opening ++ bytes).length
  totalLength : w.stats.totalLength = describedLength records + w.pending.size
  copies : w.stats.copies = copiesOf records

section Tallies

variable {options : WriterOptions} {w w' : PatchWriter ω} {bytes : List UInt8}
  {records : List (RecordForm × Record)}

/-- One more record. -/
theorem Tallies.push (h : w.Tallies options bytes records) {bytes' : List UInt8}
    {form : RecordForm} {record : Record}
    (hr : wireRecords? options.mode bytes' = some [(form, record)])
    (hwritten : w'.stats.written = w.stats.written + bytes'.length)
    (htotal : w'.stats.totalLength + w.pending.size =
      w.stats.totalLength + record.outputLength + w'.pending.size)
    (hcopies : w.stats.copies = copiesOf records →
      w'.stats.copies = copiesOf (records ++ [(form, record)])) :
    w'.Tallies options (bytes ++ bytes') (records ++ [(form, record)]) where
  wire := by rw [wireRecords?_append h.wire, hr, Option.map_some]
  written := by
    have := h.written
    simp only [List.length_append] at this ⊢
    omega
  totalLength := by
    have := h.totalLength
    have hlast : describedLength [(form, record)] = record.outputLength := by
      simp [describedLength]
    rw [describedLength_append, hlast]
    omega
  copies := hcopies h.copies

/-- More bytes are held back. -/
theorem Tallies.holding (h : w.Tallies options bytes records) (more : ByteArray) :
    (w.holding more).Tallies options bytes records where
  wire := h.wire
  written := h.written
  totalLength := by
    have := h.totalLength
    have hadd : (w.holding more).stats.totalLength = w.stats.totalLength + more.size := rfl
    rw [size_holding, hadd]
    omega
  copies := h.copies

end Tallies

variable [ByteOutput ω]

/-- The counters of the writer are those of what its output has taken behind what it had taken
before. -/
structure Counted (R : ω → List UInt8 → Prop) (front : List UInt8) (options : WriterOptions)
    (w : PatchWriter ω) : Prop where
  exact : ∃ bytes records, R w.output (front ++ (options.opening ++ bytes)) ∧
    w.Tallies options bytes records
  mode : w.base.mode = options.mode
  settled : w.closed = true → w.pending.size = 0

variable {R : ω → List UInt8 → Prop} {front : List UInt8} {options : WriterOptions}
  {w : PatchWriter ω}

omit [ByteOutput ω] in
/-- A record that the output has taken is counted. -/
theorem Counted.push (h : Counted R front options w) {bytes bytes' : List UInt8}
    {records : List (RecordForm × Record)} {w' : PatchWriter ω}
    (ht : w.Tallies options bytes records)
    (hout : R w'.output (front ++ (options.opening ++ bytes) ++ bytes')) {form : RecordForm}
    {record : Record} (hr : wireRecords? w.base.mode bytes' = some [(form, record)])
    (hwritten : w'.stats.written = w.stats.written + bytes'.length)
    (htotal : w'.stats.totalLength + w.pending.size =
      w.stats.totalLength + record.outputLength + w'.pending.size)
    (hcopies : w.stats.copies = copiesOf records →
      w'.stats.copies = copiesOf (records ++ [(form, record)]))
    (hmode : w'.base.mode = w.base.mode) (hsettled : w'.pending.size = 0) :
    Counted R front options w' where
  exact := by
    rw [h.mode] at hr
    rw [List.append_assoc, List.append_assoc] at hout
    exact ⟨bytes ++ bytes', _, hout, ht.push hr hwritten htotal hcopies⟩
  mode := hmode.trans h.mode
  settled := fun _ => hsettled

omit [ByteOutput ω] in
/-- So are bytes that are held back. -/
theorem Counted.holding (h : Counted R front options w) (hopen : w.closed = false)
    (more : ByteArray) : Counted R front options (w.holding more) where
  exact := by
    obtain ⟨bytes, records, hR, ht⟩ := h.exact
    exact ⟨bytes, records, hR, ht.holding more⟩
  mode := h.mode
  settled := fun hc => by cases hopen.symm.trans hc

/-! ## Records that are written -/

/-- What is held back is written as one record. -/
theorem Counted.writePending (o : ByteOutput.Reliable R) (h : Counted R front options w)
    (hp : w.pending.size ≤ literalChunk) :
    ∃ w', w.writePending = (.ok (), w') ∧ Counted R front options w' ∧ w'.closed = w.closed := by
  rcases w with ⟨output, kept, base, pending, stats, closed⟩
  by_cases h₀ : pending.size = 0
  · exact ⟨_, by rw [PatchWriter.writePending, if_pos h₀], h, rfl⟩
  · rw [PatchWriter.writePending, if_neg h₀]
    have hsize := size_payload kept stats pending
    simp only
    generalize (if zeroes kept stats pending.size then zeroBytes pending.size else pending) =
      payload at hsize ⊢
    rw [hsize]
    obtain ⟨bytes, records, hR, ht⟩ := h.exact
    obtain ⟨out', hw, ho⟩ := o.writeParts hR
      (partsOf base.mode (.literal pending.size) ++ [payload])
    rw [List.flatMap_append, flatten_partsOf, List.flatMap_singleton] at ho
    have hlt : pending.size < 0x100000000 := Nat.lt_of_le_of_lt hp (by decide)
    obtain ⟨form, hform, hr⟩ := wireRecords?_literal base.mode
      (Nat.pos_of_ne_zero h₀) hlt ((length_toList payload).trans hsize)
    rw [hw]
    refine ⟨_, rfl, h.push ht ho hr ?_ rfl ?_ rfl rfl, rfl⟩
    · simp only [List.length_append, Record.length_encode, length_toList, hsize]
    · intro hcopies
      rw [copiesOf_append_of_none _ hform]
      exact hcopies

/-- A copy is written when nothing is held back. -/
theorem Counted.writeCopy (o : ByteOutput.Reliable R) (h : Counted R front options w)
    (hp : w.pending.size = 0) (offset : Nat) {length : Nat} (hl : length < 0x100000000) :
    ∃ w', w.writeCopy offset length = (.ok (), w') ∧ Counted R front options w' := by
  rcases w with ⟨output, kept, base, pending, stats, closed⟩
  obtain ⟨bytes, records, hR, ht⟩ := h.exact
  obtain ⟨out', hw, ho⟩ := o.writeParts hR
    (partsOf base.mode (.copy (base.encode offset).1 length))
  rw [flatten_partsOf] at ho
  obtain ⟨width, value', hr⟩ := wireRecords?_copy base.mode (base.encode offset).1 hl
  simp only [PatchWriter.writeCopy, OffsetBase.mode_encode, hw]
  refine ⟨_, rfl, h.push ht ho hr ?_ rfl ?_ (OffsetBase.mode_encode base offset) hp⟩
  · exact congrArg _ (Record.length_encode _ _).symm
  · intro hcopies
    rw [copiesOf_append_copy, ← hcopies]

/-- The end marker is written, unless that is switched off. -/
theorem Counted.writeEof (o : ByteOutput.Reliable R) (h : Counted R front options w)
    (hp : w.pending.size = 0) :
    ∃ w', w.writeEof = (.ok (), w') ∧ Counted R front options w' ∧ w'.pending.size = 0 := by
  rcases w with ⟨output, kept, base, pending, stats, closed⟩
  by_cases he : kept.skipEof = true
  · exact ⟨_, by rw [PatchWriter.writeEof]; exact if_pos he, h, hp⟩
  · obtain ⟨bytes, records, hR, ht⟩ := h.exact
    obtain ⟨out', hw, ho⟩ := o.writeParts hR (partsOf base.mode .eof)
    rw [flatten_partsOf] at ho
    simp only [PatchWriter.writeEof, if_neg he, hw]
    refine ⟨_, rfl, h.push ht ho wireRecords?_eof rfl rfl ?_ rfl hp, hp⟩
    intro hcopies
    rw [copiesOf_append_of_none _ rfl]
    exact hcopies

/-! ## Calls -/

theorem flushOutput_eq (w : PatchWriter ω) :
    w.flushOutput.2 = { w with output := (ByteOutput.flush w.output).2 } := by
  rcases w with ⟨output, options, base, pending, stats, closed⟩
  rw [flushOutput]
  split
  · rename_i hf
    rw [hf]
  · rename_i hf
    rw [hf]

theorem Counted.flushOutput (o : ByteOutput.Reliable R) (h : Counted R front options w) :
    ∃ w', w.flushOutput = (.ok (), w') ∧ Counted R front options w' ∧
      w'.pending.size = w.pending.size := by
  rcases w with ⟨output, kept, base, pending, stats, closed⟩
  obtain ⟨bytes, records, hR, ht⟩ := h.exact
  obtain ⟨out', hf, ho⟩ := o.flush hR
  simp only [PatchWriter.flushOutput, hf]
  exact ⟨_, rfl, ⟨⟨bytes, records, ho, ht.wire, ht.written, ht.totalLength, ht.copies⟩, h.mode,
    h.settled⟩, rfl⟩

/-- A copy is written behind what is held back, unless it is empty. -/
theorem Counted.addCopy (o : ByteOutput.Reliable R) (h : Counted R front options w)
    (hopen : w.closed = false) (hp : w.pending.size ≤ literalChunk) (offset : Nat) {length : Nat}
    (hl : length < 0x100000000) :
    ∃ w', w.addCopy offset length = (.ok (), w') ∧ Counted R front options w' := by
  obtain ⟨w₁, h₁, hw₁, -⟩ := h.writePending o hp
  rw [addCopy_eq, hopen, if_neg Bool.false_ne_true, h₁, andThen_ok]
  split
  · exact ⟨w₁, rfl, hw₁⟩
  · exact hw₁.writeCopy o (size_pending_of_writePending h₁) offset hl

/-- Bytes for which there is room are held back, and written once they fill a chunk. -/
theorem Counted.hold (o : ByteOutput.Reliable R) (h : Counted R front options w)
    (hopen : w.closed = false) (bytes : ByteArray)
    (hb : w.pending.size + bytes.size ≤ literalChunk) :
    ∃ w', w.hold bytes = (.ok (), w') ∧ Counted R front options w' ∧ w'.closed = false := by
  have hw := h.holding hopen bytes
  rw [hold_eq]
  split
  · obtain ⟨w', h', hw', hc⟩ := hw.writePending o (by rwa [size_holding])
    exact ⟨w', h', hw', hc.trans hopen⟩
  · exact ⟨_, rfl, hw, hopen⟩

/-- A slice is counted round by round, however many chunks it fills. -/
theorem Counted.addLiteralFrom (o : ByteOutput.Reliable R) (h : Counted R front options w)
    (hopen : w.closed = false) (hp : w.pending.size < literalChunk) (bytes : ByteArray)
    (start : Nat) :
    ∃ w', w.addLiteralFrom bytes start = (.ok (), w') ∧ Counted R front options w' := by
  fun_induction PatchWriter.addLiteralFrom w bytes start with
  | case1 w start hstart count e w' hh =>
    obtain ⟨w₁, h₁, -, -⟩ := h.hold o hopen (bytes.extract start (start + count))
      (by rw [ByteArray.size_extract]; omega)
    rw [hh] at h₁
    cases h₁
  | case2 w start hstart count w' hh ih =>
    obtain ⟨w₁, h₁, hw₁, hopen₁⟩ := h.hold o hopen (bytes.extract start (start + count))
      (by rw [ByteArray.size_extract]; omega)
    rw [hh] at h₁
    obtain ⟨-, rfl⟩ := Prod.mk.inj h₁
    exact ih hw₁ hopen₁ (size_pending_lt_of_hold hh)
  | case3 w start hge => exact ⟨w, rfl, h⟩

theorem Counted.flush (o : ByteOutput.Reliable R) (h : Counted R front options w)
    (hp : w.pending.size ≤ literalChunk) :
    ∃ w', w.flush = (.ok (), w') ∧ Counted R front options w' := by
  obtain ⟨w₁, h₁, hw₁, -⟩ := h.writePending o hp
  obtain ⟨w₂, h₂, hw₂, -⟩ := hw₁.flushOutput o
  exact ⟨w₂, by rw [flush_eq, h₁]; exact h₂, hw₂⟩

/-- A writer that is not closed succeeds with every call and counts it. -/
theorem Counted.act (o : ByteOutput.Reliable R) (h : Counted R front options w)
    (hopen : w.closed = false) (hp : w.pending.size < literalChunk) {step : SinkStep}
    (hs : step.Sized) :
    ∃ w', step.act w = (.ok (), w') ∧ Counted R front options w' ∧
      w'.pending.size < literalChunk := by
  have hne : ¬ w.closed = true := Bool.eq_false_iff.mp hopen
  have hcounted : ∃ w', step.act w = (.ok (), w') ∧ Counted R front options w' := by
    cases step with
    | copy offset length => exact h.addCopy o hopen (Nat.le_of_lt hp) offset hs
    | byte value =>
      obtain ⟨w', h', hw', -⟩ := h.hold o hopen (ByteArray.empty.push value) hp
      exact ⟨w', (if_neg hne).trans h', hw'⟩
    | literal bytes =>
      obtain ⟨w', h', hw'⟩ := h.addLiteralFrom o hopen hp bytes 0
      exact ⟨w', (if_neg hne).trans h', hw'⟩
    | flush => exact h.flush o (Nat.le_of_lt hp)
  obtain ⟨w', h', hw'⟩ := hcounted
  exact ⟨w', h', hw', size_pending_lt_of_act hp h'⟩

/-- Closing succeeds, and what it writes is counted. -/
theorem Counted.close (o : ByteOutput.Reliable R) (h : Counted R front options w)
    (hp : w.pending.size ≤ literalChunk) :
    ∃ w', w.close = (.ok (), w') ∧ Counted R front options w' ∧ w'.closed = true ∧
      w'.pending.size = 0 := by
  rw [close_eq]
  by_cases hc : w.closed = true
  · rw [if_pos hc]
    exact ⟨w, rfl, h, hc, h.settled hc⟩
  · obtain ⟨w₁, h₁, hw₁, -⟩ := h.writePending o hp
    obtain ⟨w₂, h₂, hw₂, hp₂⟩ := hw₁.writeEof o (size_pending_of_writePending h₁)
    obtain ⟨w₃, h₃, hw₃, hp₃⟩ := hw₂.flushOutput o
    obtain ⟨bytes, records, hR, ht⟩ := hw₃.exact
    rw [hp₂] at hp₃
    simp only [if_neg hc, h₁, h₂, h₃, andThen_ok]
    exact ⟨_, rfl, ⟨⟨bytes, records, hR, ht.wire, ht.written, ht.totalLength, ht.copies⟩,
      hw₃.mode, fun _ => hp₃⟩, rfl, hp₃⟩

/-! ## After closing -/

/-- A closed writer takes nothing. -/
theorem act_of_closed (hc : w.closed = true) {step : SinkStep} (hs : step ≠ .flush) :
    step.act w = (.error .sinkClosed, w) := by
  cases step with
  | copy offset length => exact if_pos hc
  | byte value => exact if_pos hc
  | literal bytes => exact if_pos hc
  | flush => exact absurd rfl hs

/-- A writer that was closed does nothing but flush its output. -/
theorem make_of_shut (hc : w.closed = true) (hp : w.pending.size = 0) (e : SinkEvent) :
    e.make w = w ∨ e.make w = { w with output := (ByteOutput.flush w.output).2 } := by
  cases e with
  | call step =>
    by_cases hs : step = .flush
    · right
      subst hs
      have hnothing : w.writePending = (.ok (), w) := by
        rcases w with ⟨output, options, base, pending, stats, closed⟩
        exact if_pos hp
      have hflush : w.flush = w.flushOutput := by rw [flush_eq, hnothing, andThen_ok]
      rw [← flushOutput_eq, ← hflush]
      rfl
    · left
      exact congrArg Prod.snd (act_of_closed hc hs)
  | close =>
    left
    have hclose : w.close = (.ok (), w) := by rw [close_eq, if_pos hc]
    exact congrArg Prod.snd hclose

/-! ## Histories -/

/-- Any call keeps the counters right. -/
theorem Counted.make (o : ByteOutput.Reliable R) (h : Counted R front options w)
    (hp : w.pending.size < literalChunk) {e : SinkEvent} (he : e.Sized) :
    Counted R front options (e.make w) ∧ (e.make w).pending.size < literalChunk := by
  by_cases hc : w.closed = true
  · rcases make_of_shut hc (h.settled hc) e with hsame | hflush
    · rw [hsame]
      exact ⟨h, hp⟩
    · obtain ⟨w', h', hw', hp'⟩ := h.flushOutput o
      rw [hflush, ← flushOutput_eq, h']
      exact ⟨hw', by rwa [hp']⟩
  · cases e with
    | call step =>
      obtain ⟨w', h', hw', hp'⟩ := h.act o (Bool.eq_false_iff.mpr hc) hp he
      rw [SinkEvent.make, h']
      exact ⟨hw', hp'⟩
    | close =>
      obtain ⟨w', h', hw', -, hp'⟩ := h.close o (Nat.le_of_lt hp)
      rw [show SinkEvent.close.make w = w' from congrArg Prod.snd h']
      exact ⟨hw', by rw [hp']; decide⟩

/-- So do any number of calls. -/
theorem Counted.foldl_make (o : ByteOutput.Reliable R) (h : Counted R front options w)
    (hp : w.pending.size < literalChunk) {events : List SinkEvent} (he : ∀ e ∈ events, e.Sized) :
    Counted R front options (events.foldl SinkEvent.make w) ∧
      (events.foldl SinkEvent.make w).pending.size < literalChunk := by
  induction events generalizing w with
  | nil => exact ⟨h, hp⟩
  | cons e events ih =>
    obtain ⟨he, hevents⟩ := List.forall_mem_cons.mp he
    obtain ⟨hw, hp'⟩ := h.make o hp he
    exact ih hw hp' hevents

/-- A closed writer stays as it is, whatever it is told, but for flushes of its output. -/
theorem foldl_make_of_shut (o : ByteOutput.Reliable R) (hc : w.closed = true)
    (hp : w.pending.size = 0) {taken : List UInt8} (hR : R w.output taken)
    (events : List SinkEvent) :
    ∃ output', events.foldl SinkEvent.make w = { w with output := output' } ∧ R output' taken := by
  induction events generalizing w with
  | nil => exact ⟨w.output, rfl, hR⟩
  | cons e events ih =>
    rw [List.foldl_cons]
    rcases make_of_shut hc hp e with hsame | hflush
    · rw [hsame]
      exact ih hc hp hR
    · obtain ⟨out', hf, ho⟩ := o.flush hR
      rw [hf] at hflush
      rw [hflush]
      exact ih hc hp ho

/-- Starting a patch counts the preamble, unless it is skipped. -/
theorem exists_counted (o : ByteOutput.Reliable R) {out : ω} (ho : R out front)
    (hproblem : options.problem? = none) :
    ∃ w, create out options = .ok w ∧ Counted R front options w ∧ w.pending.size = 0 := by
  rw [create, hproblem]
  by_cases hp : options.skipPreamble = true
  · simp only [if_pos hp]
    refine ⟨_, rfl, ⟨⟨[], [], ?_, ?_, ?_, rfl, rfl⟩, rfl, fun _ => rfl⟩, rfl⟩
    · simpa [WriterOptions.opening, hp] using ho
    · rw [wireRecords?]
    · simp [WriterOptions.opening, hp]
  · obtain ⟨out', hw, ho'⟩ := o.write ho (packBytes (preamble options.mode))
    simp only [if_neg hp, hw]
    refine ⟨_, rfl, ⟨⟨[], [], ?_, ?_, ?_, rfl, rfl⟩, rfl, fun _ => rfl⟩, rfl⟩
    · simpa [WriterOptions.opening, hp] using ho'
    · rw [wireRecords?]
    · rw [List.append_nil, WriterOptions.opening, if_neg hp]
      rfl

/-- **After any calls the counters are right, and after closing they stay as they are.** The calls
come in any order, closing included, and each is one behind which the counters are compared with
the bytes of the output. What closing leaves behind adds nothing to these, whatever it is told, and
refuses all that would be added. -/
theorem counters_exact (o : ByteOutput.Reliable R) {out : ω} (ho : R out front)
    (options : WriterOptions) (hproblem : options.problem? = none) :
    ∃ w, create out options = .ok w ∧ ∀ events : List SinkEvent, (∀ e ∈ events, e.Sized) →
      (∃ bytes records,
        R (events.foldl SinkEvent.make w).output (front ++ (options.opening ++ bytes)) ∧
        (events.foldl SinkEvent.make w).Tallies options bytes records) ∧
      ∃ w', (events.foldl SinkEvent.make w).close = (.ok (), w') ∧ ∀ more : List SinkEvent,
        (∀ taken, R w'.output taken → R (more.foldl SinkEvent.make w').output taken) ∧
        (more.foldl SinkEvent.make w').stats = w'.stats ∧
        ∀ step : SinkStep, step ≠ .flush → step.act (more.foldl SinkEvent.make w') =
          (.error .sinkClosed, more.foldl SinkEvent.make w') := by
  obtain ⟨w, hw, hcounted, hp⟩ := exists_counted o ho hproblem
  refine ⟨w, hw, fun events he => ?_⟩
  have hroom : w.pending.size < literalChunk := by
    rw [hp]
    decide
  obtain ⟨hall, hp'⟩ := hcounted.foldl_make o hroom he
  obtain ⟨w', h', hclosed, hc, hsettled⟩ := hall.close o (Nat.le_of_lt hp')
  refine ⟨hall.exact, w', h', fun more => ?_⟩
  obtain ⟨bytes, records, hR, -⟩ := hclosed.exact
  obtain ⟨output', hmore, -⟩ := foldl_make_of_shut o hc hsettled hR more
  have hrefused : (more.foldl SinkEvent.make w').closed = true := by
    rw [hmore]
    exact hc
  refine ⟨fun taken ht => ?_, by rw [hmore], fun step hs => act_of_closed hrefused hs⟩
  obtain ⟨output', hmore, ho'⟩ := foldl_make_of_shut o hc hsettled ht more
  rw [hmore]
  exact ho'

/-- A writer with zero runs, in the mode with the narrowest offset fields. It is closed while it
holds back bytes, and flushed and closed once more. -/
theorem counters_exact_zero_runs :
    let options : WriterOptions := { differential := true, zeroRuns := some {} }
    let events : List SinkEvent := [.call (.byte 1), .call (.copy 100 40), .call (.byte 2),
      .call .flush, .call (.copy 90000 7), .call (.literal (packBytes [3, 4])), .close,
      .call .flush]
    ∃ w, create ByteArray.empty options = .ok w ∧
      (∃ bytes records,
        (events.foldl SinkEvent.make w).output.data.toList = options.opening ++ bytes ∧
        (events.foldl SinkEvent.make w).Tallies options bytes records) ∧
      ∃ w', (events.foldl SinkEvent.make w).close = (.ok (), w') ∧
        SinkStep.act w' (.copy 0 1) = (.error .sinkClosed, w') := by
  intro options events
  obtain ⟨w, hw, hall⟩ := counters_exact ByteOutput.reliable_byteArray
    (rfl : ByteArray.empty.data.toList = []) options (by decide +kernel)
  have hsized : ∀ e ∈ events, e.Sized := by
    simp [events, SinkEvent.Sized, SinkStep.Sized]
  obtain ⟨htallies, w', hclose, hmore⟩ := hall events hsized
  obtain ⟨-, -, hrefused⟩ := hmore []
  exact ⟨w, hw, htallies, w', hclose, hrefused (.copy 0 1) SinkStep.noConfusion⟩

end PatchWriter

end BinaryDelta
