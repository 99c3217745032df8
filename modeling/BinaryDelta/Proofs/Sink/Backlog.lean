import BinaryDelta.Proofs.Sink.Fallible
import Mathlib.Logic.Relation

/-!
# How much a patch writer holds back

A patch writer holds back literal bytes until a chunk of them has gathered. As long as the output
takes what it is given, there is never more than that. But a chunk that cannot be written stays held
back, and what the next call does with it depends on the call: slices are added only as far as there
is room, and bytes without asking. So a byte that is added to a full chunk makes one that is too
long, and once the output takes it, a record that is too long.

* `Logged` is an output with a log of all that it is handed, refused or not.
* `WritesPending` lists what an attempt to write the bytes held back comes to.
* `Bounded` says that neither what is held back nor what the output was handed exceeds a chunk.
* `Round` is one round of adding a slice, where the room that is left is computed.
* `WriterEvent` is what happens to a writer: calls that may fail, and changes of the output.

Results:
* `size_pending_lt_of_act`: it takes a call that fails to fill a chunk.
* `addLiteralFrom_of_rounds`: adding a slice goes on from each of its rounds.
* `Bounded.act`: every call keeps a writer bounded, but for a byte that is added to a full chunk.
* `not_bounded_addByte`: that one never does.
* `bounded_iff_never_overfull`: so a writer stays bounded if and only if that does not happen.
-/

namespace BinaryDelta

/-! ## What an output is handed -/

/-- An output, and all that it was handed, the latest first, whether or not it took it. -/
structure Logged (ω : Type) where
  output : ω
  log : List ByteArray := []

variable {ω : Type} [ByteOutput ω]

instance : ByteOutput (Logged ω) where
  write o bytes := ((ByteOutput.write o.output bytes).1,
    ⟨(ByteOutput.write o.output bytes).2, bytes :: o.log⟩)
  flush o := ((ByteOutput.flush o.output).1, ⟨(ByteOutput.flush o.output).2, o.log⟩)

namespace Logged

/-- Of the parts to be written the output is handed some, and all of them if it takes them. -/
theorem exists_handed (o : Logged ω) (parts : List ByteArray) :
    ∃ handed, handed <+: parts ∧
      (ByteOutput.writeParts o parts).2.log = handed.reverse ++ o.log ∧
      ((ByteOutput.writeParts o parts).1 = .ok () → handed = parts) := by
  induction parts generalizing o with
  | nil => exact ⟨[], List.prefix_refl _, rfl, fun _ => rfl⟩
  | cons part parts ih =>
    have hlog : (ByteOutput.write o part).2.log = part :: o.log := rfl
    rcases hw : ByteOutput.write o part with ⟨fault | _, o'⟩
    · rw [hw] at hlog
      refine ⟨[part], ⟨parts, rfl⟩, ?_, fun h => ?_⟩
      · rw [ByteOutput.writeParts, hw]
        exact hlog
      · rw [ByteOutput.writeParts, hw] at h
        cases h
    · rw [hw] at hlog
      obtain ⟨handed, hprefix, hrest, hall⟩ := ih o'
      refine ⟨part :: handed, List.cons_prefix_cons.mpr ⟨rfl, hprefix⟩, ?_, fun h => ?_⟩
      · rw [ByteOutput.writeParts, hw]
        dsimp only at hlog ⊢
        rw [hrest, hlog, List.reverse_cons, List.append_assoc]
        rfl
      · rw [ByteOutput.writeParts, hw] at h
        rw [hall h]

end Logged

/-- No field is longer than eight bytes. -/
theorem Record.length_le_of_mem_fields (mode : Mode) (record : Record) :
    ∀ field ∈ record.fields mode, field.length ≤ 8 := by
  cases record with
  | eof => exact List.forall_mem_singleton.mpr (by decide)
  | literal length =>
    show ∀ field ∈ literalFields mode length, _
    unfold literalFields
    split
    · exact List.forall_mem_nil _
    · split
      · simp
      · split
        · simp
        · simp
  | copy value length =>
    have hoffset := (copyForm mode value length).1.bytes_le
    have hlength := (copyForm mode value length).2.bytes_le
    show ∀ field ∈ copyFields mode value length, _
    unfold copyFields
    simp only [List.forall_mem_cons, length_bigEndian]
    exact ⟨(by decide : 1 ≤ 8), hoffset, by omega, List.forall_mem_nil _⟩

namespace PatchWriter

/-! ## One attempt to write -/

/-- What writing the literal bytes held back comes to: if there are any, one record is handed to the
output, with a payload as long as they are; where that fails the payload stays held back. -/
inductive WritesPending (w : PatchWriter ω) : Except DeltaError Unit × PatchWriter ω → Prop
  | nothing (h : w.pending.size = 0) : WritesPending w (.ok (), w)
  | failed {payload : ByteArray} {fault : Fault} {output : ω} (h : w.pending.size ≠ 0)
      (hsize : payload.size = w.pending.size)
      (hw : ByteOutput.writeParts w.output
        (partsOf w.base.mode (.literal payload.size) ++ [payload]) = (.error fault, output)) :
      WritesPending w (.error (.io fault), { w with output, pending := payload })
  | written {payload : ByteArray} {output : ω} {stats : WriterStats} (h : w.pending.size ≠ 0)
      (hsize : payload.size = w.pending.size)
      (hw : ByteOutput.writeParts w.output
        (partsOf w.base.mode (.literal payload.size) ++ [payload]) = (.ok (), output)) :
      WritesPending w (.ok (), { w with output, pending := ByteArray.empty, stats })

theorem writesPending (w : PatchWriter ω) : WritesPending w w.writePending := by
  rcases w with ⟨output, options, base, pending, stats, closed⟩
  rw [writePending]
  split
  · exact .nothing ‹_›
  · rename_i h
    have hsize := size_payload options stats pending
    dsimp only
    split
    · rename_i hw
      exact .failed h hsize hw
    · rename_i hw
      exact .written h hsize hw

/-- The writer with more literal bytes held back. -/
def holding (w : PatchWriter ω) (bytes : ByteArray) : PatchWriter ω :=
  { w with
    pending := w.pending ++ bytes
    stats := w.stats.addLiteral w.options.window bytes.size }

omit [ByteOutput ω] in
@[simp] theorem size_holding (w : PatchWriter ω) (bytes : ByteArray) :
    (w.holding bytes).pending.size = w.pending.size + bytes.size := ByteArray.size_append

theorem hold_eq (w : PatchWriter ω) (bytes : ByteArray) :
    w.hold bytes = if literalChunk ≤ w.pending.size + bytes.size then
      (w.holding bytes).writePending else (.ok (), w.holding bytes) := by
  rw [← size_holding]
  rfl

/-! ## Calls that succeed -/

theorem pending_writeCopy (w : PatchWriter ω) (offset length : Nat) :
    (w.writeCopy offset length).2.pending = w.pending := by
  rcases w with ⟨output, options, base, pending, stats, closed⟩
  rw [writeCopy]
  dsimp only
  split
  · rfl
  · rfl

theorem pending_flushOutput (w : PatchWriter ω) : w.flushOutput.2.pending = w.pending := by
  rcases w with ⟨output, options, base, pending, stats, closed⟩
  rw [flushOutput]
  split
  · rfl
  · rfl

/-- Holding back bytes with success leaves less than a chunk, whatever was there before. -/
theorem size_pending_lt_of_hold {w w' : PatchWriter ω} {bytes : ByteArray}
    (h : w.hold bytes = (.ok (), w')) : w'.pending.size < literalChunk := by
  rw [hold_eq] at h
  split at h
  · rw [size_pending_of_writePending h]
    decide
  · cases h
    rw [size_holding]
    omega

theorem size_pending_lt_of_addLiteralFrom {w w' : PatchWriter ω} {bytes : ByteArray} {start : Nat}
    (hw : w.pending.size < literalChunk) (h : w.addLiteralFrom bytes start = (.ok (), w')) :
    w'.pending.size < literalChunk := by
  fun_induction PatchWriter.addLiteralFrom w bytes start with
  | case1 w start hs count e w₁ hh => cases h
  | case2 w start hs count w₁ hh ih => exact ih (size_pending_lt_of_hold hh) h
  | case3 w start hs =>
    cases h
    exact hw

/-- A call that succeeds leaves less than a chunk, so it takes a failure to fill one. -/
theorem size_pending_lt_of_act {w w' : PatchWriter ω} (hw : w.pending.size < literalChunk)
    {step : SinkStep} (h : step.act w = (.ok (), w')) : w'.pending.size < literalChunk := by
  have hpos : 0 < literalChunk := by decide
  cases step with
  | copy offset length =>
    replace h : w.addCopy offset length = (.ok (), w') := h
    rw [addCopy_eq] at h
    split at h
    · cases h
    · rcases hp : w.writePending with ⟨_ | _, w₁⟩
      · rw [hp] at h
        cases h
      · have hzero := size_pending_of_writePending hp
        rw [hp, andThen_ok] at h
        split at h
        · cases h
          omega
        · have hkept := w₁.pending_writeCopy offset length
          rw [h] at hkept
          rw [hkept]
          omega
  | byte value =>
    replace h : w.addByte value = (.ok (), w') := h
    rw [addByte] at h
    split at h
    · cases h
    · exact size_pending_lt_of_hold h
  | literal bytes =>
    replace h : w.addLiteral bytes = (.ok (), w') := h
    rw [addLiteral] at h
    split at h
    · cases h
    · exact size_pending_lt_of_addLiteralFrom hw h
  | flush =>
    replace h : w.flush = (.ok (), w') := h
    rw [flush_eq] at h
    rcases hp : w.writePending with ⟨_ | _, w₁⟩
    · rw [hp] at h
      cases h
    · have hzero := size_pending_of_writePending hp
      have hkept := w₁.pending_flushOutput
      rw [hp, andThen_ok] at h
      rw [h] at hkept
      rw [hkept]
      omega

/-! ## Bounded writers -/

/-- Neither what is held back nor anything that the output was handed is longer than a chunk. -/
structure Bounded (w : PatchWriter (Logged ω)) : Prop where
  pending : w.pending.size ≤ literalChunk
  handed : ∀ bytes ∈ w.output.log, bytes.size ≤ literalChunk

/-- Writing short parts hands over nothing else. -/
theorem handed_writeParts {o : Logged ω} (h : ∀ bytes ∈ o.log, bytes.size ≤ literalChunk)
    {parts : List ByteArray} (hp : ∀ part ∈ parts, part.size ≤ literalChunk) :
    ∀ bytes ∈ (ByteOutput.writeParts o parts).2.log, bytes.size ≤ literalChunk := by
  obtain ⟨handed, hprefix, hlog, -⟩ := o.exists_handed parts
  rw [hlog]
  intro bytes hm
  rcases List.mem_append.mp hm with hm | hm
  · exact hp bytes (List.IsPrefix.subset hprefix (List.mem_reverse.mp hm))
  · exact h bytes hm

/-- The fields of a record are short. -/
theorem size_le_of_mem_partsOf (mode : Mode) (record : Record) :
    ∀ part ∈ partsOf mode record, part.size ≤ literalChunk := by
  intro part hm
  obtain ⟨field, hfield, rfl⟩ := List.mem_map.mp hm
  have hle := record.length_le_of_mem_fields mode field hfield
  have hchunk : 8 ≤ literalChunk := by decide
  rw [size_packBytes]
  omega

variable {w w' : PatchWriter (Logged ω)}

theorem Bounded.writePending (h : w.Bounded) : w.writePending.2.Bounded := by
  have hparts : ∀ payload : ByteArray, payload.size = w.pending.size →
      ∀ part ∈ partsOf w.base.mode (.literal payload.size) ++ [payload],
        part.size ≤ literalChunk := by
    intro payload hsize part hm
    rcases List.mem_append.mp hm with hm | hm
    · exact size_le_of_mem_partsOf _ _ part hm
    · rw [List.mem_singleton.mp hm, hsize]
      exact h.pending
  have houtcome := w.writesPending
  generalize w.writePending = outcome at houtcome
  cases houtcome with
  | nothing h₀ => exact h
  | failed h₀ hsize hw =>
    have hhanded := handed_writeParts h.handed (hparts _ hsize)
    rw [hw] at hhanded
    exact ⟨hsize ▸ h.pending, hhanded⟩
  | written h₀ hsize hw =>
    have hhanded := handed_writeParts h.handed (hparts _ hsize)
    rw [hw] at hhanded
    exact ⟨Nat.zero_le _, hhanded⟩

/-- What was handed to an output that took it is in its log. -/
theorem mem_log_of_writeParts {o o' : Logged ω} {parts : List ByteArray}
    (h : ByteOutput.writeParts o parts = (.ok (), o')) : ∀ part ∈ parts, part ∈ o'.log := by
  intro part hm
  obtain ⟨handed, -, hlog, hall⟩ := o.exists_handed parts
  rw [h] at hlog hall
  rw [hlog, hall rfl]
  exact List.mem_append_left _ (List.mem_reverse.mpr hm)

/-- More than a chunk cannot be got rid of. -/
theorem not_bounded_writePending (h : literalChunk < w.pending.size) :
    ¬ w.writePending.2.Bounded := by
  intro hb
  have houtcome := w.writesPending
  generalize w.writePending = outcome at houtcome hb
  cases houtcome with
  | nothing h₀ => omega
  | failed h₀ hsize hw =>
    have hle := hb.pending
    dsimp only at hle
    omega
  | written h₀ hsize hw =>
    have hle := hb.handed _ (mem_log_of_writeParts hw _ (List.mem_append_right _
      (List.mem_singleton.mpr rfl)))
    omega

theorem Bounded.hold (h : w.Bounded) {bytes : ByteArray}
    (hroom : w.pending.size + bytes.size ≤ literalChunk) : (w.hold bytes).2.Bounded := by
  have hholding : (w.holding bytes).Bounded := ⟨by rwa [size_holding], h.handed⟩
  rw [hold_eq]
  split
  · exact hholding.writePending
  · exact hholding

/-! ## Rounds of a call -/

/-- As much of the bytes from `start` on as there is room for. -/
def room (w : PatchWriter ω) (bytes : ByteArray) (start : Nat) : Nat :=
  min (bytes.size - start) (literalChunk - w.pending.size)

/-- One round of adding literal bytes: some of them are held back, and the call goes on behind
them. -/
inductive Round (bytes : ByteArray) : PatchWriter ω × Nat → PatchWriter ω × Nat → Prop
  | intro {w w' : PatchWriter ω} {start : Nat} (hs : start < bytes.size)
      (h : w.hold (bytes.extract start (start + w.room bytes start)) = (.ok (), w')) :
      Round bytes (w, start) (w', start + w.room bytes start)

/-- What a call comes to after some rounds is what it comes to. -/
theorem addLiteralFrom_of_rounds {bytes : ByteArray} {p q : PatchWriter ω × Nat}
    (h : Relation.ReflTransGen (Round bytes) p q) :
    p.1.addLiteralFrom bytes p.2 = q.1.addLiteralFrom bytes q.2 := by
  induction h with
  | refl => rfl
  | tail _ hr ih =>
    obtain ⟨hs, hh⟩ := hr
    exact ih.trans (addLiteralFrom_of_hold hs hh)

/-- There is room for the bytes of a round. -/
theorem Bounded.hold_room (h : w.Bounded) (bytes : ByteArray) (start : Nat) :
    (w.hold (bytes.extract start (start + w.room bytes start))).2.Bounded := by
  refine h.hold ?_
  have hle := h.pending
  rw [ByteArray.size_extract, room]
  omega

theorem Bounded.rounds {bytes : ByteArray} {p q : PatchWriter (Logged ω) × Nat}
    (h : p.1.Bounded) (hr : Relation.ReflTransGen (Round bytes) p q) : q.1.Bounded := by
  induction hr with
  | refl => exact h
  | tail _ hr ih =>
    cases hr with
    | @intro w w' start hs hh =>
      have hb := ih.hold_room bytes start
      rw [hh] at hb
      exact hb

theorem Bounded.addLiteralFrom (h : w.Bounded) (bytes : ByteArray) (start : Nat) :
    (w.addLiteralFrom bytes start).2.Bounded := by
  fun_induction PatchWriter.addLiteralFrom w bytes start with
  | case1 w start hs count e w' hh =>
    have hb := h.hold_room bytes start
    rw [room, hh] at hb
    exact hb
  | case2 w start hs count w' hh ih =>
    have hb := h.hold_room bytes start
    rw [room, hh] at hb
    exact ih hb
  | case3 w start hs => exact h

/-! ## Calls -/

omit [ByteOutput ω] in
/-- What every step keeps, both of them together keep. -/
theorem Bounded.andThen {x : Except DeltaError Unit × PatchWriter (Logged ω)} (h : x.2.Bounded)
    {next : PatchWriter (Logged ω) → Except DeltaError Unit × PatchWriter (Logged ω)}
    (hnext : ∀ {w}, w.Bounded → (next w).2.Bounded) : (BinaryDelta.andThen x next).2.Bounded := by
  rcases x with ⟨_ | _, w⟩
  · exact h
  · exact hnext h

theorem Bounded.writeCopy (h : w.Bounded) (offset length : Nat) :
    (w.writeCopy offset length).2.Bounded := by
  rcases w with ⟨output, options, base, pending, stats, closed⟩
  have hhanded := handed_writeParts h.handed (size_le_of_mem_partsOf (base.encode offset).2.mode
    (.copy (base.encode offset).1 length))
  rw [PatchWriter.writeCopy]
  dsimp only at hhanded ⊢
  split
  · rename_i hw
    rw [hw] at hhanded
    exact ⟨h.pending, hhanded⟩
  · rename_i hw
    rw [hw] at hhanded
    exact ⟨h.pending, hhanded⟩

theorem Bounded.writeEof (h : w.Bounded) : w.writeEof.2.Bounded := by
  rcases w with ⟨output, options, base, pending, stats, closed⟩
  have hhanded := handed_writeParts h.handed (size_le_of_mem_partsOf base.mode .eof)
  rw [PatchWriter.writeEof]
  split
  · exact h
  · dsimp only at hhanded ⊢
    split
    · rename_i hw
      rw [hw] at hhanded
      exact ⟨h.pending, hhanded⟩
    · rename_i hw
      rw [hw] at hhanded
      exact ⟨h.pending, hhanded⟩

/-- Flushing the output hands nothing over. -/
theorem log_flushOutput (w : PatchWriter (Logged ω)) :
    w.flushOutput.2.output.log = w.output.log := by
  rcases w with ⟨output, options, base, pending, stats, closed⟩
  have hlog : (ByteOutput.flush output).2.log = output.log := rfl
  rw [PatchWriter.flushOutput]
  rcases hf : ByteOutput.flush output with ⟨_ | _, output'⟩
  · rw [hf] at hlog
    exact hlog
  · rw [hf] at hlog
    exact hlog

theorem Bounded.flushOutput (h : w.Bounded) : w.flushOutput.2.Bounded :=
  ⟨w.pending_flushOutput ▸ h.pending, w.log_flushOutput ▸ h.handed⟩

/-- A call keeps a writer bounded, unless it adds a byte to a full chunk. -/
theorem Bounded.act (h : w.Bounded) {step : SinkStep}
    (hfull : ∀ byte, step = .byte byte → w.closed = false → w.pending.size ≠ literalChunk) :
    (step.act w).2.Bounded := by
  cases step with
  | copy offset length =>
    show (w.addCopy offset length).2.Bounded
    rw [addCopy_eq]
    split
    · exact h
    · refine h.writePending.andThen fun h => ?_
      split
      · exact h
      · exact h.writeCopy offset length
  | byte value =>
    show (w.addByte value).2.Bounded
    rw [addByte]
    split
    · exact h
    · rename_i hopen
      have hne := hfull value rfl (Bool.eq_false_iff.mpr hopen)
      have hle := h.pending
      have hsize : (ByteArray.empty.push value).size = 1 := rfl
      exact h.hold (by omega)
  | literal bytes =>
    show (w.addLiteral bytes).2.Bounded
    rw [addLiteral]
    split
    · exact h
    · exact h.addLiteralFrom bytes 0
  | flush =>
    show w.flush.2.Bounded
    rw [flush_eq]
    exact h.writePending.andThen fun h => h.flushOutput

theorem Bounded.close (h : w.Bounded) : w.close.2.Bounded := by
  rw [close_eq]
  split
  · exact h
  · refine h.writePending.andThen fun h => h.writeEof.andThen fun h => h.flushOutput.andThen
      fun h => ⟨h.pending, h.handed⟩

/-- A byte added to a full chunk is one too many. -/
theorem not_bounded_addByte (hopen : w.closed = false) (hfull : w.pending.size = literalChunk)
    (byte : UInt8) : ¬ (w.addByte byte).2.Bounded := by
  have hsize : (ByteArray.empty.push byte).size = 1 := rfl
  rw [addByte, if_neg (by simp [hopen]), hold_eq, if_pos (by omega)]
  refine not_bounded_writePending ?_
  rw [size_holding]
  omega

end PatchWriter

/-! ## A full output -/

/-- There is no room left. -/
def BoundedOutput.Full (o : BoundedOutput) : Prop := ∃ limit ∈ o.limit, limit ≤ o.taken.size

/-- A full output takes nothing more, and stays full. -/
theorem BoundedOutput.Full.write {o : BoundedOutput} (h : o.Full) {bytes : ByteArray}
    (hb : bytes.size ≠ 0) :
    ∃ fault o', ByteOutput.write o bytes = (.error fault, o') ∧ o'.Full := by
  obtain ⟨taken, limit, failsToFlush⟩ := o
  obtain ⟨limit, rfl, hle⟩ := h
  dsimp only at hle
  refine ⟨.device "output full",
    ⟨taken ++ bytes.extract 0 (limit - taken.size), some limit, failsToFlush⟩,
    if_neg (by omega), limit, rfl, ?_⟩
  dsimp only
  rw [ByteArray.size_append]
  omega

namespace PatchWriter

variable {w : PatchWriter (Logged BoundedOutput)}

/-- The record of a literal begins with its opcode. -/
theorem exists_partsOf_literal (mode : Mode) {length : Nat} (h : length ≠ 0) :
    ∃ opcode parts, partsOf mode (.literal length) = packBytes [opcode] :: parts := by
  show ∃ opcode parts,
    (Record.literalFields mode length).map packBytes = packBytes [opcode] :: parts
  unfold Record.literalFields
  split
  · rename_i hnone
    rw [literalOpcode?, if_neg h] at hnone
    split at hnone
    · cases hnone
    · split at hnone <;> cases hnone
  · rename_i opcode hsome
    refine ⟨opcode, ?_⟩
    split
    · exact ⟨_, rfl⟩
    · split
      · exact ⟨_, rfl⟩
      · exact ⟨_, rfl⟩

/-- Nothing that is held back gets into a full output. -/
theorem exists_writePending_of_full (h : w.output.output.Full) (hp : w.pending.size ≠ 0) :
    ∃ e w', w.writePending = (.error e, w') ∧ w'.pending.size = w.pending.size ∧
      w'.closed = w.closed ∧ w'.output.output.Full := by
  have hfails : ∀ payload : ByteArray, payload.size = w.pending.size →
      ∃ fault o', ByteOutput.writeParts w.output
        (partsOf w.base.mode (.literal payload.size) ++ [payload]) = (.error fault, o') ∧
        o'.output.Full := by
    intro payload hsize
    obtain ⟨opcode, parts, hparts⟩ := exists_partsOf_literal w.base.mode (hsize ▸ hp)
    have hone : (packBytes [opcode]).size ≠ 0 := by
      rw [size_packBytes]
      exact Nat.one_ne_zero
    obtain ⟨fault, o', hw, hfull⟩ := h.write hone
    refine ⟨fault, ⟨o', packBytes [opcode] :: w.output.log⟩, ?_, hfull⟩
    have hlogged : ByteOutput.write w.output (packBytes [opcode]) =
        (.error fault, ⟨o', packBytes [opcode] :: w.output.log⟩) := by
      show ((ByteOutput.write w.output.output _).1, _) = _
      rw [hw]
    rw [hparts, List.cons_append, ByteOutput.writeParts, hlogged]
  have houtcome := w.writesPending
  generalize w.writePending = outcome at houtcome
  cases houtcome with
  | nothing h₀ => exact absurd h₀ hp
  | @failed payload fault output h₀ hsize hw =>
    obtain ⟨fault', o', hw', hfull⟩ := hfails payload hsize
    cases hw.symm.trans hw'
    exact ⟨_, _, rfl, hsize, rfl, hfull⟩
  | @written payload output stats h₀ hsize hw =>
    obtain ⟨fault', o', hw', hfull⟩ := hfails payload hsize
    cases hw.symm.trans hw'

/-- A full chunk stays held back, whatever it is made of. -/
theorem exists_hold_of_full (h : w.output.output.Full) {bytes : ByteArray}
    (hc : literalChunk ≤ w.pending.size + bytes.size) :
    ∃ e w', w.hold bytes = (.error e, w') ∧ w'.pending.size = w.pending.size + bytes.size ∧
      w'.closed = w.closed ∧ w'.output.output.Full := by
  have hpos : 0 < literalChunk := by decide
  obtain ⟨e, w', hw, hsize, hrest⟩ := exists_writePending_of_full (w := w.holding bytes) h
    (by rw [size_holding]; omega)
  rw [size_holding] at hsize
  exact ⟨e, w', by rw [hold_eq, if_pos hc, hw], hsize, hrest⟩

/-- An output without a limit takes all parts. -/
theorem exists_writeParts_of_unlimited {o : Logged BoundedOutput} (h : o.output.limit = none)
    (parts : List ByteArray) : ∃ o', ByteOutput.writeParts o parts = (.ok (), o') := by
  induction parts generalizing o with
  | nil => exact ⟨o, rfl⟩
  | cons part parts ih =>
    obtain ⟨⟨taken, limit, failsToFlush⟩, log⟩ := o
    cases h
    exact ih rfl

/-- So what is held back is handed to it. -/
theorem exists_handed_flush (h : w.output.output.limit = none) (hp : w.pending.size ≠ 0) :
    ∃ bytes ∈ w.flush.2.output.log, bytes.size = w.pending.size := by
  rw [flush_eq]
  have houtcome := w.writesPending
  generalize w.writePending = outcome at houtcome
  cases houtcome with
  | nothing h₀ => exact absurd h₀ hp
  | failed h₀ hsize hw =>
    obtain ⟨o', hok⟩ := exists_writeParts_of_unlimited h _
    cases hw.symm.trans hok
  | @written payload output stats h₀ hsize hw =>
    rw [andThen_ok, log_flushOutput]
    exact ⟨payload, mem_log_of_writeParts hw _ (List.mem_append_right _
      (List.mem_singleton.mpr rfl)), hsize⟩

/-- A chunk that is added in one go stays held back, too. -/
theorem exists_addLiteral_of_full (h : w.output.output.Full) (hopen : w.closed = false)
    (hp : w.pending.size = 0) {bytes : ByteArray} (hb : bytes.size = literalChunk) :
    ∃ e w', w.addLiteral bytes = (.error e, w') ∧ w'.pending.size = literalChunk ∧
      w'.closed = false ∧ w'.output.output.Full := by
  have hpos : 0 < literalChunk := by decide
  have hroom : w.room bytes 0 = literalChunk := by
    rw [room, hb, hp]
    omega
  have hsize : (bytes.extract 0 (0 + w.room bytes 0)).size = literalChunk := by
    rw [hroom, ByteArray.size_extract, hb]
    omega
  obtain ⟨e, w', hw, hsize', hopen', hfull⟩ := exists_hold_of_full h
    (by rw [hsize]; exact Nat.le_add_left _ _ : literalChunk ≤ w.pending.size +
      (bytes.extract 0 (0 + w.room bytes 0)).size)
  rw [hp, hsize, Nat.zero_add] at hsize'
  refine ⟨e, w', ?_, hsize', hopen'.trans hopen, hfull⟩
  rw [addLiteral, if_neg (by simp [hopen]), addLiteralFrom, if_pos (by omega)]
  dsimp only
  split
  · rename_i hh
    exact hh.symm.trans hw
  · rename_i hh
    cases hh.symm.trans hw

end PatchWriter

/-! ## Histories -/

/-- Something that happens to a writer: it is called, closed, or its output changes, say because
there is room again. -/
inductive WriterEvent (ω : Type) where
  | call (step : SinkStep)
  | close
  | output (change : ω → ω)

namespace PatchWriter

/-- The writer after the event, which may fail. -/
def after (w : PatchWriter (Logged ω)) : WriterEvent ω → PatchWriter (Logged ω)
  | .call step => (step.act w).2
  | .close => w.close.2
  | .output change => { w with output := { w.output with output := change w.output.output } }

/-- The writer after all these events. -/
def afterAll (w : PatchWriter (Logged ω)) (events : List (WriterEvent ω)) :
    PatchWriter (Logged ω) := events.foldl after w

variable {output : ω} {options : WriterOptions} {w : PatchWriter (Logged ω)}

theorem bounded_of_create (hw : create ⟨output, []⟩ options = .ok w) : w.Bounded := by
  have hpreamble : ∀ bytes ∈ [packBytes (preamble options.mode)], bytes.size ≤ literalChunk := by
    rw [List.forall_mem_singleton, size_packBytes]
    exact (by decide : preambleLength ≤ literalChunk)
  rw [create] at hw
  split at hw
  · cases hw
  · split at hw
    · cases hw
      exact ⟨Nat.zero_le _, List.forall_mem_nil _⟩
    · dsimp only at hw
      split at hw
      · cases hw
      · rename_i hout
        cases hw
        obtain ⟨-, rfl⟩ := Prod.mk.inj hout
        exact ⟨Nat.zero_le _, hpreamble⟩

theorem afterAll_take_succ {events : List (WriterEvent ω)} {n : Nat} {e : WriterEvent ω}
    (he : events[n]? = some e) :
    w.afterAll (events.take (n + 1)) = (w.afterAll (events.take n)).after e := by
  rw [afterAll, List.take_add_one, he, List.foldl_append]
  rfl

/-- An event keeps a writer bounded, unless it adds a byte to a full chunk. -/
theorem Bounded.after (h : w.Bounded) {e : WriterEvent ω}
    (hfull : ∀ byte, e = .call (.byte byte) → w.closed = false →
      w.pending.size ≠ literalChunk) : (w.after e).Bounded := by
  cases e with
  | call step => exact h.act fun byte hb => hfull byte (congrArg _ hb)
  | close => exact h.close
  | output change => exact ⟨h.pending, h.handed⟩

/-- **What is held back stays within a chunk if and only if no byte is added to a full one.** The
first bound is on what is held back after any number of events, the second on every piece handed to
the output until then, payloads included, and the third on what is held back wherever a slice that
is added next has its room computed. -/
theorem bounded_iff_never_overfull (hw : create ⟨output, []⟩ options = .ok w)
    (events : List (WriterEvent ω)) :
    (∀ n, (w.afterAll (events.take n)).pending.size ≤ literalChunk ∧
      (∀ bytes ∈ (w.afterAll (events.take n)).output.log, bytes.size ≤ literalChunk) ∧
      ∀ bytes w' start, Relation.ReflTransGen (Round bytes) (w.afterAll (events.take n), 0)
        (w', start) → w'.pending.size ≤ literalChunk) ↔
    ∀ n byte, events[n]? = some (.call (.byte byte)) →
      (w.afterAll (events.take n)).closed = false →
      (w.afterAll (events.take n)).pending.size ≠ literalChunk := by
  constructor
  · intro h n byte he hopen hfull
    obtain ⟨hpending, hhanded, -⟩ := h (n + 1)
    rw [afterAll_take_succ he] at hpending hhanded
    exact not_bounded_addByte hopen hfull byte ⟨hpending, hhanded⟩
  · intro h
    have hall : ∀ n, (w.afterAll (events.take n)).Bounded := by
      intro n
      induction n with
      | zero => exact bounded_of_create hw
      | succ n ih =>
        cases he : events[n]? with
        | none =>
          rw [List.take_add_one, he, Option.toList_none, List.append_nil]
          exact ih
        | some e =>
          rw [afterAll_take_succ he]
          exact ih.after fun byte hb => h n byte (hb ▸ he)
    exact fun n => ⟨(hall n).pending, (hall n).handed, fun bytes w' start hr =>
      ((hall n).rounds hr).pending⟩

/-- The output refuses all but the preamble for a while. The one byte is added to an empty backlog,
so everything stays within a chunk, although the literal behind it fills one. -/
theorem bounded_iff_never_overfull_refused :
    let events : List (WriterEvent BoundedOutput) := [.call (.byte 7), .call .flush,
      .call (.literal (zeroBytes 40000)), .output fun o => { o with limit := none }, .close]
    ∃ w, create (⟨{ limit := some 5 }, []⟩ : Logged BoundedOutput) {} = .ok w ∧
      ∀ n, (w.afterAll (events.take n)).pending.size ≤ literalChunk ∧
        (∀ bytes ∈ (w.afterAll (events.take n)).output.log, bytes.size ≤ literalChunk) ∧
        ∀ bytes w' start, Relation.ReflTransGen (Round bytes) (w.afterAll (events.take n), 0)
          (w', start) → w'.pending.size ≤ literalChunk := by
  intro events
  obtain ⟨w, hcreate, hempty⟩ : ∃ w,
      create (⟨{ limit := some 5 }, []⟩ : Logged BoundedOutput) {} = .ok w ∧
      w.pending.size = 0 := ⟨_, rfl, rfl⟩
  refine ⟨w, hcreate, (bounded_iff_never_overfull hcreate events).mpr fun n byte he _ => ?_⟩
  -- Only the first event adds a byte.
  rcases n with _ | _ | _ | _ | _ | n
  · show w.pending.size ≠ literalChunk
    rw [hempty]
    decide
  all_goals cases he

/-- There is room for the preamble only. A chunk is added in one go and is not written, so it stays
held back. The byte behind it makes more than a chunk, and is written as such once there is room. -/
theorem addByte_overfull :
    let events : List (WriterEvent BoundedOutput) := [.call (.literal (zeroBytes literalChunk)),
      .call (.byte 1), .output fun o => { o with limit := none }, .call .flush]
    ∃ w, create (⟨{ limit := some 5 }, []⟩ : Logged BoundedOutput) {} = .ok w ∧
      (w.afterAll (events.take 2)).pending.size = literalChunk + 1 ∧
      ∃ bytes ∈ (w.afterAll events).output.log, bytes.size = literalChunk + 1 := by
  intro events
  obtain ⟨w, hcreate, hempty, hopen, hfull⟩ : ∃ w,
      create (⟨{ limit := some 5 }, []⟩ : Logged BoundedOutput) {} = .ok w ∧
      w.pending.size = 0 ∧ w.closed = false ∧ w.output.output.Full :=
    ⟨_, rfl, rfl, rfl, 5, rfl, by decide⟩
  obtain ⟨e₁, w₁, hw₁, hsize₁, hopen₁, hfull₁⟩ :=
    exists_addLiteral_of_full hfull hopen hempty (size_zeroBytes literalChunk)
  obtain ⟨e₂, w₂, hw₂, hsize₂, -⟩ := exists_hold_of_full hfull₁
    (by omega : literalChunk ≤ w₁.pending.size + (ByteArray.empty.push 1).size)
  have hbyte : w₁.addByte 1 = (.error e₂, w₂) := by
    rw [addByte, if_neg (by simp [hopen₁]), hw₂]
  have hafter₁ : w.after (.call (.literal (zeroBytes literalChunk))) = w₁ := congrArg Prod.snd hw₁
  have hafter₂ : w₁.after (.call (.byte 1)) = w₂ := congrArg Prod.snd hbyte
  have hsize : w₂.pending.size = literalChunk + 1 := by
    rw [hsize₂, hsize₁]
    rfl
  have htwo : w.afterAll (events.take 2) = w₂ :=
    (congrArg (fun w => w.after (.call (.byte 1))) hafter₁).trans hafter₂
  refine ⟨w, hcreate, by rw [htwo, hsize], ?_⟩
  -- There is room again before the last of the events.
  have hlast : w.afterAll events =
      (w₂.after (.output fun o => { o with limit := none })).flush.2 := by
    rw [← htwo]
    rfl
  rw [hlast, ← hsize]
  exact exists_handed_flush rfl (hsize ▸ Nat.succ_ne_zero _)

end PatchWriter

end BinaryDelta
