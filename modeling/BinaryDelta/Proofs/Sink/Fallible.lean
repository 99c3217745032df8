import BinaryDelta.Proofs.Sink.Writing

/-!
# Writing to an output that may fail

Where an output fails, so does the call that writes to it, and what was taken of that call is not
known. As long as the calls succeed, though, a patch writer goes through the same states as one over
a byte string, which never fails, and its output has taken the bytes of that string. So what it has
written once it is closed is the patch that a reliable output would have.

* `Follows` says of two outcomes that where the first is a success, the second is the same one.
* `PatchWriter.Matches` relates writers that differ in nothing but their outputs.

Results:
* `Following.complete`: calls to a sink that follows another one succeed where those do.
* `PatchWriter.following_matches`: a writer over a byte string follows the one over the output.
* `PatchWriter.output_of_complete`: what is written by calls that succeed.
-/

namespace BinaryDelta

variable {α κ κ' : Type} {Q : κ → κ' → Prop}

/-- If the first outcome is a success, the second is one with the same answer, and what is left
behind is related. -/
inductive Follows (Q : κ → κ' → Prop) : Except DeltaError α × κ → Except DeltaError α × κ' → Prop
  | failed (e : DeltaError) (k : κ) (x' : Except DeltaError α × κ') : Follows Q (.error e, k) x'
  | succeeded (a : α) {k : κ} {k' : κ'} (h : Q k k') : Follows Q (.ok a, k) (.ok a, k')

namespace Follows

theorem exists_of_ok {a : α} {k : κ} {x' : Except DeltaError α × κ'}
    (h : Follows Q (.ok a, k) x') : ∃ k', x' = (.ok a, k') ∧ Q k k' := by
  cases h with
  | succeeded _ hq => exact ⟨_, rfl, hq⟩

theorem ite {p : Prop} [Decidable p] {x y : Except DeltaError α × κ}
    {x' y' : Except DeltaError α × κ'} (hx : Follows Q x x') (hy : Follows Q y y') :
    Follows Q (if p then x else y) (if p then x' else y') := by
  by_cases hp : p
  · rwa [if_pos hp, if_pos hp]
  · rwa [if_neg hp, if_neg hp]

theorem andThen {x : Except DeltaError Unit × κ} {x' : Except DeltaError Unit × κ'}
    (h : Follows Q x x') {next : κ → Except DeltaError α × κ} {next' : κ' → Except DeltaError α × κ'}
    (hnext : ∀ {k k'}, Q k k' → Follows Q (next k) (next' k')) :
    Follows Q (BinaryDelta.andThen x next) (BinaryDelta.andThen x' next') := by
  cases h with
  | failed e k x' => exact .failed e k _
  | succeeded a hq => exact hnext hq

end Follows

/-- A relation between sinks under which the second succeeds wherever the first does, kept by every
call. -/
structure Following [InstructionSink κ] [InstructionSink κ'] (Q : κ → κ' → Prop) : Prop where
  act : ∀ {k k'}, Q k k' → ∀ step : SinkStep, Follows Q (step.act k) (step.act k')
  close : ∀ {k k'}, Q k k' → Follows Q (InstructionSink.close k) (InstructionSink.close k')

namespace Following

variable [InstructionSink κ] [InstructionSink κ'] {k : κ} {k' : κ'}

theorem feed (f : Following Q) (h : Q k k') (steps : List SinkStep) :
    Follows Q (feed k steps) (feed k' steps) := by
  induction steps generalizing k k' with
  | nil => exact .succeeded () h
  | cons step steps ih => exact (f.act h step).andThen ih

theorem complete (f : Following Q) (h : Q k k') (steps : List SinkStep) :
    Follows Q (complete k steps) (complete k' steps) :=
  (f.feed h steps).andThen f.close

end Following

namespace PatchWriter

variable {ω : Type} [ByteOutput ω] {R : ω → List UInt8 → Prop} {front : List UInt8}

/-- The writers differ in nothing but their outputs, and the output of the first one has taken the
byte string of the second behind what it had taken before. -/
inductive Matches (R : ω → List UInt8 → Prop) (front : List UInt8) :
    PatchWriter ω → PatchWriter ByteArray → Prop
  | intro {out : ω} {taken : ByteArray} (options : WriterOptions) (base : OffsetBase)
      (pending : ByteArray) (stats : WriterStats) (closed : Bool)
      (h : R out (front ++ taken.data.toList)) :
      Matches R front ⟨out, options, base, pending, stats, closed⟩
        ⟨taken, options, base, pending, stats, closed⟩

variable {w : PatchWriter ω} {v : PatchWriter ByteArray}

/-- Parts fail to be written, or the byte string takes them as well. -/
theorem writeParts_cases (k : ByteOutput.Faithful R) {out : ω} {taken : ByteArray}
    (h : R out (front ++ taken.data.toList)) (parts : List ByteArray) :
    (∃ fault out', ByteOutput.writeParts out parts = (.error fault, out')) ∨
      ∃ out' taken', ByteOutput.writeParts out parts = (.ok (), out') ∧
        ByteOutput.writeParts taken parts = (.ok (), taken') ∧
        R out' (front ++ taken'.data.toList) := by
  cases hw : ByteOutput.writeParts out parts with
  | mk answer out' =>
    cases answer with
    | error fault => exact .inl ⟨fault, out', rfl⟩
    | ok _ =>
      obtain ⟨taken', hp, ht⟩ := ByteOutput.reliable_byteArray.writeParts rfl parts
      have hout := k.writeParts h hw
      rw [List.append_assoc, ← ht] at hout
      exact .inr ⟨out', taken', rfl, hp, hout⟩

theorem Matches.writePending (k : ByteOutput.Faithful R) (h : Matches R front w v) :
    Follows (Matches R front) w.writePending v.writePending := by
  obtain ⟨options, base, pending, stats, closed, hout⟩ := h
  refine .ite (.succeeded () ⟨options, base, pending, stats, closed, hout⟩) ?_
  simp only
  generalize (if zeroes options stats pending.size then zeroBytes pending.size else pending)
    = payload
  rcases writeParts_cases k hout (partsOf base.mode (.literal payload.size) ++ [payload]) with
    ⟨fault, out', hp⟩ | ⟨out', taken', hp, hp', hout'⟩
  · rw [hp]
    exact .failed _ _ _
  · rw [hp, hp']
    exact .succeeded () ⟨_, _, _, _, _, hout'⟩

theorem Matches.writeCopy (k : ByteOutput.Faithful R) (h : Matches R front w v)
    (offset length : Nat) :
    Follows (Matches R front) (w.writeCopy offset length) (v.writeCopy offset length) := by
  obtain ⟨options, base, pending, stats, closed, hout⟩ := h
  rw [PatchWriter.writeCopy, PatchWriter.writeCopy]
  simp only
  rcases writeParts_cases k hout (partsOf (base.encode offset).2.mode
    (.copy (base.encode offset).1 length)) with ⟨fault, out', hp⟩ | ⟨out', taken', hp, hp', hout'⟩
  · rw [hp]
    exact .failed _ _ _
  · rw [hp, hp']
    exact .succeeded () ⟨_, _, _, _, _, hout'⟩

theorem Matches.writeEof (k : ByteOutput.Faithful R) (h : Matches R front w v) :
    Follows (Matches R front) w.writeEof v.writeEof := by
  obtain ⟨options, base, pending, stats, closed, hout⟩ := h
  rw [PatchWriter.writeEof, PatchWriter.writeEof]
  refine .ite (.succeeded () ⟨options, base, pending, stats, closed, hout⟩) ?_
  rcases writeParts_cases k hout (partsOf base.mode .eof) with
    ⟨fault, out', hp⟩ | ⟨out', taken', hp, hp', hout'⟩
  · rw [hp]
    exact .failed _ _ _
  · rw [hp, hp']
    exact .succeeded () ⟨_, _, _, _, _, hout'⟩

theorem Matches.flushOutput (k : ByteOutput.Faithful R) (h : Matches R front w v) :
    Follows (Matches R front) w.flushOutput v.flushOutput := by
  obtain @⟨out, taken, options, base, pending, stats, closed, hout⟩ := h
  rw [PatchWriter.flushOutput, PatchWriter.flushOutput, ByteOutput.flush_byteArray]
  cases hf : ByteOutput.flush out with
  | mk answer out' =>
    cases answer with
    | error fault => exact .failed _ _ _
    | ok _ => exact .succeeded () ⟨options, base, pending, stats, closed, k.flush hout hf⟩

omit [ByteOutput ω] in
theorem Matches.closed_eq (h : Matches R front w v) : w.closed = v.closed := by
  cases h
  rfl

omit [ByteOutput ω] in
theorem Matches.size_pending_eq (h : Matches R front w v) : w.pending.size = v.pending.size := by
  cases h
  rfl

/-! ## Calls -/

theorem addCopy_eq (w : PatchWriter ω) (offset length : Nat) : w.addCopy offset length =
    if w.closed then (.error .sinkClosed, w)
    else andThen w.writePending fun w =>
      if length = 0 then (.ok (), w) else w.writeCopy offset length := by
  rw [addCopy]
  rcases w.writePending with ⟨_ | _, w'⟩ <;> rfl

theorem flush_eq (w : PatchWriter ω) : w.flush = andThen w.writePending PatchWriter.flushOutput := by
  rw [flush]
  rcases w.writePending with ⟨_ | _, w'⟩ <;> rfl

theorem close_eq (w : PatchWriter ω) : w.close =
    if w.closed then (.ok (), w)
    else andThen w.writePending fun w => andThen w.writeEof fun w => andThen w.flushOutput fun w =>
      (.ok (), { w with closed := true }) := by
  rw [close]
  rcases w.writePending with ⟨_ | _, w₁⟩
  · rfl
  · rcases h₂ : w₁.writeEof with ⟨_ | _, w₂⟩
    · simp only [h₂, andThen_ok, andThen_error]
    · rcases h₃ : w₂.flushOutput with ⟨_ | _, w₃⟩
      · simp only [h₂, h₃, andThen_ok, andThen_error]
      · simp only [h₂, h₃, andThen_ok]

theorem addLiteralFrom_of_hold {w w' : PatchWriter ω} {bytes : ByteArray} {start : Nat}
    (hs : start < bytes.size) (h : w.hold (bytes.extract start
      (start + min (bytes.size - start) (literalChunk - w.pending.size))) = (.ok (), w')) :
    w.addLiteralFrom bytes start =
      w'.addLiteralFrom bytes
        (start + min (bytes.size - start) (literalChunk - w.pending.size)) := by
  rw [addLiteralFrom, if_pos hs]
  dsimp only
  split
  · rename_i hh
    rw [h] at hh
    cases hh
  · rename_i hh
    rw [h] at hh
    cases hh
    rfl

theorem Matches.addCopy (k : ByteOutput.Faithful R) (h : Matches R front w v)
    (offset length : Nat) :
    Follows (Matches R front) (w.addCopy offset length) (v.addCopy offset length) := by
  rw [addCopy_eq, addCopy_eq, h.closed_eq]
  refine .ite (.failed _ _ _) ((h.writePending k).andThen fun {w v} h => ?_)
  exact .ite (.succeeded () h) (h.writeCopy k offset length)

theorem Matches.hold (k : ByteOutput.Faithful R) (h : Matches R front w v) (bytes : ByteArray) :
    Follows (Matches R front) (w.hold bytes) (v.hold bytes) := by
  obtain ⟨options, base, pending, stats, closed, hout⟩ := h
  have hmatches : Matches R front _ _ := ⟨options, base, pending ++ bytes,
    stats.addLiteral options.window bytes.size, closed, hout⟩
  exact .ite (hmatches.writePending k) (.succeeded () hmatches)

theorem Matches.addLiteralFrom (k : ByteOutput.Faithful R) (h : Matches R front w v)
    (bytes : ByteArray) (start : Nat) :
    Follows (Matches R front) (w.addLiteralFrom bytes start) (v.addLiteralFrom bytes start) := by
  -- along the rounds of the first writer: as much is held back in the second, so it cuts alike
  fun_induction PatchWriter.addLiteralFrom w bytes start generalizing v with
  | case1 w start hstart count e w' => exact .failed _ _ _
  | case2 w start hstart count w' hh =>
    rename_i ih
    have hhold := h.hold k (bytes.extract start (start + count))
    rw [hh] at hhold
    obtain ⟨v', hv, h'⟩ := hhold.exists_of_ok
    have hcount : count = min (bytes.size - start) (literalChunk - v.pending.size) := by
      rw [← h.size_pending_eq]
    rw [hcount] at hv ih ⊢
    rw [addLiteralFrom_of_hold hstart hv]
    exact ih h'
  | case3 w start hge =>
    rw [PatchWriter.addLiteralFrom, if_neg hge]
    exact .succeeded () h

theorem Matches.act (k : ByteOutput.Faithful R) (h : Matches R front w v) (step : SinkStep) :
    Follows (Matches R front) (step.act w) (step.act v) := by
  cases step with
  | copy offset length => exact h.addCopy k offset length
  | byte value =>
    show Follows _ (w.addByte value) (v.addByte value)
    rw [addByte, addByte, h.closed_eq]
    exact .ite (.failed _ _ _) (h.hold k _)
  | literal bytes =>
    show Follows _ (w.addLiteral bytes) (v.addLiteral bytes)
    rw [addLiteral, addLiteral, h.closed_eq]
    exact .ite (.failed _ _ _) (h.addLiteralFrom k bytes 0)
  | flush =>
    show Follows _ w.flush v.flush
    rw [flush_eq, flush_eq]
    exact (h.writePending k).andThen fun h => h.flushOutput k

theorem Matches.close (k : ByteOutput.Faithful R) (h : Matches R front w v) :
    Follows (Matches R front) w.close v.close := by
  rw [close_eq, close_eq, h.closed_eq]
  refine .ite (.succeeded () h) ((h.writePending k).andThen fun h => ?_)
  refine (h.writeEof k).andThen fun h => (h.flushOutput k).andThen fun h => ?_
  obtain ⟨options, base, pending, stats, closed, hout⟩ := h
  exact .succeeded () ⟨options, base, pending, stats, true, hout⟩

/-- A writer over a byte string succeeds wherever one over the output does. -/
theorem following_matches (k : ByteOutput.Faithful R) :
    Following (Matches R front : PatchWriter ω → PatchWriter ByteArray → Prop) where
  act h step := h.act k step
  close h := h.close k

/-- So does starting one. -/
theorem exists_matches_of_create (k : ByteOutput.Faithful R) {out : ω} (ho : R out front)
    {options : WriterOptions} (hw : create out options = .ok w) :
    ∃ v, create ByteArray.empty options = .ok v ∧ Matches R front w v := by
  have hempty : R out (front ++ ByteArray.empty.data.toList) := by
    rwa [show ByteArray.empty.data.toList = [] from rfl, List.append_nil]
  rw [create] at hw ⊢
  cases hproblem : options.problem? with
  | some problem =>
    rw [hproblem] at hw
    cases hw
  | none =>
    rw [hproblem] at hw
    by_cases hskip : options.skipPreamble = true
    · simp only [if_pos hskip] at hw ⊢
      cases hw
      exact ⟨_, rfl, ⟨_, _, _, _, _, hempty⟩⟩
    · simp only [if_neg hskip, ByteOutput.write_byteArray] at hw ⊢
      cases hwrite : ByteOutput.write out (packBytes (preamble options.mode)) with
      | mk answer out' =>
        rw [hwrite] at hw
        cases answer with
        | error fault => cases hw
        | ok _ =>
          cases hw
          refine ⟨_, rfl, ⟨_, _, _, _, _, ?_⟩⟩
          rw [toList_append, ← List.append_assoc]
          exact k.write hempty hwrite

/-- **What is written by calls that succeed.** A writer without zero runs that was started and
closed over an output that may fail, but did not, has written the patch of the records that the
atoms are packed into. -/
theorem output_of_complete (k : ByteOutput.Faithful R) {out : ω} (ho : R out front)
    {options : WriterOptions} (hz : options.zeroRuns = none) (hp : options.skipPreamble = false)
    (he : options.skipEof = false) (hw : create out options = .ok w) {steps : List SinkStep}
    {w' : PatchWriter ω} (h : complete w steps = (.ok (), w')) :
    R w'.output (front ++ patchOf options.mode (packed (steps.flatMap SinkStep.atoms))) := by
  obtain ⟨v, hv, hmatches⟩ := exists_matches_of_create k ho hw
  obtain ⟨v₁, v', hv₁, h', hout⟩ := exists_patch ByteOutput.reliable_byteArray
    (rfl : ByteArray.empty.data.toList = []) options hz hp he steps
  rw [hv] at hv₁
  cases hv₁
  have hfollows := (following_matches k).complete hmatches steps
  rw [h] at hfollows
  obtain ⟨v₂, hv₂, hlast⟩ := hfollows.exists_of_ok
  rw [h'] at hv₂
  cases hv₂
  cases hlast with
  | intro _ _ _ _ _ houtput => rwa [hout] at houtput

end PatchWriter

end BinaryDelta
