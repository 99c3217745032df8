import BinaryDelta.Proofs.Atoms

/-!
# Feeding sinks

An operation that talks to a sink makes one call after the other and stops at the first that fails.
`feed` is that, for a list of calls given in advance. What an operation does to a sink is then said
by the list alone, whatever the sink makes of it.

* `andThen` goes on with the sink that a successful call handed back.
* `feed` makes calls in order, `complete` closes the sink behind them.

Results:
* `SinkStep.exists_split_of_copy`: behind which calls a copy is handed over.
* `feed_append`: calls can be made in two goes.
* `exists_feed`: what every single call keeps is kept by any number of them.
-/

namespace BinaryDelta

variable {κ α β : Type}

/-- Goes on with the sink, if there was no failure. -/
def andThen (answer : Except DeltaError Unit × κ) (next : κ → Except DeltaError α × κ) :
    Except DeltaError α × κ :=
  match answer with
  | (.error e, sink) => (.error e, sink)
  | (.ok (), sink) => next sink

@[simp] theorem andThen_ok (done : Unit) (sink : κ) (next : κ → Except DeltaError α × κ) :
    andThen (.ok done, sink) next = next sink := rfl

@[simp] theorem andThen_error (e : DeltaError) (sink : κ) (next : κ → Except DeltaError α × κ) :
    andThen (.error e, sink) next = (.error e, sink) := rfl

/-- What goes on with success had it. -/
theorem fst_of_andThen {answer : Except DeltaError Unit × κ} {next : κ → Except DeltaError α × κ}
    {a : α} (h : (andThen answer next).1 = .ok a) : answer.1 = .ok () := by
  rcases answer with ⟨e | _, sink⟩
  · cases h
  · rfl

/-- What ends in a failure had it before, or goes on to it. -/
theorem error_of_andThen {answer : Except DeltaError Unit × κ} {next : κ → Except DeltaError α × κ}
    {e : DeltaError} (h : (andThen answer next).1 = .error e) :
    answer.1 = .error e ∨ ∃ sink, answer = (.ok (), sink) ∧ (next sink).1 = .error e := by
  rcases answer with ⟨e' | _, sink⟩
  · cases h
    exact .inl rfl
  · exact .inr ⟨sink, rfl, h⟩

theorem andThen_assoc (answer : Except DeltaError Unit × κ) (next : κ → Except DeltaError Unit × κ)
    (last : κ → Except DeltaError α × κ) :
    andThen (andThen answer next) last = andThen answer fun sink => andThen (next sink) last := by
  rcases answer with ⟨_ | _, sink⟩ <;> rfl

/-- A call to a sink, short of closing it. -/
inductive SinkStep where
  | copy (offset length : Nat)
  | byte (byte : UInt8)
  | literal (bytes : ByteArray)
  | flush

namespace SinkStep

/-- Makes the call. -/
def act [InstructionSink κ] (sink : κ) : SinkStep → Except DeltaError Unit × κ
  | .copy offset length => InstructionSink.addCopy sink offset length
  | .byte value => InstructionSink.addByte sink value
  | .literal bytes => InstructionSink.addLiteral sink bytes
  | .flush => InstructionSink.flush sink

/-- What the call hands over. -/
def instructions : SinkStep → List Instruction
  | .copy offset length => [.copy offset length]
  | .byte value => [.literal (packBytes [value])]
  | .literal bytes => [.literal bytes]
  | .flush => []

/-- A flush hands nothing over. -/
theorem flatMap_instructions_flush (steps : List SinkStep) :
    (steps ++ [flush]).flatMap instructions = steps.flatMap instructions := by
  simp [instructions]

theorem copy_mem_of_mem {steps : List SinkStep} {offset length : Nat}
    (h : copy offset length ∈ steps) : .copy offset length ∈ steps.flatMap instructions :=
  List.mem_flatMap.mpr ⟨_, h, List.mem_singleton_self _⟩

/-- A copy that is handed over is handed over by a call, if there is no flush among the calls. -/
theorem exists_split_of_copy {steps : List SinkStep} (h : ∀ step ∈ steps, step ≠ flush)
    {front back : List Instruction} {offset length : Nat}
    (heq : steps.flatMap instructions = front ++ .copy offset length :: back) :
    ∃ before after, steps = before ++ copy offset length :: after ∧
      before.flatMap instructions = front := by
  induction steps generalizing front with
  | nil => cases front <;> cases heq
  | cons step steps ih =>
    obtain ⟨hstep, hsteps⟩ := List.forall_mem_cons.mp h
    obtain ⟨i, hi⟩ : ∃ i, step.instructions = [i] := by
      cases step with
      | flush => exact absurd rfl hstep
      | _ => exact ⟨_, rfl⟩
    rw [List.flatMap_cons, hi, List.singleton_append] at heq
    cases front with
    | nil =>
      obtain ⟨rfl, -⟩ := List.cons.inj heq
      cases step with
      | copy offset length =>
        cases hi
        exact ⟨[], steps, rfl, rfl⟩
      | byte value => cases hi
      | literal bytes => cases hi
      | flush => cases hi
    | cons j front =>
      obtain ⟨rfl, hrest⟩ := List.cons.inj heq
      obtain ⟨before, after, rfl, hfront⟩ := ih hsteps hrest
      exact ⟨step :: before, after, rfl, by rw [List.flatMap_cons, hi, hfront]; rfl⟩

/-- What the call tells, atom by atom. A flush parts literals just as an empty copy does. -/
def atoms : SinkStep → List Atom
  | .copy offset length => [.copy offset length]
  | .byte value => [.byte value]
  | .literal bytes => bytes.data.toList.map .byte
  | .flush => [.copy 0 0]

theorem cells_atoms (step : SinkStep) :
    cells step.atoms = cells (BinaryDelta.atoms step.instructions) := by
  cases step with
  | copy offset length => rfl
  | byte value => rfl
  | literal bytes => exact congrArg cells (List.append_nil _).symm
  | flush => rfl

/-- The atoms of calls stand for the instructions handed over. -/
theorem cells_flatMap_atoms (steps : List SinkStep) :
    cells (steps.flatMap atoms) = cells (BinaryDelta.atoms (steps.flatMap instructions)) := by
  induction steps with
  | nil => rfl
  | cons step steps ih =>
    rw [List.flatMap_cons, List.flatMap_cons, cells_append, ih, cells_atoms, atoms_append,
      cells_append]

/-- Without a flush they are the atoms of these. -/
theorem flatMap_atoms_of_no_flush {steps : List SinkStep} (h : ∀ step ∈ steps, step ≠ flush) :
    steps.flatMap atoms = BinaryDelta.atoms (steps.flatMap instructions) := by
  induction steps with
  | nil => rfl
  | cons step steps ih =>
    obtain ⟨hstep, hsteps⟩ := List.forall_mem_cons.mp h
    rw [List.flatMap_cons, List.flatMap_cons, atoms_append, ih hsteps]
    cases step with
    | copy offset length => rfl
    | byte value => rfl
    | literal bytes => exact congrArg (· ++ _) (List.append_nil _).symm
    | flush => exact absurd rfl hstep

theorem origins_flatMap_instructions (steps : List SinkStep) :
    origins (steps.flatMap instructions) = (cells (steps.flatMap atoms)).map Cell.origin := by
  rw [cells_flatMap_atoms, map_origin_cells]

/-- Is the call more than an empty copy? -/
def counts : SinkStep → Bool
  | .copy _ length => length != 0
  | _ => true

end SinkStep

variable [InstructionSink κ]

/-- Makes calls in order, up to the first that fails. -/
def feed (sink : κ) : List SinkStep → Except DeltaError Unit × κ
  | [] => (.ok (), sink)
  | step :: steps => andThen (step.act sink) fun sink => feed sink steps

@[simp] theorem feed_nil (sink : κ) : feed sink [] = (.ok (), sink) := rfl

theorem feed_cons (sink : κ) (step : SinkStep) (steps : List SinkStep) :
    feed sink (step :: steps) = andThen (step.act sink) fun sink => feed sink steps := rfl

theorem feed_singleton (sink : κ) (step : SinkStep) : feed sink [step] = step.act sink := by
  rw [feed_cons]
  rcases step.act sink with ⟨e | _, sink'⟩
  · rfl
  · rfl

/-- Calls can be made in two goes. -/
theorem feed_append (sink : κ) (steps steps' : List SinkStep) :
    feed sink (steps ++ steps') = andThen (feed sink steps) fun sink => feed sink steps' := by
  induction steps generalizing sink with
  | nil => rfl
  | cons step steps ih =>
    rw [List.cons_append, feed_cons, feed_cons, andThen_assoc]
    simp only [ih]

/-- If every call of some kind succeeds and keeps an invariant, any number of them do. -/
theorem exists_feed {P : SinkStep → Prop} {I : List SinkStep → κ → Prop}
    (hstep : ∀ {done : List SinkStep} {sink : κ} {step : SinkStep}, I done sink → P step →
      ∃ sink', step.act sink = (.ok (), sink') ∧ I (done ++ [step]) sink')
    (done : List SinkStep) {sink : κ} (h : I done sink) {steps : List SinkStep}
    (hs : ∀ step ∈ steps, P step) :
    ∃ sink', feed sink steps = (.ok (), sink') ∧ I (done ++ steps) sink' := by
  induction steps generalizing done sink with
  | nil => exact ⟨sink, rfl, by rwa [List.append_nil]⟩
  | cons step steps ih =>
    obtain ⟨hp, hps⟩ := List.forall_mem_cons.mp hs
    obtain ⟨sink₁, h₁, hi₁⟩ := hstep h hp
    obtain ⟨sink₂, h₂, hi₂⟩ := ih _ hi₁ hps
    exact ⟨sink₂, by rw [feed_cons, h₁, andThen_ok, h₂], by rwa [List.append_cons]⟩

/-- Makes calls in order and closes the sink. -/
def complete (sink : κ) (steps : List SinkStep) : Except DeltaError Unit × κ :=
  andThen (feed sink steps) InstructionSink.close

end BinaryDelta
