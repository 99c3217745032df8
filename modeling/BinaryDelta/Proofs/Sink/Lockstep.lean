import BinaryDelta.Proofs.Patch.Convert

/-!
# Sinks in lockstep

Two sinks may differ in what they hold and still answer alike, whatever they are told. Then they
cannot be told apart by what feeds them: as long as each call gives the same answer and leaves them
related, so do any number of calls, and so does a whole patch, however its bytes arrive.

* `Agree` says of two outcomes that the answer is the same and what is left behind is related.
* `Lockstep` is a relation that every call to two sinks keeps.

Results:
* `Lockstep.feed`: it is kept by any number of calls.
* `Lockstep.convert`: it is kept by converting a patch, from any two readers of its bytes.
-/

namespace BinaryDelta

variable {α κ κ' : Type} {Q : κ → κ' → Prop}

/-- The answers are the same, and what is left behind is related. -/
inductive Agree (Q : κ → κ' → Prop) : α × κ → α × κ' → Prop
  | intro (answer : α) {k : κ} {k' : κ'} (h : Q k k') : Agree Q (answer, k) (answer, k')

namespace Agree

variable {x : α × κ} {x' : α × κ'}

theorem answer_eq (h : Agree Q x x') : x.1 = x'.1 := by
  cases h
  rfl

theorem related (h : Agree Q x x') : Q x.2 x'.2 := by
  cases h
  assumption

theorem ite {p : Prop} [Decidable p] {y : α × κ} {y' : α × κ'} (hx : Agree Q x x')
    (hy : Agree Q y y') : Agree Q (if p then x else y) (if p then x' else y') := by
  by_cases hp : p
  · rwa [if_pos hp, if_pos hp]
  · rwa [if_neg hp, if_neg hp]

theorem andThen {x : Except DeltaError Unit × κ} {x' : Except DeltaError Unit × κ'}
    (h : Agree Q x x') {next : κ → Except DeltaError α × κ} {next' : κ' → Except DeltaError α × κ'}
    (hnext : ∀ {k k'}, Q k k' → Agree Q (next k) (next' k')) :
    Agree Q (BinaryDelta.andThen x next) (BinaryDelta.andThen x' next') := by
  cases h with
  | intro answer hq =>
    cases answer with
    | error e => exact .intro _ hq
    | ok done => exact hnext hq

end Agree

variable [InstructionSink κ] [InstructionSink κ']

/-- A relation between sinks under which they answer alike, kept by every call. -/
structure Lockstep (Q : κ → κ' → Prop) : Prop where
  act : ∀ {k k'}, Q k k' → ∀ step : SinkStep, Agree Q (step.act k) (step.act k')
  close : ∀ {k k'}, Q k k' → Agree Q (InstructionSink.close k) (InstructionSink.close k')

omit [InstructionSink κ'] in
/-- A sink is in lockstep with itself. -/
theorem lockstep_eq : Lockstep (Eq : κ → κ → Prop) where
  act := by
    rintro k _ rfl step
    exact .intro _ rfl
  close := by
    rintro k _ rfl
    exact .intro _ rfl

namespace Lockstep

variable {k : κ} {k' : κ'}

theorem feed (l : Lockstep Q) (h : Q k k') (steps : List SinkStep) :
    Agree Q (feed k steps) (feed k' steps) := by
  induction steps generalizing k k' with
  | nil => exact .intro _ h
  | cons step steps ih => exact (l.act h step).andThen ih

theorem convey (l : Lockstep Q) (h : Q k k') (s : Spelling) (total : Nat) :
    Agree Q (s.convey k total) (s.convey k' total) := by
  refine (l.feed h s.steps).andThen fun hq => ?_
  cases s.ending.error? with
  | some e => exact .intro _ hq
  | none => exact (l.close hq).andThen fun hq => .intro _ hq

/-- It does not matter how the bytes of a patch arrive. -/
theorem convert (l : Lockstep Q) (h : Q k k') {ρ ρ' : Type} [ByteReader ρ] [ByteReader ρ'] {r : ρ}
    {r' : ρ'} {patch : List UInt8} (hr : ByteReader.Delivers r patch)
    (hr' : ByteReader.Delivers r' patch) :
    Agree Q (convert r k) (convert r' k') := by
  rw [convert_eq hr, convert_eq hr']
  cases spellPatch? patch with
  | none => exact .intro _ h
  | some s => exact l.convey h s 0

end Lockstep

end BinaryDelta
