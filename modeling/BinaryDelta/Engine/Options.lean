import BinaryDelta.Error

/-!
# Engine options

Model of `DeltaOptions` and `validate`.

How an engine looks for matches, and the ranges of its settings.
-/

namespace BinaryDelta

/-- The longest copy that an engine makes. -/
def longestMatch : Nat := 32763

/-- How an engine looks for matches. -/
structure EngineOptions where
  /-- The size of the indexed blocks, and so the length of the shortest copy. -/
  chunkSize : Nat := 16
  /-- Keep the block table for the next computation? -/
  keepSource : Bool := false
  /-- Copy only from offsets before the current target position? -/
  autocode : Bool := false
  /-- Take equal hashes for equal blocks, without comparing bytes? -/
  acceptHash : Bool := false
  /-- Confirm every hash with a second one? -/
  duplicate : Bool := false
  /-- The most offsets compared at one target position. -/
  maxProbes : Nat := 8
  deriving Repr, DecidableEq

/-- What is wrong with a chunk size, if anything is. -/
def chunkSizeProblem? (size : Nat) : Option ConfigProblem :=
  if 0 < size ∧ size ≤ longestMatch then none else some (.chunkSize size longestMatch)

/-- What is wrong with the options, if anything is. -/
def EngineOptions.problem? (o : EngineOptions) : Option ConfigProblem :=
  match chunkSizeProblem? o.chunkSize with
  | some problem => some problem
  | none => if o.maxProbes = 0 then some .noProbes else none

end BinaryDelta
