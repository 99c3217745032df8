import BinaryDelta.Source.Basic

/-!
# Sources that change while they are read

A source and an output usually have nothing to do with each other. But the output may go to the very
file that the source reads, and then what has been written so far is what there is to read. A
computation that reads and writes by turns therefore lets the source catch up with the output before
it reads again.

* `Overlap.catchUp` is the source as the output has left it.
* `Overlap.apart` is the usual case: nothing changes.

Out of scope: a source that anything else writes to meanwhile.
-/

namespace BinaryDelta

/-- How a source changes while something is written. -/
class Overlap (σ κ : Type) [Source σ] where
  /-- The source after all that `κ` has written. -/
  catchUp : σ → κ → σ
  /-- A source is measured once and for all, whatever becomes of its bytes. -/
  length_catchUp : ∀ (source : σ) (written : κ),
    Source.length (catchUp source written) = Source.length source

namespace Overlap

variable {σ κ : Type} [Source σ]

/-- A source in a place of its own does not change. -/
instance (priority := low) apart : Overlap σ κ where
  catchUp source _ := source
  length_catchUp _ _ := rfl

@[simp] theorem catchUp_apart (source : σ) (written : κ) :
    apart.catchUp source written = source := rfl

end Overlap

end BinaryDelta
