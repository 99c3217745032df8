import BinaryDelta.Error

/-!
# Byte outputs

A byte output takes bytes in order. A failed write may have taken some of them.

* `ByteArray` is the output that never fails: it is what it was given.
* `BoundedOutput` has room for so many bytes and may refuse to flush.

Results:
* `write_byteArray`, `flush_byteArray`: what the output that never fails does.

Out of scope: writes that are cut short or interrupted, which are repeated until everything is
written.
-/

namespace BinaryDelta

/-- Something that takes bytes in order. -/
class ByteOutput (ω : Type) where
  /-- Takes all the bytes, or fails after taking some of them. -/
  write : ω → ByteArray → Except Fault Unit × ω
  /-- Hands on whatever is still held back. -/
  flush : ω → Except Fault Unit × ω

instance : ByteOutput ByteArray where
  write taken bytes := (.ok (), taken ++ bytes)
  flush taken := (.ok (), taken)

namespace ByteOutput

@[simp] theorem write_byteArray (taken bytes : ByteArray) :
    write taken bytes = (.ok (), taken ++ bytes) := rfl

@[simp] theorem flush_byteArray (taken : ByteArray) : flush taken = (.ok (), taken) := rfl

/-- Writes parts one after the other, up to the first that fails. -/
def writeParts {ω : Type} [ByteOutput ω] (out : ω) : List ByteArray → Except Fault Unit × ω
  | [] => (.ok (), out)
  | part :: parts =>
    match write out part with
    | (.error fault, out) => (.error fault, out)
    | (.ok (), out) => writeParts out parts

end ByteOutput

/-- An output in memory with a limit. -/
structure BoundedOutput where
  taken : ByteArray := ByteArray.empty
  /-- The bytes it takes in total, if there is a limit. -/
  limit : Option Nat := none
  /-- Does every flush fail? -/
  failsToFlush : Bool := false

namespace BoundedOutput

/-- Takes what there is room for, and fails if that is not all. -/
def write : BoundedOutput → ByteArray → Except Fault Unit × BoundedOutput
  | ⟨taken, none, failsToFlush⟩, bytes => (.ok (), ⟨taken ++ bytes, none, failsToFlush⟩)
  | ⟨taken, some limit, failsToFlush⟩, bytes =>
    let room := limit - taken.size
    if bytes.size ≤ room then (.ok (), ⟨taken ++ bytes, some limit, failsToFlush⟩)
    else (.error (.device "output full"), ⟨taken ++ bytes.extract 0 room, some limit, failsToFlush⟩)

/-- Nothing is held back, so a flush only answers. -/
def flush (o : BoundedOutput) : Except Fault Unit × BoundedOutput :=
  (if o.failsToFlush then .error (.device "flush failed") else .ok (), o)

instance : ByteOutput BoundedOutput := ⟨write, flush⟩

end BoundedOutput

end BinaryDelta
