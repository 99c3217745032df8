import BinaryDelta.BlockTable.Chain
import BinaryDelta.Checksum
import Std.Data.TreeMap

/-!
# Block indexes

Model of `ChecksumIndex`: `insert`, `lookup`, `find` and `clear`.

A block index records the offsets of source blocks under their hashes, and keeps the hashes sorted.
The first block of a hash is always kept; further ones only up to the chain limit.

Out of scope: the hash map behind it and the order of its keys, which no answer and no snapshot
shows.
-/

namespace BinaryDelta

/-- The chains of blocks by hash. -/
structure BlockIndex where
  checksum : Checksum
  /-- The longest chain kept, if there is a limit. -/
  limit : Option Nat
  chains : Std.TreeMap UInt32 Chain := ∅
  /-- The blocks recorded so far, those beyond a limit included. -/
  blocks : Nat := 0
  /-- The source bytes scanned. -/
  scanned : Nat := 0

namespace BlockIndex

/-- Records that the block at `offset` has this hash. -/
def insert : BlockIndex → UInt32 → Nat → BlockIndex
  | ⟨checksum, limit, chains, blocks, scanned⟩, hash, offset =>
    let chains := chains.alter hash fun
      | none => some #[offset]
      | some chain => some (chain.extend limit offset)
    ⟨checksum, limit, chains, blocks + 1, scanned⟩

/-- The chain of a hash. -/
def lookup (x : BlockIndex) (hash : UInt32) : Chain := x.chains.getD hash #[]

/-- The first block of a hash. -/
def find? (x : BlockIndex) (hash : UInt32) : Option Nat := (x.lookup hash)[0]?

/-- The number of distinct hashes. -/
def size (x : BlockIndex) : Nat := x.chains.size

/-- Has no block been recorded? -/
def isEmpty (x : BlockIndex) : Bool := x.chains.isEmpty

/-- Forgets all blocks. -/
def clear (x : BlockIndex) : BlockIndex :=
  { x with chains := ∅, blocks := 0, scanned := 0 }

end BlockIndex

end BinaryDelta
