import BinaryDelta.BlockTable.Index
import BinaryDelta.Error

/-!
# Block tables

Model of `ChecksumTable` and `WindowHash`: `new`, `clear`, `set_block_size`, `hash`, `roll`,
`candidates`, `find` and `contains`.

A block table indexes the blocks of a source under one checksum, or under two independent ones. With
two, a block matches a window only if both hashes agree, and no chain grows beyond
`BlockTable.chainLimit`.
-/

namespace BinaryDelta

/-- The hashes of one window, under one checksum or two. -/
structure WindowHash where
  primary : UInt32
  secondary : Option UInt32
  deriving Repr, DecidableEq

/-- The index or indexes of the blocks of a source. -/
structure BlockTable where
  blockSize : Nat
  primary : BlockIndex
  secondary : Option BlockIndex
  /-- Has a source been scanned, or a stored table been loaded? -/
  built : Bool
  blockSize_pos : 0 < blockSize

namespace BlockTable

/-- The longest chain kept with two checksums. -/
def chainLimit : Nat := 32

/-- An empty table for blocks of a positive size, with one checksum or two. -/
def empty (blockSize : Nat) (duplicate : Bool) (h : 0 < blockSize) : BlockTable where
  blockSize
  primary :=
    { checksum := .ofSeed Checksum.primarySeed
      limit := if duplicate then some chainLimit else none }
  secondary :=
    if duplicate then some { checksum := .ofSeed Checksum.secondarySeed, limit := some chainLimit }
    else none
  built := false
  blockSize_pos := h

/-- An empty table, unless the block size is zero. -/
def ofBlockSize (blockSize : Nat) (duplicate : Bool) : Except DeltaError BlockTable :=
  if h : 0 < blockSize then .ok (empty blockSize duplicate h)
  else .error (.invalidConfig .emptyBlocks)

/-- Is there a second checksum? -/
def isDuplicate (t : BlockTable) : Bool := t.secondary.isSome

/-- The source bytes scanned. -/
def scanned (t : BlockTable) : Nat := t.primary.scanned

/-- Forgets all blocks. -/
def clear (t : BlockTable) : BlockTable :=
  { t with
    primary := t.primary.clear
    secondary := t.secondary.map BlockIndex.clear
    built := false }

/-- Changes the block size. A table of another block size is emptied. -/
def setBlockSize (t : BlockTable) (blockSize : Nat) : Except DeltaError BlockTable :=
  if h : 0 < blockSize then
    if blockSize = t.blockSize then .ok t
    else .ok { t.clear with blockSize, blockSize_pos := h }
  else .error (.invalidConfig .emptyBlocks)

/-- The hashes of the `count` bytes from `start`. -/
def hashRange (t : BlockTable) (bytes : ByteArray) (start count : Nat) : WindowHash where
  primary := t.primary.checksum.hashRange bytes start count
  secondary := t.secondary.map fun x => x.checksum.hashRange bytes start count

/-- The hashes of a window. -/
def hash (t : BlockTable) (window : ByteArray) : WindowHash := t.hashRange window 0 window.size

/-- The hashes after the window has slid by one byte. -/
def roll (t : BlockTable) (hash : WindowHash) (outgoing incoming : UInt8) : WindowHash where
  primary := t.primary.checksum.roll hash.primary outgoing incoming t.blockSize
  secondary :=
    match t.secondary, hash.secondary with
    | some x, some value => some (x.checksum.roll value outgoing incoming t.blockSize)
    | _, _ => none

/-- The chain that confirms a match, with two checksums. -/
def confirming (t : BlockTable) (hash : WindowHash) : Option Chain :=
  t.secondary.map fun x => (hash.secondary.map x.lookup).getD #[]

/-- The blocks that match a window, in the order of recording. -/
def candidates (t : BlockTable) (hash : WindowHash) : Chain :=
  let chain := t.primary.lookup hash.primary
  match t.confirming hash with
  | none => chain
  | some confirming => chain.filter confirming.holds

/-- The first block that matches a window. -/
def find? (t : BlockTable) (hash : WindowHash) : Option Nat := (t.candidates hash)[0]?

/-- Is the block at `offset` recorded under these hashes? -/
def contains (t : BlockTable) (hash : WindowHash) (offset : Nat) : Bool :=
  (t.primary.lookup hash.primary).holds offset &&
    (t.confirming hash).all fun confirming => confirming.holds offset

/-- Records the block of `bytes` that starts at `start` and lies at `offset` of the source. -/
def insertBlock : BlockTable → ByteArray → (start offset : Nat) → BlockTable
  | ⟨blockSize, primary, secondary, built, h⟩, bytes, start, offset =>
    let hash := primary.checksum.hashRange bytes start blockSize
    let secondary := secondary.map fun x =>
      x.insert (x.checksum.hashRange bytes start blockSize) offset
    ⟨blockSize, primary.insert hash offset, secondary, built, h⟩

/-- Records `count` blocks of `bytes`, one after the other. -/
def insertBlocks (t : BlockTable) (bytes : ByteArray) (start offset : Nat) : Nat → BlockTable
  | 0 => t
  | count + 1 =>
    let blockSize := t.blockSize
    let t := t.insertBlock bytes start offset
    t.insertBlocks bytes (start + blockSize) (offset + blockSize) count

/-- Marks the table as built from a source of so many bytes. -/
def finish (t : BlockTable) (scanned : Nat) : BlockTable :=
  { t with
    primary := { t.primary with scanned }
    secondary := t.secondary.map fun x => { x with scanned }
    built := true }

end BlockTable

end BinaryDelta
