import BinaryDelta.BlockTable.Basic
import BinaryDelta.Source.Basic

/-!
# Scanning a source into a block table

Model of `build`.

The source is read from front to end, and every complete block is recorded as soon as its last byte
has arrived. A rest shorter than a block is not recorded. If the source fails, the blocks recorded
so far stay, and the table does not count as built. The buffer holds at least two blocks, and its
size has to be below 2^63, so blocks of 2^62 bytes or more cannot be scanned for.

Out of scope: whether there is room for the buffer.
-/

namespace BinaryDelta.BlockTable

variable {σ : Type} [Source σ]

/-- The bytes asked for while scanning: at least two blocks, and about 64 KiB of small ones. -/
def scanSize (blockSize : Nat) : Nat := max (65536 / blockSize) 2 * blockSize

/-- Why there can be no buffer to scan with, if blocks are so large that there is a reason. -/
def scanProblem? (blockSize : Nat) : Option Overflow :=
  if 0x10000000000000000 ≤ scanSize blockSize then some .product
  else if 0x8000000000000000 ≤ scanSize blockSize then some .capacity
  else none

/-- Scans on from `position`; `pending` holds the bytes before it that do not fill a block yet. -/
def scanFrom (t : BlockTable) (source : σ) (pending : ByteArray) (position : Nat) :
    Except DeltaError Unit × BlockTable × σ :=
  match _h : Source.readSomeAt source position (scanSize t.blockSize - pending.size) with
  | (.error fault, source) => (.error (.io fault), t, source)
  | (.ok bytes, source') =>
    if bytes.size = 0 then (.ok (), t.finish position, source')
    else
      let blockSize := t.blockSize
      let buffer := pending ++ bytes
      let count := buffer.size / blockSize
      let t := t.insertBlocks buffer 0 (position - pending.size) count
      scanFrom t source' (buffer.extract (count * blockSize) buffer.size) (position + bytes.size)
termination_by Source.extent source - position
decreasing_by
  have := Source.size_le_of_readSomeAt _h
  rw [Source.extent, Source.span_of_readSomeAt _h, ← Source.extent]
  omega

/-- Empties the table and scans the source into it. -/
def build (t : BlockTable) (source : σ) : Except DeltaError Unit × BlockTable × σ :=
  match scanProblem? t.blockSize with
  | some problem => (.error (.overflow problem), t.clear, source)
  | none => scanFrom t.clear source ByteArray.empty 0

end BinaryDelta.BlockTable
