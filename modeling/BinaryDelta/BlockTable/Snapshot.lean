import BinaryDelta.BigEndian
import BinaryDelta.BlockTable.Basic
import BinaryDelta.Stream.Output

/-!
# Stored block tables

Model of `write_snapshot` and `read_snapshot`, with `write_to` and `read_from` for an index.

A snapshot holds the block size, the number of indexes and each index: seed, bytes scanned, chain
limit (zero for none), number of hashes, and the chains by ascending hash. All fields are
big-endian. The same index always has the same snapshot.

Loading records every stored block again, so that a chain limit holds for what is loaded too.
-/

namespace BinaryDelta

namespace BlockIndex

/-- Appends one chain. -/
def appendChain (out : ByteArray) (hash : UInt32) (chain : Chain) : ByteArray :=
  let out := appendBytes out (bigEndian 4 hash.toNat)
  let out := appendBytes out (bigEndian 4 chain.size)
  chain.foldl (fun out offset => appendBytes out (bigEndian 8 offset)) out

/-- Appends one index. -/
def appendSnapshot (x : BlockIndex) (out : ByteArray) : ByteArray :=
  let out := appendBytes out (bigEndian 8 x.checksum.seed.toNat)
  let out := appendBytes out (bigEndian 8 x.scanned)
  let out := appendBytes out (bigEndian 4 (x.limit.getD 0))
  let out := appendBytes out (bigEndian 4 x.size)
  x.chains.foldl appendChain out

end BlockIndex

/-- The snapshot of a table. -/
def BlockTable.snapshot (t : BlockTable) : ByteArray :=
  let out := appendBytes ByteArray.empty (bigEndian 4 t.blockSize)
  let out := appendBytes out (bigEndian 1 (if t.isDuplicate then 2 else 1))
  let out := t.primary.appendSnapshot out
  match t.secondary with
  | none => out
  | some x => x.appendSnapshot out

/-- Writes the snapshot of a table. -/
def BlockTable.writeSnapshot {ω : Type} [ByteOutput ω] (t : BlockTable) (out : ω) :
    Except DeltaError Unit × ω :=
  match ByteOutput.write out t.snapshot with
  | (.error fault, out) => (.error (.io fault), out)
  | (.ok (), out) => (.ok (), out)

variable {ρ : Type} [ByteReader ρ]

namespace BlockIndex

/-- Records `count` stored offsets under a hash. -/
def readOffsets (hash : UInt32) (x : BlockIndex) (r : ρ) : Nat → Except Shortfall BlockIndex × ρ
  | 0 => (.ok x, r)
  | count + 1 =>
    match ByteReader.readField r 8 with
    | (.error shortfall, r) => (.error shortfall, r)
    | (.ok offset, r) => readOffsets hash (x.insert hash offset) r count

/-- Records `count` stored chains. -/
def readChains (x : BlockIndex) (r : ρ) : Nat → Except Shortfall BlockIndex × ρ
  | 0 => (.ok x, r)
  | count + 1 =>
    match ByteReader.readField r 4 with
    | (.error shortfall, r) => (.error shortfall, r)
    | (.ok hash, r) =>
      match ByteReader.readField r 4 with
      | (.error shortfall, r) => (.error shortfall, r)
      | (.ok length, r) =>
        match readOffsets (UInt32.ofNat hash) x r length with
        | (.error shortfall, r) => (.error shortfall, r)
        | (.ok x, r) => readChains x r count

/-- Reads one index. -/
def readSnapshot (r : ρ) : Except Shortfall BlockIndex × ρ :=
  match ByteReader.readField r 8 with
  | (.error shortfall, r) => (.error shortfall, r)
  | (.ok seed, r) =>
    match ByteReader.readField r 8 with
    | (.error shortfall, r) => (.error shortfall, r)
    | (.ok scanned, r) =>
      match ByteReader.readField r 4 with
      | (.error shortfall, r) => (.error shortfall, r)
      | (.ok limit, r) =>
        match ByteReader.readField r 4 with
        | (.error shortfall, r) => (.error shortfall, r)
        | (.ok count, r) =>
          let x : BlockIndex := {
            checksum := .ofSeed (UInt64.ofNat seed)
            limit := if limit = 0 then none else some limit
            scanned }
          x.readChains r count

end BlockIndex

namespace BlockTable

/-- A snapshot that is cut short is invalid; a fault of the reader stays one. -/
def snapshotError : Shortfall → DeltaError
  | .ended => .invalidSnapshot .truncated
  | .fault fault => .io fault

/-- Reads the indexes of a table. -/
def readIndexes (r : ρ) (duplicate : Bool) :
    Except Shortfall (BlockIndex × Option BlockIndex) × ρ :=
  match BlockIndex.readSnapshot r with
  | (.error shortfall, r) => (.error shortfall, r)
  | (.ok primary, r) =>
    if duplicate then
      match BlockIndex.readSnapshot r with
      | (.error shortfall, r) => (.error shortfall, r)
      | (.ok secondary, r) => (.ok (primary, some secondary), r)
    else (.ok (primary, none), r)

/-- Reads a table. Nothing ties the table to the source it is used with later. -/
def readSnapshot (r : ρ) : Except DeltaError BlockTable × ρ :=
  match ByteReader.readField r 4 with
  | (.error shortfall, r) => (.error (snapshotError shortfall), r)
  | (.ok field, r) =>
    if h : 0 < field ∧ field < 0x80000000 then
      match ByteReader.readField r 1 with
      | (.error shortfall, r) => (.error (snapshotError shortfall), r)
      | (.ok count, r) =>
        if count = 1 ∨ count = 2 then
          match readIndexes r (count == 2) with
          | (.error shortfall, r) => (.error (snapshotError shortfall), r)
          | (.ok (primary, secondary), r) => (.ok ⟨field, primary, secondary, true, h.1⟩, r)
        else (.error (.invalidSnapshot (.tableCount count)), r)
    else (.error (.invalidSnapshot (.blockSize (Int.bmod field 0x100000000))), r)

end BlockTable

end BinaryDelta
