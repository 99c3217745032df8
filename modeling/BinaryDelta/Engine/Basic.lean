import BinaryDelta.BlockTable.Build
import BinaryDelta.BlockTable.Snapshot
import BinaryDelta.Engine.Run

/-!
# Engines

Model of `Delta`: its settings, `compute`, `compute_segment`, `write_checksums` and
`read_checksums`.

An engine holds its options and, if it is told to keep the source, the block table of its last
computation for the next one. A kept table is used as it is, so the next source has to be the same;
a table that does not fit the options is replaced. The table can be stored and loaded.

Out of scope: segments that do not lie below 2^64, as `computeSegment` says; and what the receiver
of progress reports does with them, so they are listed here.
-/

namespace BinaryDelta

/-- Options, and the block table kept for the next computation. -/
structure Engine where
  options : EngineOptions := {}
  table : Option BlockTable := none

/-- What a computation leaves behind. -/
structure EngineOutcome (σ κ : Type) where
  result : Except DeltaError DeltaStats
  /-- The progress reports in order, those before a failure included. -/
  reports : Array Progress
  engine : Engine
  source : σ
  sink : κ

namespace Engine

/-- An engine with these options, if they are in range. -/
def ofOptions (options : EngineOptions) : Except DeltaError Engine :=
  match options.problem? with
  | some problem => .error (.invalidConfig problem)
  | none => .ok { options }

/-! ## Settings -/

/-- Changes the chunk size, in the options first and then in a kept table. That empties the table,
unless the size is the same. -/
def resize (e : Engine) (size : Nat) : Except DeltaError Unit × Engine :=
  match chunkSizeProblem? size with
  | some problem => (.error (.invalidConfig problem), e)
  | none =>
    if size = e.options.chunkSize then (.ok (), e)
    else
      let options := { e.options with chunkSize := size }
      match e.table with
      | none => (.ok (), ⟨options, none⟩)
      | some table =>
        match table.setBlockSize size with
        | .error problem => (.error problem, ⟨options, some table⟩)
        | .ok table => (.ok (), ⟨options, some table⟩)

/-- The engine with another chunk size. -/
def setChunkSize (e : Engine) (size : Nat) : Except DeltaError Engine :=
  match e.resize size with
  | (.error problem, _) => .error problem
  | (.ok (), e) => .ok e

/-- Switches keeping the source on or off. Off also drops a kept table. -/
def setKeepSource (e : Engine) (keepSource : Bool) : Engine :=
  ⟨{ e.options with keepSource }, if keepSource then e.table else none⟩

/-- Switches autocode on or off. -/
def setAutocode (e : Engine) (autocode : Bool) : Engine :=
  { e with options := { e.options with autocode } }

/-- Switches accepting hashes without a comparison on or off. -/
def setAcceptHash (e : Engine) (acceptHash : Bool) : Engine :=
  { e with options := { e.options with acceptHash } }

/-- Switches the second checksum on or off. A change drops a kept table. -/
def setDuplicate (e : Engine) (duplicate : Bool) : Engine :=
  if duplicate = e.options.duplicate then e else ⟨{ e.options with duplicate }, none⟩

/-- Drops a kept table. -/
def clearSource (e : Engine) : Engine := { e with table := none }

/-- Is a table kept? -/
def hasSource (e : Engine) : Bool := e.table.isSome

/-! ## Computing -/

/-- The kept table, if it may be kept and fits the options. -/
def fittingTable? (e : Engine) : Option BlockTable :=
  if e.options.keepSource then
    e.table.filter fun t =>
      t.blockSize == e.options.chunkSize && t.isDuplicate == e.options.duplicate
  else none

variable {σ ρ κ : Type} [Source σ] [ByteReader ρ] [InstructionSink κ] [Overlap σ κ]

/-- The table of a source: the kept one if there is one that fits, and else a new one. One that has
not been built yet is built from the source. -/
def prepareTable (e : Engine) (source : σ) : Except DeltaError BlockTable × σ :=
  let empty : Except DeltaError BlockTable :=
    match e.fittingTable? with
    | some table => .ok table
    | none => BlockTable.ofBlockSize e.options.chunkSize e.options.duplicate
  match empty with
  | .error problem => (.error problem, source)
  | .ok table =>
    if table.built then (.ok table, source)
    else
      match table.build source with
      | (.error problem, _, source) => (.error problem, source)
      | (.ok (), table, source) => (.ok table, source)

/-- Describes the target by instructions over the source, and flushes the sink. The source stands at
`sourceOffset` of the data that copies refer to, and the target at `targetOffset` of the data that
it is part of; the latter matters with autocode only. The data is meant to be shorter than 2^64, and
then `sourceOffset` plus an offset in the source, and `targetOffset` plus one in the target, are
64-bit numbers; these two sums are not checked here. -/
def computeSegment (e : Engine) (source : σ) (target : ρ) (sink : κ)
    (sourceOffset targetOffset : Nat) : EngineOutcome σ κ :=
  match e.options.problem? with
  | some problem => ⟨.error (.invalidConfig problem), #[], e, source, sink⟩
  | none =>
    match e.prepareTable source with
    | (.error problem, source) => ⟨.error problem, #[], e.clearSource, source, sink⟩
    | (.ok table, source) =>
      let e := ⟨e.options, if e.options.keepSource then some table else none⟩
      let search : Search := { table, options := e.options, sourceOffset, targetOffset }
      match search.describe source target sink with
      | ⟨.error problem, reports, source, sink⟩ =>
        -- a table in use is not put back when the computation is given up
        ⟨.error problem, reports, if problem.isOverflow then e.clearSource else e, source, sink⟩
      | ⟨.ok stats, reports, source, sink⟩ =>
        match InstructionSink.flush sink with
        | (.error problem, sink) => ⟨.error problem, reports, e, source, sink⟩
        | (.ok (), sink) => ⟨.ok stats, reports, e, source, sink⟩

/-- Describes the whole target by instructions over the source, and closes the sink. -/
def compute (e : Engine) (source : σ) (target : ρ) (sink : κ) : EngineOutcome σ κ :=
  match e.computeSegment source target sink 0 0 with
  | ⟨.error problem, reports, e, source, sink⟩ => ⟨.error problem, reports, e, source, sink⟩
  | ⟨.ok stats, reports, e, source, sink⟩ =>
    match InstructionSink.close sink with
    | (.error problem, sink) => ⟨.error problem, reports, e, source, sink⟩
    | (.ok (), sink) => ⟨.ok stats, reports, e, source, sink⟩

/-! ## Storing the table -/

/-- Writes a snapshot of the kept table. -/
def writeChecksums {ω : Type} [ByteOutput ω] (e : Engine) (out : ω) : Except DeltaError Unit × ω :=
  match e.table with
  | none => (.error (.invalidConfig .noChecksums), out)
  | some table => table.writeSnapshot out

/-- Loads a table to be kept, and takes over its block size and its number of checksums. -/
def load (e : Engine) (r : ρ) : Except DeltaError Unit × Engine × ρ :=
  match BlockTable.readSnapshot r with
  | (.error problem, r) => (.error problem, e, r)
  | (.ok table, r) =>
    match chunkSizeProblem? table.blockSize with
    | some problem => (.error (.invalidConfig problem), e, r)
    | none =>
      let options := { e.options with
        chunkSize := table.blockSize, duplicate := table.isDuplicate, keepSource := true }
      (.ok (), ⟨options, some table⟩, r)

/-- The engine with a loaded table. -/
def readChecksums (e : Engine) (r : ρ) : Except DeltaError Engine × ρ :=
  match e.load r with
  | (.error problem, _, r) => (.error problem, r)
  | (.ok (), e, r) => (.ok e, r)

end Engine

end BinaryDelta
