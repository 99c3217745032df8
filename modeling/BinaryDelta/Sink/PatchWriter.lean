import BinaryDelta.Instruction
import BinaryDelta.Stream.Output
import BinaryDelta.Wire.Offset
import BinaryDelta.Wire.Record

/-!
# Writing patches

Model of `GDiffWriter`, with `WriterOptions`, `ZeroRunOptions` and `WriterStats`.

A patch writer puts instructions on the wire. Literal bytes are held back and written as one record
when a copy arrives, when `literalChunk` of them have gathered, or on a flush.

With zero runs switched on, the writer follows how much of the recent output came from copies, and
where that was much it writes long literals as zeros, for readers that restore those bytes by other
means. The share of copies over the trailing window grows with every copy and decays with every
literal byte.

Out of scope: counters from 2^64 on. They are naturals here.
-/

namespace BinaryDelta

/-- The most literal bytes held back. -/
def literalChunk : Nat := 32767

/-- When literals are written as zeros. -/
structure ZeroRuns where
  /-- The shortest literal that is. -/
  minBlock : Nat := 10
  /-- The share of copies from which on it is. -/
  ratio : Float := 0.9
  /-- The trailing window of the share, in output bytes. -/
  window : Nat := 1048576

/-- How a patch is written. -/
structure WriterOptions where
  differential : Bool := false
  skipPreamble : Bool := false
  skipEof : Bool := false
  zeroRuns : Option ZeroRuns := none

namespace WriterOptions

/-- The mode of the stream. -/
def mode (o : WriterOptions) : Mode := if o.differential then .differential else .normal

/-- The trailing window of the share of copies. -/
def window (o : WriterOptions) : Nat := (o.zeroRuns.getD {}).window

/-- What is wrong with the options, if anything is. -/
def problem? (o : WriterOptions) : Option ConfigProblem :=
  o.zeroRuns.bind fun z =>
    if 0 < z.window && 0.0 ≤ z.ratio && z.ratio ≤ 1.0 then none
    else some (.zeroRuns z.window z.ratio)

end WriterOptions

/-- Copies by the width of their offset field. -/
structure CopyCounts where
  byte : Nat := 0
  short : Nat := 0
  int : Nat := 0
  long : Nat := 0
  deriving Repr, DecidableEq

/-- Counts one more copy. -/
def CopyCounts.add (c : CopyCounts) : OffsetWidth → CopyCounts
  | .byte => { c with byte := c.byte + 1 }
  | .short => { c with short := c.short + 1 }
  | .int => { c with int := c.int + 1 }
  | .long => { c with long := c.long + 1 }

/-- What a patch writer has counted. -/
structure WriterStats where
  /-- The bytes written, the preamble included. -/
  written : Nat := 0
  /-- The length of the target described so far. -/
  totalLength : Nat := 0
  /-- The share of copies in the trailing window. -/
  copyRatio : Float := 0
  copies : CopyCounts := {}

namespace WriterStats

/-- The nearest double. -/
def toDouble (n : Nat) : Float := (UInt64.ofNat n).toFloat

/-- Takes `count` literal bytes into account. -/
def addLiteral (s : WriterStats) (window count : Nat) : WriterStats :=
  let decay := Float.pow ((toDouble window - 1.0) / toDouble window) (toDouble count)
  { s with totalLength := s.totalLength + count, copyRatio := s.copyRatio * decay }

/-- The share of copies after one of `length` bytes. -/
def ratioAfterCopy (ratio : Float) (window length : Nat) : Float :=
  let share := (ratio * toDouble (window - min window length) + toDouble length) / toDouble window
  if share < 1.0 then share else 1.0

end WriterStats

/-- An output that receives a patch, and what is not yet written of it. -/
structure PatchWriter (ω : Type) where
  output : ω
  options : WriterOptions
  base : OffsetBase
  pending : ByteArray
  stats : WriterStats
  closed : Bool

namespace PatchWriter

variable {ω : Type} [ByteOutput ω]

/-- Starts a patch: writes the preamble, unless that is switched off. A failure comes with the
output as it was left. -/
def create (output : ω) (options : WriterOptions) : Except (DeltaError × ω) (PatchWriter ω) :=
  match options.problem? with
  | some problem => .error (.invalidConfig problem, output)
  | none =>
    let base : OffsetBase := { mode := options.mode }
    if options.skipPreamble then .ok ⟨output, options, base, ByteArray.empty, {}, false⟩
    else
      match ByteOutput.write output (packBytes (preamble options.mode)) with
      | (.error fault, output) => .error (.io fault, output)
      | (.ok (), output) =>
        .ok ⟨output, options, base, ByteArray.empty, { written := preambleLength }, false⟩

/-- The mode of the stream. -/
def mode (w : PatchWriter ω) : Mode := w.base.mode

/-- Is a literal of `size` bytes written as zeros? -/
def zeroes (options : WriterOptions) (stats : WriterStats) (size : Nat) : Bool :=
  match options.zeroRuns with
  | none => false
  | some z => z.minBlock ≤ size && z.ratio ≤ stats.copyRatio

/-- What is written for a record, field by field. -/
def partsOf (mode : Mode) (record : Record) : List ByteArray := (record.fields mode).map packBytes

/-- Writes the literal bytes held back as one record. If that fails they stay held back, as zeros if
they were to be written as such. -/
def writePending : PatchWriter ω → Except DeltaError Unit × PatchWriter ω
  | ⟨output, options, base, pending, stats, closed⟩ =>
    if pending.size = 0 then (.ok (), ⟨output, options, base, pending, stats, closed⟩)
    else
      let payload := if zeroes options stats pending.size then zeroBytes pending.size else pending
      let record := Record.literal payload.size
      match ByteOutput.writeParts output (partsOf base.mode record ++ [payload]) with
      | (.error fault, output) =>
        (.error (.io fault), ⟨output, options, base, payload, stats, closed⟩)
      | (.ok (), output) =>
        let size := record.headerLength base.mode + payload.size
        (.ok (), ⟨output, options, base, ByteArray.empty,
          { stats with written := stats.written + size }, closed⟩)

/-- Writes a copy record. The offset base and the counts of copies have moved on even if that
fails. -/
def writeCopy : PatchWriter ω → Nat → Nat → Except DeltaError Unit × PatchWriter ω
  | ⟨output, options, base, pending, stats, closed⟩, offset, length =>
    let (value, base) := base.encode offset
    let stats := { stats with
      copyRatio := WriterStats.ratioAfterCopy stats.copyRatio options.window length
      copies := stats.copies.add (OffsetWidth.select base.mode value) }
    let record := Record.copy value length
    match ByteOutput.writeParts output (partsOf base.mode record) with
    | (.error fault, output) =>
      (.error (.io fault), ⟨output, options, base, pending, stats, closed⟩)
    | (.ok (), output) =>
      (.ok (), ⟨output, options, base, pending, { stats with
        written := stats.written + record.headerLength base.mode
        totalLength := stats.totalLength + length }, closed⟩)

/-- Writes what is held back, then the copy, unless it is empty. -/
def addCopy (w : PatchWriter ω) (offset length : Nat) : Except DeltaError Unit × PatchWriter ω :=
  if w.closed then (.error .sinkClosed, w)
  else
    match w.writePending with
    | (.error e, w) => (.error e, w)
    | (.ok (), w) => if length = 0 then (.ok (), w) else w.writeCopy offset length

/-- Holds back more literal bytes, and writes what is held back once that is a full chunk. -/
def hold : PatchWriter ω → ByteArray → Except DeltaError Unit × PatchWriter ω
  | ⟨output, options, base, pending, stats, closed⟩, bytes =>
    let stats := stats.addLiteral options.window bytes.size
    let w : PatchWriter ω := ⟨output, options, base, pending ++ bytes, stats, closed⟩
    if literalChunk ≤ w.pending.size then w.writePending else (.ok (), w)

/-- After a successful write nothing is held back. -/
theorem size_pending_of_writePending {w w' : PatchWriter ω} (h : w.writePending = (.ok (), w')) :
    w'.pending.size = 0 := by
  rcases w with ⟨output, options, base, pending, stats, closed⟩
  simp only [writePending] at h
  split at h
  · obtain ⟨_, rfl⟩ := Prod.mk.inj h
    assumption
  · split at h
    · simp at h
    · obtain ⟨_, rfl⟩ := Prod.mk.inj h
      rfl

/-- A writer that holds back a full chunk holds back nothing after the next success. -/
theorem size_pending_of_hold {w w' : PatchWriter ω} {bytes : ByteArray}
    (hw : literalChunk ≤ w.pending.size) (h : w.hold bytes = (.ok (), w')) :
    w'.pending.size = 0 := by
  rcases w with ⟨output, options, base, pending, stats, closed⟩
  simp only [hold] at h
  split at h
  · exact size_pending_of_writePending h
  · rename_i hn
    rw [ByteArray.size_append] at hn
    dsimp only at hw
    omega

/-- Adds the bytes from `start` on, as much at a time as there is room for. -/
def addLiteralFrom (w : PatchWriter ω) (bytes : ByteArray) (start : Nat) :
    Except DeltaError Unit × PatchWriter ω :=
  if start < bytes.size then
    let count := min (bytes.size - start) (literalChunk - w.pending.size)
    match _h : w.hold (bytes.extract start (start + count)) with
    | (.error e, w') => (.error e, w')
    | (.ok (), w') => w'.addLiteralFrom bytes (start + count)
  else (.ok (), w)
termination_by (bytes.size - start, w.pending.size)
decreasing_by
  rcases Nat.lt_or_ge w.pending.size literalChunk with hw | hw
  · exact Prod.Lex.left _ _ (by omega)
  · have h₁ := size_pending_of_hold hw _h
    have h₂ : bytes.size - (start + count) = bytes.size - start := by omega
    have h₃ : 0 < literalChunk := by decide
    rw [h₁, h₂]
    exact Prod.Lex.right _ (by omega)

/-- Adds one literal byte. -/
def addByte (w : PatchWriter ω) (byte : UInt8) : Except DeltaError Unit × PatchWriter ω :=
  if w.closed then (.error .sinkClosed, w) else w.hold (ByteArray.empty.push byte)

/-- Adds literal bytes. -/
def addLiteral (w : PatchWriter ω) (bytes : ByteArray) : Except DeltaError Unit × PatchWriter ω :=
  if w.closed then (.error .sinkClosed, w) else w.addLiteralFrom bytes 0

/-- Flushes the output. -/
def flushOutput : PatchWriter ω → Except DeltaError Unit × PatchWriter ω
  | ⟨output, options, base, pending, stats, closed⟩ =>
    match ByteOutput.flush output with
    | (.error fault, output) =>
      (.error (.io fault), ⟨output, options, base, pending, stats, closed⟩)
    | (.ok (), output) => (.ok (), ⟨output, options, base, pending, stats, closed⟩)

/-- Writes what is held back and flushes the output. -/
def flush (w : PatchWriter ω) : Except DeltaError Unit × PatchWriter ω :=
  match w.writePending with
  | (.error e, w) => (.error e, w)
  | (.ok (), w) => w.flushOutput

/-- Writes the end of the stream, unless that is switched off. -/
def writeEof : PatchWriter ω → Except DeltaError Unit × PatchWriter ω
  | ⟨output, options, base, pending, stats, closed⟩ =>
    if options.skipEof then (.ok (), ⟨output, options, base, pending, stats, closed⟩)
    else
      match ByteOutput.writeParts output (partsOf base.mode .eof) with
      | (.error fault, output) =>
        (.error (.io fault), ⟨output, options, base, pending, stats, closed⟩)
      | (.ok (), output) =>
        (.ok (), ⟨output, options, base, pending, { stats with written := stats.written + 1 },
          closed⟩)

/-- Writes what is held back and the end of the stream, and flushes the output. A writer is closed
only if all of that succeeded; closing it again does nothing. -/
def close (w : PatchWriter ω) : Except DeltaError Unit × PatchWriter ω :=
  if w.closed then (.ok (), w)
  else
    match w.writePending with
    | (.error e, w) => (.error e, w)
    | (.ok (), w) =>
      match w.writeEof with
      | (.error e, w) => (.error e, w)
      | (.ok (), w) =>
        match w.flushOutput with
        | (.error e, w) => (.error e, w)
        | (.ok (), w) => (.ok (), { w with closed := true })

instance : InstructionSink (PatchWriter ω) := ⟨addCopy, addByte, addLiteral, flush, close⟩

end PatchWriter

end BinaryDelta
