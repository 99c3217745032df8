import BinaryDelta.Engine.Match
import BinaryDelta.Instruction
import BinaryDelta.Source.Overlap

/-!
# Describing a target

Model of `run`, with `DeltaStats` and `Progress`.

`Search.next` decides what comes next at a target position: a copy of the longest match, a literal
byte where nothing matches, or the rest of a target that has less than a block left. `Search.run`
hands these to a sink, one after the other. While literal bytes are passed the window hash rolls
along; behind a copy it is taken afresh.

Results:
* `looksAhead_next`, `le_available_next`: deciding consumes nothing of the target, and finds a whole
  block of it wherever it does not find the rest. This is why a run ends.
-/

namespace BinaryDelta

/-- Where a match ends. Every position in the source can be counted; but a table that was loaded may
propose offsets behind its end, whose sum with a length need not be a 64-bit number. -/
def Match.stop {blockSize : Nat} (found : Match blockSize) (sourceLength : Nat) :
    Except DeltaError Nat :=
  if found.offset + found.length ≤ sourceLength then .ok (found.offset + found.length)
  else checkedSum found.offset found.length

/-- What comes next in the description of a target. -/
inductive Step (blockSize : Nat) where
  | copy (found : Match blockSize)
  /-- A literal byte, with the hash of the window behind it where that is known. -/
  | byte (byte : UInt8) (hash : Option WindowHash)
  /-- All bytes that are left, which are less than a block. -/
  | rest

/-- What a computation has described. -/
structure DeltaStats where
  /-- The target bytes passed. -/
  processed : Nat := 0
  /-- The target bytes that copies stand for. -/
  copied : Nat := 0
  /-- The target bytes that became literals. -/
  literal : Nat := 0
  /-- The number of copies. -/
  copies : Nat := 0
  deriving Repr, DecidableEq

namespace DeltaStats

/-- Counts a copy. -/
def addCopy (s : DeltaStats) (length : Nat) : DeltaStats :=
  { s with copied := s.copied + length, copies := s.copies + 1 }

/-- Counts literal bytes. -/
def addLiteral (s : DeltaStats) (length : Nat) : DeltaStats :=
  { s with literal := s.literal + length }

end DeltaStats

/-- How far a computation has come. -/
structure Progress where
  /-- The target bytes passed. -/
  processed : Nat
  /-- The target bytes that copies stand for. -/
  found : Nat
  deriving Repr, DecidableEq

/-- The target bytes between two progress reports. -/
def progressStep : Nat := 1048576

/-- The reports after a step from the target position `before` to `after`: one more if the step
reached or passed a multiple of `progressStep`. -/
def reportStep (reports : Array Progress) (before after found : Nat) : Array Progress :=
  if before / progressStep < after / progressStep then reports.push ⟨after, found⟩ else reports

variable {σ ρ : Type} [Source σ] [ByteReader ρ]

namespace Search

/-- The hash of the next block of the target, unless it is known. -/
def currentHash (c : Search) (w : TargetWindow ρ) : Option WindowHash → WindowHash
  | some hash => hash
  | none => c.table.hashRange w.buffer w.cursor c.blockSize

/-- The hash of the block one byte further on, if the target holds that byte. -/
def rolledHash (c : Search) (w : TargetWindow ρ) (hash : WindowHash) : Option WindowHash :=
  if c.blockSize < w.available then some (c.table.roll hash (w.byteAt 0) (w.byteAt c.blockSize))
  else none

/-- Decides between a copy and a literal byte where a whole block is there, whose hash is known. -/
def choose (c : Search) (source : σ) (w : TargetWindow ρ) (hash : WindowHash)
    (continuation : Option Nat) : Except DeltaError (Step c.blockSize × TargetWindow ρ) × σ :=
  match c.longest source w hash continuation with
  | (.error e, source) => (.error e, source)
  | (.ok (some found, w), source) => (.ok (.copy found, w), source)
  | (.ok (none, w), source) =>
    match w.fill (c.blockSize + 1) with
    | (.error fault, _) => (.error (.io fault), source)
    | (.ok (), w) => (.ok (.byte (w.byteAt 0) (c.rolledHash w hash), w), source)

/-- Decides what comes next. `continuation` is the end of the previous copy, if nothing came after
it. -/
def next (c : Search) (source : σ) (w : TargetWindow ρ) (hash : Option WindowHash)
    (continuation : Option Nat) : Except DeltaError (Step c.blockSize × TargetWindow ρ) × σ :=
  match w.fill c.blockSize with
  | (.error fault, _) => (.error (.io fault), source)
  | (.ok (), w) =>
    if w.available < c.blockSize then (.ok (.rest, w), source)
    else c.choose source w (c.currentHash w hash) continuation

open TargetWindow (LooksAhead)

theorem looksAhead_choose {c : Search} {source source' : σ} {w w' : TargetWindow ρ}
    {hash : WindowHash} {continuation : Option Nat} {step : Step c.blockSize}
    (h : c.choose source w hash continuation = (.ok (step, w'), source')) : LooksAhead w w' := by
  unfold choose at h
  split at h
  · simp at h
  · rename_i hl
    rw [longest_eq_longestOf] at hl
    simp only [Prod.mk.injEq, Except.ok.injEq] at h
    exact h.1.2 ▸ looksAhead_longestOf hl
  · rename_i hl
    rw [longest_eq_longestOf] at hl
    split at h
    · simp at h
    · rename_i hf
      simp only [Prod.mk.injEq, Except.ok.injEq] at h
      exact h.1.2 ▸ (looksAhead_longestOf hl).trans (TargetWindow.looksAhead_fill hf)

/-- Deciding consumes nothing of the target. -/
theorem looksAhead_next {c : Search} {source source' : σ} {w w' : TargetWindow ρ}
    {hash : Option WindowHash} {continuation : Option Nat} {step : Step c.blockSize}
    (h : c.next source w hash continuation = (.ok (step, w'), source')) : LooksAhead w w' := by
  unfold next at h
  split at h
  · simp at h
  · rename_i hf
    have hf := TargetWindow.looksAhead_fill hf
    split at h
    · simp only [Prod.mk.injEq, Except.ok.injEq] at h
      exact h.1.2 ▸ hf
    · exact hf.trans (looksAhead_choose h)

/-- Where it is not the rest that comes next, a whole block is there. -/
theorem le_available_next {c : Search} {source source' : σ} {w w' : TargetWindow ρ}
    {hash : Option WindowHash} {continuation : Option Nat} {step : Step c.blockSize}
    (h : c.next source w hash continuation = (.ok (step, w'), source')) (hs : step ≠ .rest) :
    c.blockSize ≤ w'.available := by
  unfold next at h
  split at h
  · simp at h
  · split at h
    · simp only [Prod.mk.injEq, Except.ok.injEq] at h
      exact absurd h.1.1.symm hs
    · have := (looksAhead_choose h).available_le
      omega

end Search

/-- What a run leaves behind. -/
structure RunOutcome (σ κ : Type) where
  result : Except DeltaError DeltaStats
  reports : Array Progress
  source : σ
  sink : κ

namespace Search

variable {κ : Type} [InstructionSink κ] [Overlap σ κ]

omit [Overlap σ κ] in
/-- Hands the rest of a target to the sink. -/
def finish (w : TargetWindow ρ) (source : σ) (sink : κ) (stats : DeltaStats)
    (reports : Array Progress) : RunOutcome σ κ :=
  let rest := w.ahead w.available
  if rest.size = 0 then ⟨.ok { stats with processed := w.position }, reports, source, sink⟩
  else
    match InstructionSink.addLiteral sink rest with
    | (.error e, sink) => ⟨.error e, reports, source, sink⟩
    | (.ok (), sink) =>
      let stats := { stats.addLiteral rest.size with processed := w.position + rest.size }
      ⟨.ok stats, reports, source, sink⟩

/-- Describes the target from the window on. -/
def run (c : Search) (source : σ) (w : TargetWindow ρ) (sink : κ) (hash : Option WindowHash)
    (continuation : Option Nat) (stats : DeltaStats) (reports : Array Progress) : RunOutcome σ κ :=
  match _h : c.next (Overlap.catchUp source sink) w hash continuation with
  | (.error e, source) => ⟨.error e, reports, source, sink⟩
  | (.ok (.rest, w'), source) => finish w' source sink stats reports
  | (.ok (.copy found, w'), source) =>
    match InstructionSink.addCopy sink (c.sourceOffset + found.offset) found.length with
    | (.error e, sink) => ⟨.error e, reports, source, sink⟩
    | (.ok (), sink) =>
      let after := w'.advance found.length
      match found.stop (Source.length source) with
      | .error e => ⟨.error e, reports, source, sink⟩
      | .ok stop =>
        let stats := stats.addCopy found.length
        c.run source after sink none (some stop) stats
          (reportStep reports w'.position after.position stats.copied)
  | (.ok (.byte byte hash, w'), source) =>
    match InstructionSink.addByte sink byte with
    | (.error e, sink) => ⟨.error e, reports, source, sink⟩
    | (.ok (), sink) =>
      let after := w'.advance 1
      let stats := stats.addLiteral 1
      c.run source after sink hash none stats
        (reportStep reports w'.position after.position stats.copied)
termination_by w.unread
decreasing_by
  · have hl := (looksAhead_next _h).unread_le
    have ha := le_available_next _h (by simp)
    have hb : 0 < c.blockSize := c.table.blockSize_pos
    have hn := found.le_length
    have := TargetWindow.unread_advance (w := w') (n := found.length) (by omega) (by omega)
    omega
  · have hl := (looksAhead_next _h).unread_le
    have ha := le_available_next _h (by simp)
    have hb : 0 < c.blockSize := c.table.blockSize_pos
    have := TargetWindow.unread_advance (w := w') (n := 1) (by omega) (by omega)
    omega

/-- Describes a target. -/
def describe (c : Search) (source : σ) (target : ρ) (sink : κ) : RunOutcome σ κ :=
  c.run source (.ofReader target (TargetWindow.initialCapacity c.blockSize)) sink none none {} #[]

end Search

end BinaryDelta
