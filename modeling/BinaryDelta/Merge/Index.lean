import BinaryDelta.Source.Cursor
import BinaryDelta.Wire.Offset
import BinaryDelta.Wire.Record

/-!
# Indexing patches

Model of `PatchIndex`, with `IndexOptions` and `IndexEntry`: `build` and `build_once`.

A patch index remembers some of the records of a patch: where their output begins in the target,
where they are in the patch, and from which offset base they are decoded. So a reader that is only
interested in a range of the target can start near it.

Every `interval`-th record is kept, the end of the patch counting as one, except where its output
begins at the same target offset as that of the one kept before. If that makes more entries than are
wanted, the interval is doubled and the patch is scanned again, a limited number of times.

Out of scope: patches that describe 2^64 bytes or more. The sums of their lengths are naturals here.
-/

namespace BinaryDelta

/-- How densely a patch is indexed. -/
structure IndexOptions where
  /-- The number of records from one entry to the next. -/
  interval : Nat := 200
  /-- The most entries wanted, if there is a limit. -/
  maxEntries : Option Nat := none
  /-- The most scans made. -/
  maxAttempts : Nat := 8
  deriving Repr, DecidableEq

/-- A place to start reading a patch. -/
structure IndexEntry where
  /-- Where the output of the record begins. -/
  targetOffset : Nat
  /-- Where the record is in the patch. -/
  wireOffset : Nat
  /-- The offset base in front of the record. -/
  baseOffset : Nat
  deriving Repr, DecidableEq

/-- Places to start reading a patch, in ascending order. -/
structure PatchIndex where
  entries : Array IndexEntry
  /-- The number of records from one entry to the next. -/
  interval : Nat
  /-- The length of the target that the patch describes. -/
  targetLength : Nat
  mode : Mode
  deriving Repr, DecidableEq

namespace PatchIndex

/-- The longest interval. -/
def maxInterval : Nat := 0xffffffffffffffff

/-! ## Scanning -/

/-- Is a record to be kept, given its number, where its output begins and what has been kept? -/
def isSample (interval : Nat) (entries : Array IndexEntry) (number targetOffset : Nat) : Bool :=
  number % interval == 0 && !entries.back?.any (·.targetOffset == targetOffset)

variable {σ : Type} [Source σ]

/-- Scans a patch from the record with this number on, and answers with the index, or with `none` if
more entries would be kept than are wanted. -/
def scanFrom (interval : Nat) (maxEntries : Option Nat) (patch : SourceCursor σ) (base : OffsetBase)
    (number targetOffset : Nat) (entries : Array IndexEntry) :
    Except DeltaError (Option PatchIndex) × σ :=
  match _h : readRecord base.mode patch patch.position with
  | (.error e, patch) => (.error e, patch.source)
  | (.ok (record, _), patch') =>
    let keep := isSample interval entries number targetOffset
    if keep && maxEntries.any (· ≤ entries.size) then (.ok none, patch'.source)
    else
      let entries :=
        if keep then entries.push ⟨targetOffset, patch.position, base.current⟩ else entries
      match record with
      | .eof => (.ok (some ⟨entries, interval, targetOffset, base.mode⟩), patch'.source)
      | .literal length =>
        let next := patch'.position + length
        if Source.length patch'.source < next then (.error .unexpectedEndOfData, patch'.source)
        else
          scanFrom interval maxEntries ⟨patch'.source, next⟩ base (number + 1)
            (targetOffset + length) entries
      | .copy value length =>
        match base.decode value with
        | (.error e, _) => (.error e, patch'.source)
        | (.ok _, base) =>
          scanFrom interval maxEntries patch' base (number + 1) (targetOffset + length) entries
termination_by ByteReader.remaining patch
decreasing_by
  · have := remaining_of_readRecord _h
    have h : ByteReader.remaining (⟨patch'.source, next⟩ : SourceCursor σ) ≤
        ByteReader.remaining patch' :=
      Nat.sub_le_sub_left (Nat.le_add_right _ _) _
    exact Nat.lt_of_le_of_lt h (by omega)
  · have := remaining_of_readRecord _h
    omega

/-- Scans a patch. -/
def scan (interval : Nat) (maxEntries : Option Nat) (patch : σ) :
    Except DeltaError (Option PatchIndex) × σ :=
  match readPreamble (⟨patch, 0⟩ : SourceCursor σ) with
  | (.error e, patch) => (.error e, patch.source)
  | (.ok mode, patch) => scanFrom interval maxEntries patch { mode } 0 0 #[]

/-- Scans a patch, with ever longer intervals, at most so many more times. -/
def buildFrom (options : IndexOptions) (interval : Nat) (patch : σ) :
    Nat → Except DeltaError PatchIndex × σ
  | 0 => (.error (.indexExhausted options.maxAttempts interval), patch)
  | attempts + 1 =>
    match scan interval options.maxEntries patch with
    | (.error e, patch) => (.error e, patch)
    | (.ok (some index), patch) => (.ok index, patch)
    | (.ok none, patch) =>
      if attempts = 0 then (.error (.indexExhausted options.maxAttempts interval), patch)
      else buildFrom options (min (2 * interval) maxInterval) patch attempts

/-- Indexes a patch. -/
def build (patch : σ) (options : IndexOptions) : Except DeltaError PatchIndex × σ :=
  if options.interval = 0 ∨ options.maxAttempts = 0 then
    (.error (.invalidConfig .indexSampling), patch)
  else buildFrom options options.interval patch options.maxAttempts

/-! ## Looking up -/

/-- Halves the `size` places from `first` until none is left: the first place whose entry begins
behind `offset`. -/
def firstBehind (entries : Array IndexEntry) (offset first size : Nat) : Nat :=
  if size = 0 then first
  else
    let half := size / 2
    match entries[first + half]? with
    | none => first
    | some entry =>
      if entry.targetOffset ≤ offset then
        firstBehind entries offset (first + half + 1) (size - half - 1)
      else firstBehind entries offset first half
termination_by size

/-- The last entry that does not begin behind `offset`, or else the first entry. -/
def entryFor? (index : PatchIndex) (offset : Nat) : Option IndexEntry :=
  index.entries[firstBehind index.entries offset 0 index.entries.size - 1]?

end PatchIndex

end BinaryDelta
