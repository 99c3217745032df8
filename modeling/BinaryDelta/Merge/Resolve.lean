import BinaryDelta.Merge.Index
import BinaryDelta.Patch.Convert
import BinaryDelta.Sink.Collector
import BinaryDelta.Source.Overlap

/-!
# Resolving ranges of a target

Model of `resolve_into` and `resolve`.

`PatchIndex.resolveInto` hands a sink the instructions that produce a range of the target, without
those before and behind it. Records at the ends of the range are trimmed to it.

A copy that is trimmed in front begins further on. Nothing keeps the sum within 64 bits, since a
patch is indexed without a source, so it is checked here. Target offsets and positions in the patch
are sums of lengths that the patch describes, and are not bounded.
-/

namespace BinaryDelta

variable {σ κ : Type} [Source σ] [InstructionSink κ] [Overlap σ κ]

/-- Hands `n` bytes of the source from `position` to a sink as literals, in pieces. -/
def passBytes (source : σ) (sink : κ) (position n : Nat) : Except DeltaError Unit × σ × κ :=
  if n = 0 then (.ok (), source, sink)
  else
    match Source.readExactAtAfter ByteArray.empty source position (min n pieceSize) with
    | (.error fault, source) => (.error (.io fault), source, sink)
    | (.ok (.inr _), source) => (.error .unexpectedEndOfData, source, sink)
    | (.ok (.inl bytes), source) =>
      match InstructionSink.addLiteral sink bytes with
      | (.error e, sink) => (.error e, source, sink)
      | (.ok (), sink) =>
        passBytes (Overlap.catchUp source sink) sink (position + pieceSize) (n - pieceSize)
termination_by n
decreasing_by
  have : 0 < pieceSize := by decide
  omega

theorem length_passBytes (source : σ) (sink : κ) (position n : Nat) :
    Source.length (passBytes source sink position n).2.1 = Source.length source := by
  have hl {source source' : σ} {position n : Nat} {answer : Except Fault (ByteArray ⊕ Nat)}
      (h : Source.readExactAtAfter ByteArray.empty source position n = (answer, source')) :
      Source.length source' = Source.length source := by
    have hs := Source.span_readExactAtAfter ByteArray.empty source position n
    rw [h] at hs
    exact congrArg Span.length hs
  fun_induction passBytes source sink position n with
  | case1 => rfl
  | case2 source sink position n _ _ _ h => exact hl h
  | case3 source sink position n _ _ _ h => exact hl h
  | case4 source sink position n _ _ _ h => exact hl h
  | case5 source sink position n _ _ _ h _ _ ih => rw [ih, Overlap.length_catchUp, hl h]

theorem length_of_passBytes {source source' : σ} {sink sink' : κ} {position n : Nat}
    {answer : Except DeltaError Unit}
    (h : passBytes source sink position n = (answer, source', sink')) :
    Source.length source' = Source.length source := by
  rw [← length_passBytes source sink position n, h]

/-- A record that was read is behind the cursor. -/
theorem readRecord_ahead {patch patch' : SourceCursor σ} {mode : Mode} {position length : Nat}
    {record : Record} (h : readRecord mode patch position = (.ok (record, length), patch')) :
    Source.length patch'.source = Source.length patch.source ∧ patch.position < patch'.position ∧
      patch.position < Source.length patch.source := by
  have ha := SourceCursor.kept_ahead.readRecord mode patch position
  rw [h] at ha
  have hr : 0 < length ∧ length + (Source.extent patch'.source - patch'.position) ≤
    Source.extent patch.source - patch.position := remaining_of_readRecord h
  rw [Source.extent, ha.span_eq, ← Source.extent] at hr
  have hp : patch.position < patch'.position := by omega
  exact ⟨congrArg Span.length ha.span_eq, hp, ha.lt_length hp⟩

namespace PatchIndex

/-- Reads on at the record whose output begins at `position`, and hands on what falls between the
target offsets `first` and `stop`. -/
def resolveFrom (patch : SourceCursor σ) (sink : κ) (base : OffsetBase)
    (position first stop : Nat) : Except DeltaError Unit × σ × κ :=
  if stop ≤ position then (.ok (), patch.source, sink)
  else
    match _h : readRecord base.mode patch patch.position with
    | (.error e, patch) => (.error e, patch.source, sink)
    | (.ok (record, _), patch') =>
      let skip := first - position
      let count := min (record.outputLength) (stop - position) - skip
      match record with
      | .eof => (.error .unexpectedEndOfData, patch'.source, sink)
      | .literal length =>
        match _h' : passBytes patch'.source sink (patch'.position + skip) count with
        | (.error e, source, sink) => (.error e, source, sink)
        | (.ok (), source, sink) =>
          resolveFrom ⟨source, patch'.position + length⟩ sink base (position + length) first stop
      | .copy value length =>
        match base.decode value with
        | (.error e, _) => (.error e, patch'.source, sink)
        | (.ok offset, base) =>
          if count = 0 then resolveFrom patch' sink base (position + length) first stop
          else
            match checkedSum offset skip with
            | .error e => (.error e, patch'.source, sink)
            | .ok offset =>
              match InstructionSink.addCopy sink offset count with
              | (.error e, sink) => (.error e, patch'.source, sink)
              | (.ok (), sink) =>
                resolveFrom ⟨Overlap.catchUp patch'.source sink, patch'.position⟩ sink base
                  (position + length) first stop
termination_by Source.length patch.source - patch.position
decreasing_by
  · have := readRecord_ahead _h
    have := length_of_passBytes _h'
    omega
  · have := readRecord_ahead _h
    omega
  · have := readRecord_ahead _h
    have := Overlap.length_catchUp patch'.source sink
    omega

/-- Hands the instructions to a sink that produce the `length` bytes of the target from `offset`.
Copies keep their offsets; literal bytes are read from the patch. -/
def resolveInto (index : PatchIndex) (patch : σ) (offset length : Nat) (sink : κ) :
    Except DeltaError Unit × σ × κ :=
  if index.targetLength < offset + length then
    (.error (.rangeOutOfBounds offset length index.targetLength), patch, sink)
  else if length = 0 then (.ok (), patch, sink)
  else
    match index.entryFor? offset with
    | none => (.error .unexpectedEndOfData, patch, sink)
    | some entry =>
      resolveFrom ⟨patch, entry.wireOffset⟩ sink ⟨index.mode, entry.baseOffset⟩ entry.targetOffset
        offset (offset + length)

/-- The instructions that produce the `length` bytes of the target from `offset`. -/
def resolve (index : PatchIndex) (patch : σ) (offset length : Nat) :
    Except DeltaError (Array Instruction) × σ :=
  match index.resolveInto patch offset length ({} : Collector) with
  | (.error e, patch, _) => (.error e, patch)
  | (.ok (), patch, collector) => (.ok collector.instructions, patch)

end PatchIndex

end BinaryDelta
