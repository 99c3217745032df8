import BinaryDelta.Codec
import BinaryDelta.Proofs.Patch.Convert
import BinaryDelta.Proofs.Source.Holding
import BinaryDelta.Proofs.Stream.Taking

/-!
# What applying a patch writes

A rebuilder over a source that holds a byte string, and an output that never fails, writes what the
instructions rebuild. It fails where they reach outside the source, and only there.

Results:
* `Rebuilder.feed_of_rebuilds`: what is written.
* `describes_or_fails`, `apply_of_fails`: what goes wrong first otherwise, and that this is the
  answer.
* `decode_eq_ok_iff`: a patch is accepted over a source if it spells instructions up to the end
  marker that rebuild a target over it, and that is the answer.
-/

namespace BinaryDelta

/-! ## Copies that reach behind the source -/

/-- The error of a copy that reaches behind a source of this length. The pieces in front of the one
that comes up short are all there. -/
def shortfall (size offset length : Nat) : DeltaError :=
  let whole := pieceSize * ((size - offset) / pieceSize)
  .unexpectedEndOfSource (offset + whole) (min (length - whole) pieceSize - (size - offset - whole))

/-- A first piece that is all there does not matter. -/
theorem shortfall_of_le {size offset : Nat} (length : Nat) (h : offset + pieceSize ≤ size) :
    shortfall size offset length = shortfall size (offset + pieceSize) (length - pieceSize) := by
  have hpiece : 0 < pieceSize := by decide
  unfold shortfall
  -- the numeral behind `pieceSize` must not be unfolded
  generalize pieceSize = piece at h hpiece ⊢
  have hq : (size - offset) / piece = (size - (offset + piece)) / piece + 1 := by
    rw [Nat.div_eq_sub_div hpiece (by omega), Nat.sub_sub]
  rw [hq, Nat.mul_add_one]
  generalize piece * ((size - (offset + piece)) / piece) = whole
  have hposition : offset + (whole + piece) = offset + piece + whole := by omega
  have hlength : length - (whole + piece) = length - piece - whole := by omega
  have havailable : size - offset - (whole + piece) = size - (offset + piece) - whole := by omega
  simp only [hposition, hlength, havailable]

theorem shortfall_of_lt {size offset length : Nat} (h : size < offset + min length pieceSize) :
    shortfall size offset length =
      .unexpectedEndOfSource offset (min length pieceSize - (size - offset)) := by
  have hpiece : 0 < pieceSize := by decide
  have hq : (size - offset) / pieceSize = 0 := Nat.div_eq_of_lt (by omega)
  simp only [shortfall, hq, Nat.mul_zero, Nat.add_zero, Nat.sub_zero]

namespace Rebuilder

variable {σ ω : Type} [ByteOutput ω] {H : σ → Prop} {source : List UInt8}
  {R : ω → List UInt8 → Prop}

/-- The rebuilder reads this source and has written these bytes. -/
structure Has (H : σ → Prop) (R : ω → List UInt8 → Prop) (r : Rebuilder σ ω)
    (written : List UInt8) : Prop where
  holds : H r.source
  wrote : R r.output written

variable {r : Rebuilder σ ω} {written : List UInt8}

/-- Bytes are written as they are. -/
theorem write_eq (o : ByteOutput.Reliable R) (h : Has H R r written) (bytes : ByteArray) :
    ∃ r', r.write bytes = (.ok (), r') ∧ Has H R r' (written ++ bytes.data.toList) := by
  rcases r with ⟨src, out⟩
  obtain ⟨out', hw, ht⟩ := o.write h.wrote bytes
  exact ⟨⟨src, out'⟩, by rw [write, hw], h.holds, ht⟩

theorem flush_eq (o : ByteOutput.Reliable R) (h : Has H R r written) :
    ∃ r', r.flush = (.ok (), r') ∧ Has H R r' written := by
  rcases r with ⟨src, out⟩
  obtain ⟨out', hw, ht⟩ := o.flush h.wrote
  exact ⟨⟨src, out'⟩, by rw [flush, hw], h.holds, ht⟩

variable [Source σ]

theorem take_min_append (bytes : List UInt8) (n size : Nat) :
    bytes.take (min n size) ++ (bytes.drop size).take (n - size) = bytes.take n := by
  by_cases h : n ≤ size
  · rw [Nat.min_eq_left h, Nat.sub_eq_zero_of_le h, List.take_zero, List.append_nil]
  · rw [Nat.min_eq_right (by omega), ← List.take_add, Nat.add_sub_cancel' (by omega)]

/-- A copy that lies in the source writes its range. -/
theorem copyRange_eq (k : Source.Holding H source) (o : ByteOutput.Reliable R)
    (h : Has H R r written) {offset length : Nat}
    (hin : length = 0 ∨ offset + length ≤ source.length) :
    ∃ r', r.copyRange offset length = (.ok (), r') ∧
      Has H R r' (written ++ (source.drop offset).take length) := by
  have hsize : 0 < pieceSize := by decide
  induction length using Nat.strongRecOn generalizing r offset written with
  | _ length ih =>
    rcases r with ⟨src, out⟩
    by_cases h₀ : length = 0
    · subst h₀
      exact ⟨⟨src, out⟩, by rw [copyRange, if_pos rfl], by rwa [List.take_zero, List.append_nil]⟩
    · have hle : offset + length ≤ source.length := hin.resolve_left h₀
      obtain ⟨src', hs, hs'⟩ := k.readExactAt h.holds offset
        (n := min length pieceSize) (by omega)
      obtain ⟨out', hw, ht⟩ := o.write h.wrote (packBytes ((source.drop offset).take
        (min length pieceSize)))
      have hin' : length - pieceSize = 0 ∨
          offset + pieceSize + (length - pieceSize) ≤ source.length := by omega
      obtain ⟨r', hc, hr'⟩ := ih (length - pieceSize) (by omega) (r := ⟨src', out'⟩) ⟨hs', ht⟩ hin'
      refine ⟨r', ?_, ?_⟩
      · rw [copyRange, if_neg h₀, Overlap.catchUp_apart, hs]
        simp only [hw]
        exact hc
      · rwa [data_packBytes, List.toList_toArray, List.append_assoc, ← List.drop_drop,
          take_min_append] at hr'

/-- Any other copy fails at the first piece that is not all there. -/
theorem copyRange_short (k : Source.Holding H source) (o : ByteOutput.Reliable R)
    (h : Has H R r written) {offset length : Nat} (h₀ : length ≠ 0)
    (hout : source.length < offset + length) :
    ∃ r', r.copyRange offset length = (.error (shortfall source.length offset length), r') := by
  have hsize : 0 < pieceSize := by decide
  induction length using Nat.strongRecOn generalizing r offset written with
  | _ length ih =>
    rcases r with ⟨src, out⟩
    by_cases hle : offset + min length pieceSize ≤ source.length
    · obtain ⟨src', hs, hs'⟩ := k.readExactAt h.holds offset hle
      obtain ⟨out', hw, ht⟩ := o.write h.wrote (packBytes ((source.drop offset).take
        (min length pieceSize)))
      have hpiece : offset + pieceSize ≤ source.length := by omega
      have hout' : source.length < offset + pieceSize + (length - pieceSize) := by omega
      obtain ⟨r', hc⟩ := ih (length - pieceSize) (by omega) (r := ⟨src', out'⟩) ⟨hs', ht⟩
        (by omega) hout'
      refine ⟨r', ?_⟩
      rw [copyRange, if_neg h₀, Overlap.catchUp_apart, hs, shortfall_of_le length hpiece]
      simp only [hw]
      exact hc
    · obtain ⟨src', hs, -⟩ := k.readExactAt_short h.holds offset
        (n := min length pieceSize) (by omega) (by omega)
      refine ⟨⟨src', out⟩, ?_⟩
      rw [copyRange, if_neg h₀, Overlap.catchUp_apart, hs, shortfall_of_lt (by omega)]

/-- A call whose instructions rebuild a target writes that target. -/
theorem act_of_rebuilds (k : Source.Holding H source) (o : ByteOutput.Reliable R)
    (h : Has H R r written) {step : SinkStep} {target : List UInt8}
    (ht : Rebuilds source step.instructions target) :
    ∃ r', step.act r = (.ok (), r') ∧ Has H R r' (written ++ target) := by
  cases step with
  | copy offset length =>
    obtain ⟨hin, rfl⟩ := rebuilds_copy_iff.mp ht
    exact copyRange_eq k o h hin
  | byte value =>
    obtain rfl := ht.unique (rebuilds_literal _)
    exact write_eq o h _
  | literal bytes =>
    obtain rfl := ht.unique (rebuilds_literal _)
    exact write_eq o h bytes
  | flush =>
    obtain rfl := ht.unique rebuilds_nil
    obtain ⟨r', hf, hr'⟩ := flush_eq o h
    exact ⟨r', hf, by rwa [List.append_nil]⟩

/-- Calls that rebuild a target write it. -/
theorem feed_of_rebuilds (k : Source.Holding H source) (o : ByteOutput.Reliable R)
    (h : Has H R r written) {steps : List SinkStep} {target : List UInt8}
    (ht : Rebuilds source (steps.flatMap SinkStep.instructions) target) :
    ∃ r', feed r steps = (.ok (), r') ∧ Has H R r' (written ++ target) := by
  induction steps generalizing r written target with
  | nil =>
    obtain rfl := ht.unique rebuilds_nil
    exact ⟨r, rfl, by rwa [List.append_nil]⟩
  | cons step steps ih =>
    rw [List.flatMap_cons] at ht
    obtain ⟨front, back, rfl, hf, hb⟩ := rebuilds_append_iff.mp ht
    obtain ⟨r₁, h₁, hr₁⟩ := act_of_rebuilds k o h hf
    obtain ⟨r₂, h₂, hr₂⟩ := ih hr₁ hb
    exact ⟨r₂, by rw [feed_cons, h₁, andThen_ok, h₂], by rwa [← List.append_assoc]⟩

end Rebuilder

/-! ## Whole patches -/

/-- The patch describes this target over this source: it spells instructions up to the end marker
that rebuild it. -/
def Describes (patch source target : List UInt8) : Prop :=
  ∃ s rest, spellPatch? patch = some s ∧ s.ending = .marker rest ∧
    Rebuilds source s.instructions target

/-- The first thing that goes wrong with the patch over this source, from front to back. -/
inductive Fails (patch source : List UInt8) : DeltaError → Prop
  /-- There is no preamble. -/
  | preamble : spellPatch? patch = none → Fails patch source .invalidMagic
  /-- A copy reaches outside the source, and no instruction in front of it does. -/
  | copy {s : Spelling} {front back : List Instruction} {offset length : Nat} :
      spellPatch? patch = some s → s.instructions = front ++ .copy offset length :: back →
      (∀ i ∈ front, i.InRange source.length) →
      ¬ (Instruction.copy offset length).InRange source.length →
      Fails patch source (shortfall source.length offset length)
  /-- The records end without a marker, and no instruction reaches outside the source. -/
  | ending {s : Spelling} {e : DeltaError} :
      spellPatch? patch = some s → s.ending.error? = some e →
      (∀ i ∈ s.instructions, i.InRange source.length) → Fails patch source e

/-- A patch describes a target over a source or goes wrong somewhere. -/
theorem describes_or_fails (patch source : List UInt8) :
    (∃ target, Describes patch source target) ∨ ∃ e, Fails patch source e := by
  cases hsp : spellPatch? patch with
  | none => exact .inr ⟨_, .preamble hsp⟩
  | some s =>
    cases hfind : s.instructions.find? fun i => !decide (i.InRange source.length) with
    | none =>
      have hall : ∀ i ∈ s.instructions, i.InRange source.length := by
        simpa [List.find?_eq_none] using hfind
      cases he : s.ending.error? with
      | none =>
        obtain ⟨rest, hend⟩ := Ending.error?_eq_none he
        exact .inl ⟨_, s, rest, hsp, hend, rebuilds_iff.mpr ⟨hall, rfl⟩⟩
      | some e => exact .inr ⟨e, .ending hsp he hall⟩
    | some i =>
      obtain ⟨hi, front, back, hs, hfront⟩ := List.find?_eq_some_iff_append.mp hfind
      replace hi : ¬ i.InRange source.length := by simpa using hi
      replace hfront : ∀ j ∈ front, j.InRange source.length := by simpa using hfront
      cases i with
      | copy offset length => exact .inr ⟨_, .copy hsp hs hfront hi⟩
      | literal bytes => exact absurd trivial hi

section Apply

variable {σ ρ ω : Type} [Source σ] [ByteReader ρ] [ByteOutput ω] {H : σ → Prop}
  {R : ω → List UInt8 → Prop} {patch source target taken : List UInt8}

/-- A patch that describes a target writes it. -/
theorem apply_of_describes (k : Source.Holding H source) (o : ByteOutput.Reliable R) (src : σ)
    (hs : H src) (r : ρ) (hr : ByteReader.Delivers r patch) (out : ω) (ho : R out taken)
    (ht : Describes patch source target) :
    ∃ rebuilt, apply src r out = (.ok target.length, rebuilt) ∧
      Rebuilder.Has H R rebuilt (taken ++ target) := by
  obtain ⟨s, rest, hsp, he, ht⟩ := ht
  have hreb := (rebuilds_congr (origins_flatMap_steps s.instructions)).mpr ht
  obtain ⟨r₁, h₁, hr₁⟩ := Rebuilder.feed_of_rebuilds k o (r := ⟨src, out⟩) ⟨hs, ho⟩ hreb
  obtain ⟨r₂, h₂, hr₂⟩ := Rebuilder.flush_eq o hr₁
  have hclose : InstructionSink.close r₁ = (.ok (), r₂) := h₂
  refine ⟨r₂, ?_, hr₂⟩
  rw [apply, convert_eq hr, hsp]
  simp only [Spelling.convey, Spelling.steps_of_marker he, h₁, he, Ending.error?, andThen_ok,
    hclose, Nat.zero_add, length_of_rebuilds ht]

/-- Instructions that stay in range are carried out. -/
theorem Rebuilder.feed_of_inRange (k : Source.Holding H source) (o : ByteOutput.Reliable R)
    {r : Rebuilder σ ω} (h : Has H R r taken) {is : List Instruction}
    (hin : ∀ i ∈ is, i.InRange source.length) :
    ∃ r', feed r (is.flatMap Instruction.steps) = (.ok (), r') ∧
      Has H R r' (taken ++ replay source is) :=
  feed_of_rebuilds k o h
    ((rebuilds_congr (origins_flatMap_steps is)).mpr (rebuilds_iff.mpr ⟨hin, rfl⟩))

/-- The pieces of a payload that is cut short are written. -/
theorem Rebuilder.feed_ending (k : Source.Holding H source) (o : ByteOutput.Reliable R)
    {r : Rebuilder σ ω} (h : Has H R r taken) (ending : Ending) :
    ∃ r', feed r ending.steps = (.ok (), r') := by
  have hlit : ∀ parts : List ByteArray, ∃ r', feed r (parts.map .literal) = (.ok (), r') := by
    intro parts
    have hreb : Rebuilds source ((parts.map SinkStep.literal).flatMap SinkStep.instructions)
        (replay source (parts.map .literal)) := by
      rw [instructions_literals]
      exact rebuilds_iff.mpr ⟨by simp [Instruction.InRange], rfl⟩
    obtain ⟨r', hf, -⟩ := feed_of_rebuilds k o h hreb
    exact ⟨r', hf⟩
  cases ending with
  | cutPayload available => exact hlit (fullPieces available)
  | marker rest => exact ⟨r, rfl⟩
  | cutRecord => exact ⟨r, rfl⟩
  | unresolved e => exact ⟨r, rfl⟩

/-- A patch that goes wrong fails with that error. -/
theorem apply_of_fails (k : Source.Holding H source) (o : ByteOutput.Reliable R) (src : σ)
    (hs : H src) (r : ρ) (hr : ByteReader.Delivers r patch) (out : ω) (ho : R out taken)
    {e : DeltaError} (hf : Fails patch source e) :
    ∃ rebuilt, apply src r out = (.error e, rebuilt) := by
  rw [apply, convert_eq hr]
  cases hf with
  | preamble hsp =>
    rw [hsp]
    exact ⟨_, rfl⟩
  | @copy s front back offset length hsp hi hfront hn =>
    obtain ⟨r₁, h₁, hr₁⟩ := Rebuilder.feed_of_inRange k o (r := ⟨src, out⟩) ⟨hs, ho⟩ hfront
    obtain ⟨h₀, hlt⟩ := not_or.mp hn
    obtain ⟨r₂, h₂⟩ := Rebuilder.copyRange_short k o hr₁ h₀ (Nat.lt_of_not_le hlt)
    have hact : SinkStep.act r₁ (.copy offset length) =
        (.error (shortfall source.length offset length), r₂) := h₂
    refine ⟨r₂, ?_⟩
    rw [hsp]
    simp only [Spelling.convey, Spelling.steps, hi, List.flatMap_append, List.flatMap_cons,
      Instruction.steps, List.append_assoc, List.singleton_append, feed_append, feed_cons, h₁,
      andThen_ok, hact, andThen_error]
  | @ending s e hsp he hin =>
    obtain ⟨r₁, h₁, hr₁⟩ := Rebuilder.feed_of_inRange k o (r := ⟨src, out⟩) ⟨hs, ho⟩ hin
    obtain ⟨r₂, h₂⟩ := Rebuilder.feed_ending k o hr₁ s.ending
    refine ⟨r₂, ?_⟩
    rw [hsp]
    simp only [Spelling.convey, Spelling.steps, feed_append, h₁, h₂, andThen_ok, he]

end Apply

/-! ## Byte strings -/

section Decode

variable {patch source : ByteArray}

theorem decode_of_describes {target : List UInt8}
    (h : Describes patch.data.toList source.data.toList target) :
    decode patch source = .ok (packBytes target) := by
  obtain ⟨rebuilt, ha, hb⟩ := apply_of_describes (MemoryStream.holding_bytes source)
    ByteOutput.reliable_byteArray ⟨source, 0⟩ rfl _ (MemoryStream.delivers ⟨patch, 0⟩)
    ByteArray.empty rfl h
  have hw : rebuilt.output.data.toList = target := hb.wrote
  rw [decode, ha, ← hw, packBytes_toList]

theorem decode_of_fails {e : DeltaError} (h : Fails patch.data.toList source.data.toList e) :
    decode patch source = .error e := by
  obtain ⟨rebuilt, ha⟩ := apply_of_fails (MemoryStream.holding_bytes source)
    ByteOutput.reliable_byteArray ⟨source, 0⟩ rfl _ (MemoryStream.delivers ⟨patch, 0⟩)
    ByteArray.empty rfl h
  rw [decode, ha]

end Decode

/-- A patch is accepted over a source if it describes a target over it, and that is the answer. -/
theorem decode_eq_ok_iff (patch source target : ByteArray) : decode patch source = .ok target ↔
    Describes patch.data.toList source.data.toList target.data.toList := by
  constructor
  · intro h
    rcases describes_or_fails patch.data.toList source.data.toList with ⟨target', ht⟩ | ⟨e, he⟩
    · rw [decode_of_describes ht] at h
      cases h
      simpa using ht
    · rw [decode_of_fails he] at h
      cases h
  · intro ht
    rw [decode_of_describes ht, packBytes_toList]

/-- A patch is rejected over a source with the first thing that goes wrong. -/
theorem decode_eq_error_iff (patch source : ByteArray) (e : DeltaError) :
    decode patch source = .error e ↔ Fails patch.data.toList source.data.toList e := by
  constructor
  · intro h
    rcases describes_or_fails patch.data.toList source.data.toList with ⟨target, ht⟩ | ⟨e', he⟩
    · rw [decode_of_describes ht] at h
      cases h
    · rw [decode_of_fails he] at h
      cases h
      exact he
  · exact decode_of_fails

end BinaryDelta
