import BinaryDelta.Bytes
import BinaryDelta.Stream.Output

/-!
# What an output has taken

What an output does with its bytes is its own affair. A `Reliable` relation between outputs and the
bytes that they have taken is one under which every write and every flush succeeds, so that the
bytes are those of all the writes, in order. Under a `Recording` relation a write may fail, and only
one that succeeds is known to have taken its bytes; under a `Faithful` one the same goes for
flushes.

Results:
* `Reliable.writeParts`, `Faithful.writeParts`: parts that are written one after the other are all
  taken, if nothing fails.
* `reliable_byteArray`: a byte string takes everything.
-/

namespace BinaryDelta.ByteOutput

variable {ω : Type} [ByteOutput ω]

/-- A relation between outputs and the bytes taken under which nothing fails. -/
structure Reliable (R : ω → List UInt8 → Prop) : Prop where
  write : ∀ {out : ω} {taken : List UInt8}, R out taken → ∀ bytes : ByteArray,
    ∃ out', ByteOutput.write out bytes = (.ok (), out') ∧ R out' (taken ++ bytes.data.toList)
  flush : ∀ {out : ω} {taken : List UInt8}, R out taken →
    ∃ out', ByteOutput.flush out = (.ok (), out') ∧ R out' taken

/-- A relation between outputs and the bytes taken that a write keeps, if it succeeds. -/
structure Recording (R : ω → List UInt8 → Prop) : Prop where
  write : ∀ {out out' : ω} {taken : List UInt8} {bytes : ByteArray}, R out taken →
    ByteOutput.write out bytes = (.ok (), out') → R out' (taken ++ bytes.data.toList)

/-- A relation between outputs and the bytes taken that is kept by whatever succeeds. -/
structure Faithful (R : ω → List UInt8 → Prop) : Prop extends Recording R where
  flush : ∀ {out out' : ω} {taken : List UInt8}, R out taken →
    ByteOutput.flush out = (.ok (), out') → R out' taken

namespace Reliable

variable {R : ω → List UInt8 → Prop}

/-- Parts that are written one after the other are all taken. -/
theorem writeParts (k : Reliable R) {out : ω} {taken : List UInt8} (h : R out taken)
    (parts : List ByteArray) :
    ∃ out', ByteOutput.writeParts out parts = (.ok (), out') ∧
      R out' (taken ++ parts.flatMap (·.data.toList)) := by
  induction parts generalizing out taken with
  | nil => exact ⟨out, rfl, by rwa [List.flatMap_nil, List.append_nil]⟩
  | cons part parts ih =>
    obtain ⟨out₁, h₁, ht₁⟩ := k.write h part
    obtain ⟨out₂, h₂, ht₂⟩ := ih ht₁
    refine ⟨out₂, by rw [ByteOutput.writeParts, h₁]; exact h₂, ?_⟩
    rwa [List.flatMap_cons, ← List.append_assoc]

/-- Where nothing fails, every success counts. -/
theorem faithful (k : Reliable R) : Faithful R where
  write := by
    intro out out' taken bytes h hw
    obtain ⟨_, hw', h'⟩ := k.write h bytes
    rw [hw] at hw'
    cases hw'
    exact h'
  flush := by
    intro out out' taken h hf
    obtain ⟨_, hf', h'⟩ := k.flush h
    rw [hf] at hf'
    cases hf'
    exact h'

end Reliable

/-- If no part fails, all are taken. -/
theorem Faithful.writeParts {R : ω → List UInt8 → Prop} (k : Faithful R) {out out' : ω}
    {taken : List UInt8} (h : R out taken) {parts : List ByteArray}
    (hw : ByteOutput.writeParts out parts = (.ok (), out')) :
    R out' (taken ++ parts.flatMap (·.data.toList)) := by
  induction parts generalizing out taken with
  | nil =>
    cases hw
    rwa [List.flatMap_nil, List.append_nil]
  | cons part parts ih =>
    rw [ByteOutput.writeParts] at hw
    cases hp : ByteOutput.write out part with
    | mk answer out₁ =>
      rw [hp] at hw
      cases answer with
      | error fault => cases hw
      | ok done =>
        have hrest := ih (k.write h hp) hw
        rwa [List.flatMap_cons, ← List.append_assoc]

/-- A byte string takes everything. -/
theorem reliable_byteArray :
    Reliable fun (out : ByteArray) (taken : List UInt8) => out.data.toList = taken where
  write := by
    rintro out taken rfl bytes
    exact ⟨out ++ bytes, rfl, toList_append out bytes⟩
  flush := by
    rintro out taken rfl
    exact ⟨out, rfl, rfl⟩

theorem recording_byteArray :
    Recording fun (out : ByteArray) (taken : List UInt8) => out.data.toList = taken where
  write := by
    rintro out _ taken bytes rfl hw
    cases hw
    exact toList_append out bytes

end BinaryDelta.ByteOutput
