import BinaryDelta.Wire.Mode

/-!
# Stored offsets

Model of `OffsetState`: `encode` and `decode`.

The two directions between absolute copy offsets and what a stream stores for them. In differential
mode that depends on the previous copy, which `OffsetBase` remembers; in normal mode it stays as it
is. Stored values are 64-bit signed numbers, and offsets 64-bit unsigned ones.

* `Reaches` says which offsets a stored value can lead to.

Results:
* `decode_encode`: what an encoder stores for these, a decoder with the same base reads back.
-/

namespace BinaryDelta

/-- The mode of a stream and the offset of its previous copy. -/
structure OffsetBase where
  mode : Mode
  current : Nat := 0
  deriving Repr, DecidableEq

/-- The signed number that has the same low 64 bits. -/
def toSigned64 (value : Int) : Int := Int.bmod value 0x10000000000000000

namespace OffsetBase

/-- The value stored for an absolute offset. -/
def encode (b : OffsetBase) (offset : Nat) : Int × OffsetBase :=
  match b.mode with
  | .normal => (toSigned64 offset, b)
  | .differential => (toSigned64 (offset - b.current), { b with current := offset })

/-- The absolute offset of a stored value. -/
def decode (b : OffsetBase) (value : Int) : Except DeltaError Nat × OffsetBase :=
  match b.mode with
  | .normal => (if 0 ≤ value then .ok value.toNat else .error (.invalidOffset value 0), b)
  | .differential =>
    let offset := b.current + value
    if 0 ≤ offset ∧ offset < 0x10000000000000000 then
      (.ok offset.toNat, { b with current := offset.toNat })
    else (.error (.invalidOffset value b.current), b)

/-- Can the offset be stored? In differential mode it is the distance from the previous copy that
has to be a 64-bit signed number. -/
def Reaches (b : OffsetBase) (offset : Nat) : Prop :=
  match b.mode with
  | .normal => offset < 0x8000000000000000
  | .differential => offset < 0x10000000000000000 ∧
      -0x8000000000000000 ≤ (offset : Int) - b.current ∧
      (offset : Int) - b.current < 0x8000000000000000

theorem reaches_normal {base offset : Nat} :
    Reaches ⟨.normal, base⟩ offset ↔ offset < 0x8000000000000000 := Iff.rfl

theorem reaches_differential {base offset : Nat} : Reaches ⟨.differential, base⟩ offset ↔
    offset < 0x10000000000000000 ∧ -0x8000000000000000 ≤ (offset : Int) - base ∧
      (offset : Int) - base < 0x8000000000000000 := Iff.rfl

/-- Offsets below 2⁶³ can be stored behind each other. -/
theorem reaches_of_lt {b : OffsetBase} {offset : Nat} (hb : b.current < 0x8000000000000000)
    (ho : offset < 0x8000000000000000) : b.Reaches offset := by
  rcases b with ⟨mode, current⟩
  dsimp only at hb
  cases mode with
  | normal => exact ho
  | differential => exact reaches_differential.mpr ⟨by omega, by omega, by omega⟩

/-- What is stored is then the offset or the distance itself. -/
theorem fst_encode {b : OffsetBase} {offset : Nat} (h : b.Reaches offset) :
    (b.encode offset).1 = match b.mode with
      | .normal => (offset : Int)
      | .differential => offset - b.current := by
  rcases b with ⟨mode, current⟩
  cases mode with
  | normal =>
    have hlt := reaches_normal.mp h
    simp only [encode, toSigned64]
    exact Int.bmod_eq_of_le (by omega) (by omega)
  | differential =>
    obtain ⟨-, hlow, hhigh⟩ := reaches_differential.mp h
    simp only [encode, toSigned64]
    exact Int.bmod_eq_of_le (by omega) (by omega)

/-- What an encoder stores, a decoder with the same base reads back. -/
theorem decode_encode {b : OffsetBase} {offset : Nat} (h : b.Reaches offset) :
    b.decode (b.encode offset).1 = (.ok offset, (b.encode offset).2) := by
  rw [fst_encode h]
  rcases b with ⟨mode, current⟩
  cases mode with
  | normal => simp only [encode, decode, Int.natCast_nonneg, if_true, Int.toNat_natCast]
  | differential =>
    have hlt := (reaches_differential.mp h).1
    have hsum : (current : Int) + (offset - current) = offset := by omega
    simp only [encode, decode, hsum, Int.toNat_natCast]
    rw [if_pos ⟨by omega, by omega⟩]

end OffsetBase

end BinaryDelta
