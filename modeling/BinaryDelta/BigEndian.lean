import BinaryDelta.Bytes
import BinaryDelta.Stream.Reader

/-!
# Big-endian fields

Numbers of a fixed width, the most significant byte first.

* `bigEndian` writes the low bytes of a natural, `ofBigEndian` reads a byte string as a natural.
* `ByteReader.readField` reads one field from a reader.

Results:
* `ofBigEndian_bigEndian`: reading back a field gives the number modulo the field's range.
-/

namespace BinaryDelta

/-- The number of values that a field of so many bytes can take. -/
def fieldRange : Nat → Nat
  | 0 => 1
  | width + 1 => fieldRange width * 256

/-- The low `width` bytes of `n`, most significant first. -/
def bigEndian : Nat → Nat → List UInt8
  | 0, _ => []
  | width + 1, n => UInt8.ofNat (n / fieldRange width) :: bigEndian width n

/-- The number that a byte string spells, most significant byte first. -/
def ofBigEndian (bytes : List UInt8) : Nat :=
  bytes.foldl (fun n byte => n * 256 + byte.toNat) 0

@[simp] theorem length_bigEndian (width n : Nat) : (bigEndian width n).length = width := by
  induction width with
  | zero => rfl
  | succ width ih => simp [bigEndian, ih]

theorem foldl_bigEndian (width n acc : Nat) :
    (bigEndian width n).foldl (fun m byte => m * 256 + byte.toNat) acc =
      acc * fieldRange width + n % fieldRange width := by
  induction width generalizing acc with
  | zero => simp [bigEndian, fieldRange, Nat.mod_one]
  | succ width ih =>
    have h : n % fieldRange (width + 1) =
        (n / fieldRange width % 256) * fieldRange width + n % fieldRange width := by
      rw [fieldRange, Nat.mod_mul, Nat.add_comm, Nat.mul_comm (fieldRange width)]
    rw [bigEndian, List.foldl_cons, ih, h, UInt8.toNat_ofNat', Nat.add_mul, Nat.add_assoc]
    congr 1
    rw [Nat.mul_assoc, Nat.mul_comm 256, fieldRange]

/-- Reading back a field gives the number modulo the field's range. -/
theorem ofBigEndian_bigEndian (width n : Nat) :
    ofBigEndian (bigEndian width n) = n % fieldRange width := by
  rw [ofBigEndian, foldl_bigEndian, Nat.zero_mul, Nat.zero_add]

/-- Reads one big-endian field of `width` bytes. -/
def ByteReader.readField {ρ : Type} [ByteReader ρ] (r : ρ) (width : Nat) :
    Except Shortfall Nat × ρ :=
  match ByteReader.readExact r width with
  | (.error shortfall, r) => (.error shortfall, r)
  | (.ok bytes, r) => (.ok (ofBigEndian bytes.data.toList), r)

end BinaryDelta
