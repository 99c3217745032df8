import BinaryDelta.Engine.Match
import Mathlib.Algebra.GroupWithZero.Nat

/-!
# Comparing by strides

Two byte strings are compared by 16 bytes at a time, then by words of eight, and byte by byte only
where a stride shows a difference or does not fit. A stride finds no difference itself. It passes
bytes that are the same, so the comparison byte by byte finds the same place whether it starts in
front of the stride or behind it. All that this needs of a stride is that what it takes for the same
is the same, and for words that a word tells all its bytes.

Results:
* `sameBytes_of_wordOf_eq`: equal words are words of the same bytes.
* `firstDifference_passSame`: passing strides leaves the first difference where it is.
* **`agreement_eq`**: the strides find the first difference.
-/

namespace BinaryDelta

theorem byteOf_of_lt {bytes : ByteArray} {i : Nat} (h : i < bytes.size) :
    byteOf bytes i = bytes[i] :=
  dif_pos h

/-! ## Words -/

theorem toNat_wordOf_succ_le (bytes : ByteArray) (i count : Nat) :
    (wordOf bytes i (count + 1)).toNat ≤
      (byteOf bytes i).toNat + 256 * (wordOf bytes (i + 1) count).toNat := by
  rw [wordOf, UInt64.toNat_add, UInt64.toNat_mul, UInt8.toNat_toUInt64]
  exact Nat.le_trans (Nat.mod_le _ _) (Nat.add_le_add_left (Nat.mod_le _ _) _)

theorem toNat_wordOf_lt (bytes : ByteArray) (i count : Nat) :
    (wordOf bytes i count).toNat < 256 ^ count := by
  induction count generalizing i with
  | zero => exact Nat.one_pos
  | succ count ih =>
    have hrest := ih (i + 1)
    have hbyte := (byteOf bytes i).toNat_lt
    have hle := toNat_wordOf_succ_le bytes i count
    rw [Nat.pow_succ]
    omega

/-- Up to eight bytes, nothing of a word is lost. -/
theorem toNat_wordOf_succ (bytes : ByteArray) (i : Nat) {count : Nat} (h : count < 8) :
    (wordOf bytes i (count + 1)).toNat =
      (byteOf bytes i).toNat + 256 * (wordOf bytes (i + 1) count).toNat := by
  have hrest := toNat_wordOf_lt bytes (i + 1) count
  have hbyte := (byteOf bytes i).toNat_lt
  have hpow : 256 ^ count ≤ 256 ^ 7 := Nat.pow_le_pow_right (by decide) (Nat.le_of_lt_succ h)
  rw [wordOf, UInt64.toNat_add, UInt64.toNat_mul, UInt8.toNat_toUInt64]
  show ((byteOf bytes i).toNat + 256 * (wordOf bytes (i + 1) count).toNat % 2 ^ 64) % 2 ^ 64 = _
  omega

/-- Equal words are words of the same bytes. -/
theorem sameBytes_of_wordOf_eq {a b : ByteArray} {i j count : Nat} (hc : count ≤ 8)
    (h : wordOf a i count = wordOf b j count) : sameBytes a b i j count = true := by
  induction count generalizing i j with
  | zero => rfl
  | succ count ih =>
    have hnat := congrArg UInt64.toNat h
    rw [toNat_wordOf_succ a i hc, toNat_wordOf_succ b j hc] at hnat
    have ha := (byteOf a i).toNat_lt
    have hb := (byteOf b j).toNat_lt
    have hbyte : byteOf a i = byteOf b j := UInt8.toNat_inj.mp (by omega)
    have hrest : wordOf a (i + 1) count = wordOf b (j + 1) count := UInt64.toNat_inj.mp (by omega)
    rw [sameBytes, ih (Nat.le_of_succ_le hc) hrest, Bool.and_true]
    exact beq_iff_eq.mpr hbyte

/-! ## Strides -/

variable {a b : ByteArray} {shift i : Nat}

/-- A byte that is the same is passed. -/
theorem firstDifference_succ (ha : i < a.size) (hb : shift + i < b.size)
    (h : byteOf a i = byteOf b (shift + i)) :
    firstDifference a b shift (i + 1) = firstDifference a b shift i := by
  rw [byteOf_of_lt ha, byteOf_of_lt hb] at h
  rw [firstDifference.eq_def a b shift i, dif_pos ⟨ha, hb⟩, if_pos h]

/-- Bytes that are the same are passed. -/
theorem firstDifference_add {count : Nat} (ha : i + count ≤ a.size)
    (hb : shift + (i + count) ≤ b.size) (h : sameBytes a b i (shift + i) count = true) :
    firstDifference a b shift (i + count) = firstDifference a b shift i := by
  induction count generalizing i with
  | zero => rfl
  | succ count ih =>
    rw [sameBytes, Bool.and_eq_true, beq_iff_eq] at h
    obtain ⟨hbyte, hrest⟩ := h
    have hnext : i + (count + 1) = i + 1 + count := by omega
    rw [hnext, ih (by omega) (by omega) hrest, firstDifference_succ (by omega) (by omega) hbyte]

/-- Passing strides leaves the first difference where it is. -/
theorem firstDifference_passSame {stride limit : Nat} {same : Nat → Bool} (ha : limit ≤ a.size)
    (hb : limit ≤ b.size - shift)
    (hsame : ∀ i, same i = true → sameBytes a b i (shift + i) stride = true) (i : Nat) :
    firstDifference a b shift (passSame stride limit same i) = firstDifference a b shift i := by
  fun_induction passSame stride limit same i with
  | case1 i h ih =>
    obtain ⟨hpos, hfit, hs⟩ := h
    rw [ih]
    exact firstDifference_add (by omega) (by omega) (hsame i hs)
  | case2 i h => rfl

/-- The strides find the first difference. -/
theorem agreement_eq (a b : ByteArray) (shift : Nat) :
    agreement a b shift = firstDifference a b shift 0 := by
  have ha : min a.size (b.size - shift) ≤ a.size := Nat.min_le_left _ _
  have hb : min a.size (b.size - shift) ≤ b.size - shift := Nat.min_le_right _ _
  unfold agreement
  rw [firstDifference_passSame ha hb, firstDifference_passSame ha hb]
  · exact fun i hs => hs
  · exact fun i hs => sameBytes_of_wordOf_eq (Nat.le_refl 8) (eq_of_beq hs)

end BinaryDelta
