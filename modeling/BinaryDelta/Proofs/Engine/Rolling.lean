import BinaryDelta.Proofs.Engine.Plan

/-!
# Rolling hashes

Both sums of a checksum are linear in what they start from: with `d` more in the low sum at the
start, the low sum ends with `d` more and the high sum with `d` more for every byte. So the byte
that leaves a window can be taken out of both sums without a look at the others, for a window of any
length.

A hash keeps the low halves of its sums only, and the sums themselves may wrap. Neither is in the
way: cutting a word down to its low half respects sums, differences and products, so the law above
holds of the halves because it holds of the 32-bit sums.

Results:
* `Checksum.lowOf_join`, `Checksum.highOf_join`: a hash tells the low halves of its sums.
* `Checksum.roll_hash`, `BlockTable.roll_hash`: rolled by one byte, the hash of a window becomes
  that of the next one, under one checksum and under two.
* **`rollAlong_hash`**: however far a hash is rolled along, it is the hash of the window there.
* `Search.rolledAt_getD`: an engine that rolls the hash of the next block along has the hash that it
  would have taken afresh.
-/

namespace BinaryDelta

namespace Checksum

/-! ## Halves of words -/

theorem toNat_lowHalf (x : UInt32) : (lowHalf x).toNat = x.toNat % 65536 := by
  rw [lowHalf, UInt32.toNat_and]
  exact Nat.and_two_pow_sub_one_eq_mod x.toNat 16

theorem toUInt16_lowHalf (x : UInt32) : (lowHalf x).toUInt16 = x.toUInt16 := by
  apply UInt16.toNat_inj.mp
  rw [UInt32.toNat_toUInt16, UInt32.toNat_toUInt16, toNat_lowHalf]
  exact Nat.mod_mod _ _

/-- Words with the same low half. -/
theorem lowHalf_congr {x y : UInt32} (h : x.toUInt16 = y.toUInt16) : lowHalf x = lowHalf y := by
  apply UInt32.toNat_inj.mp
  rw [toNat_lowHalf, toNat_lowHalf]
  have hn := congrArg UInt16.toNat h
  rwa [UInt32.toNat_toUInt16, UInt32.toNat_toUInt16] at hn

/-- Only the low halves of the sums are seen. -/
theorem join_congr {low high low' high' : UInt32} (hlow : low.toUInt16 = low'.toUInt16)
    (hhigh : high.toUInt16 = high'.toUInt16) : join low high = join low' high' := by
  rw [join, join, lowHalf_congr hlow, lowHalf_congr hhigh]

theorem toNat_join (low high : UInt32) :
    (join low high).toNat = high.toNat % 65536 * 65536 + low.toNat % 65536 := by
  have hlow : low.toNat % 65536 < 2 ^ 16 := Nat.mod_lt _ (by decide)
  have hhigh : high.toNat % 65536 < 65536 := Nat.mod_lt _ (by decide)
  have hshift : (lowHalf high <<< 16).toNat = high.toNat % 65536 * 65536 := by
    rw [UInt32.toNat_shiftLeft, toNat_lowHalf, UInt32.toNat_ofNat]
    show (high.toNat % 65536) <<< 16 % 2 ^ 32 = _
    rw [Nat.shiftLeft_eq]
    omega
  rw [join, UInt32.toNat_or, hshift, toNat_lowHalf,
    ← Nat.shiftLeft_eq (high.toNat % 65536) 16, ← Nat.shiftLeft_add_eq_or_of_lt hlow]

theorem lowOf_join (low high : UInt32) : (lowOf (join low high)).toUInt16 = low.toUInt16 := by
  apply UInt16.toNat_inj.mp
  rw [lowOf, toUInt16_lowHalf, UInt32.toNat_toUInt16, UInt32.toNat_toUInt16, toNat_join]
  omega

theorem highOf_join (low high : UInt32) : (highOf (join low high)).toUInt16 = high.toUInt16 := by
  apply UInt16.toNat_inj.mp
  have hdiv : (highOf (join low high)).toNat = (join low high).toNat / 65536 := by
    rw [highOf, UInt32.toNat_shiftRight, UInt32.toNat_ofNat]
    exact Nat.shiftRight_eq_div_pow _ 16
  rw [UInt32.toNat_toUInt16, UInt32.toNat_toUInt16, hdiv, toNat_join]
  omega

/-! ## Sums -/

/-- The two sums over bytes, from these on. -/
def sums (c : Checksum) (low high : UInt32) : List UInt8 → UInt32 × UInt32
  | [] => (low, high)
  | byte :: bytes =>
    let low := low + (c.word byte).toUInt32
    c.sums low (high + low) bytes

theorem hashList_eq_join (c : Checksum) (low high : UInt32) (bytes : List UInt8) :
    c.hashList low high bytes = join (c.sums low high bytes).1 (c.sums low high bytes).2 := by
  induction bytes generalizing low high with
  | nil => rfl
  | cons byte bytes ih => exact ih _ _

/-- The hash of bytes joins their two sums. -/
theorem hash_packBytes (c : Checksum) (bytes : List UInt8) :
    c.hash (packBytes bytes) = join (c.sums 0 0 bytes).1 (c.sums 0 0 bytes).2 := by
  rw [← hashList_eq_join, hash, hashRange, hashFrom_eq, data_packBytes, List.toList_toArray,
    List.drop_zero, size_packBytes, List.take_length]

/-- What the sums start with adds up. -/
theorem sums_add (c : Checksum) (low high d e : UInt32) (bytes : List UInt8) :
    c.sums (low + d) (high + e) bytes =
      ((c.sums low high bytes).1 + d,
        (c.sums low high bytes).2 + e + d * UInt32.ofNat bytes.length) := by
  induction bytes generalizing low high d e with
  | nil => simp [sums]
  | cons byte bytes ih =>
    have hlow : low + d + (c.word byte).toUInt32 = low + (c.word byte).toUInt32 + d := by grind
    have hhigh : high + e + (low + d + (c.word byte).toUInt32) =
        high + (low + (c.word byte).toUInt32) + (e + d) := by grind
    rw [sums, hhigh, hlow, ih, sums, List.length_cons, UInt32.ofNat_add]
    congr 1
    grind

theorem sums_append_singleton (c : Checksum) (low high : UInt32) (bytes : List UInt8)
    (byte : UInt8) : c.sums low high (bytes ++ [byte]) =
      ((c.sums low high bytes).1 + (c.word byte).toUInt32,
        (c.sums low high bytes).2 + ((c.sums low high bytes).1 + (c.word byte).toUInt32)) := by
  induction bytes generalizing low high with
  | nil => rfl
  | cons b bytes ih => exact ih _ _

/-- Rolling gives the hash of the window one byte further on. -/
theorem roll_hash (c : Checksum) (outgoing incoming : UInt8) (bytes : List UInt8) :
    c.roll (c.hash (packBytes (outgoing :: bytes))) outgoing incoming (bytes.length + 1) =
      c.hash (packBytes (bytes ++ [incoming])) := by
  -- behind the outgoing byte, both sums start from its word
  have hcons := c.sums_add 0 0 (c.word outgoing).toUInt32 (0 + (c.word outgoing).toUInt32) bytes
  rw [hash_packBytes, hash_packBytes, roll, sums_append_singleton, sums, hcons]
  apply join_congr
  · simp only [toUInt16_lowHalf, UInt32.toUInt16_add, UInt32.toUInt16_sub, lowOf_join]
    grind
  · simp only [toUInt16_lowHalf, UInt32.toUInt16_add, UInt32.toUInt16_sub, UInt32.toUInt16_mul,
      UInt32.toUInt16_ofNat', UInt16.ofNat_add, UInt32.zero_add, lowOf_join, highOf_join]
    grind

end Checksum

/-- The same under one checksum or two. -/
theorem BlockTable.roll_hash (t : BlockTable) (outgoing incoming : UInt8) {bytes : List UInt8}
    (h : bytes.length + 1 = t.blockSize) :
    t.roll (t.hash (packBytes (outgoing :: bytes))) outgoing incoming =
      t.hash (packBytes (bytes ++ [incoming])) := by
  have hroll (c : Checksum) := c.roll_hash outgoing incoming bytes
  rw [h] at hroll
  unfold roll hash hashRange
  cases hs : t.secondary with
  | none => exact congrArg (WindowHash.mk · none) (hroll t.primary.checksum)
  | some x =>
    exact congr (congrArg WindowHash.mk (hroll t.primary.checksum))
      (congrArg some (hroll x.checksum))

/-! ## Sliding along -/

/-- What a hash has become when its window, of `width` bytes, has slid by so many bytes from the
front. -/
def rollAlong {η : Type} (roll : η → UInt8 → UInt8 → η) (bytes : ByteArray) (width : Nat)
    (hash : η) : Nat → η
  | 0 => hash
  | i + 1 => roll (rollAlong roll bytes width hash i) (byteOf bytes i) (byteOf bytes (i + width))

/-- Two windows one byte apart, the first at the front. -/
theorem take_drop_one {left : List UInt8} {n : Nat} (h : n + 1 < left.length) :
    (left.take (n + 1)) = left.getD 0 0 :: (left.drop 1).take n ∧
      (left.drop 1).take (n + 1) = (left.drop 1).take n ++ [left.getD (n + 1) 0] := by
  cases left with
  | nil => exact absurd h (Nat.not_lt_zero _)
  | cons byte rest =>
    have hn : n < rest.length := Nat.lt_of_succ_lt_succ h
    constructor
    · rfl
    · rw [List.drop_one, List.tail_cons, List.take_add_one, List.getD_eq_getElem?_getD,
        List.getElem?_cons_succ, List.getElem?_eq_getElem hn, Option.getD_some, Option.toList_some]

theorem byteOf_eq_getD (bytes : ByteArray) (i : Nat) :
    byteOf bytes i = bytes.data.toList.getD i 0 := by
  rw [List.getD_eq_getElem?_getD, byteOf]
  split
  · rename_i h
    rw [List.getElem?_eq_getElem (by rwa [length_toList])]
    rfl
  · rename_i h
    rw [List.getElem?_eq_none (by rw [length_toList]; exact Nat.le_of_not_lt h), Option.getD_none]

/-- Two windows one byte apart have all but one byte in common. -/
theorem exists_extract_succ {bytes : ByteArray} {width i : Nat} (hw : 0 < width)
    (hi : i + width < bytes.size) :
    ∃ common : List UInt8, common.length + 1 = width ∧
      bytes.extract i (i + width) = packBytes (byteOf bytes i :: common) ∧
      bytes.extract (i + 1) (i + 1 + width) = packBytes (common ++ [byteOf bytes (i + width)]) := by
  obtain ⟨n, rfl⟩ := Nat.exists_eq_succ_of_ne_zero (Nat.ne_of_gt hw)
  have hleft : n + 1 < (bytes.data.toList.drop i).length := by
    rw [List.length_drop, length_toList]
    omega
  have window (start : Nat) : (bytes.extract start (start + (n + 1))).data.toList =
      (bytes.data.toList.drop start).take (n + 1) := by
    rw [toList_extract, List.drop_take, Nat.add_sub_cancel_left]
  obtain ⟨hfront, hback⟩ := take_drop_one hleft
  refine ⟨((bytes.data.toList.drop i).drop 1).take n, ?_, ?_, ?_⟩
  · rw [List.length_take, List.length_drop]
    omega
  · apply eq_of_toList_eq
    rw [window, hfront, byteOf_eq_getD]
    simp
  · apply eq_of_toList_eq
    rw [window, ← List.drop_drop, hback, byteOf_eq_getD]
    simp

/-- What rolls a hash to the next window rolls it along. -/
theorem rollAlong_eq {η : Type} {roll : η → UInt8 → UInt8 → η} {hash : ByteArray → η}
    {bytes : ByteArray} {width : Nat} (hw : 0 < width)
    (hroll : ∀ (outgoing incoming : UInt8) (common : List UInt8), common.length + 1 = width →
      roll (hash (packBytes (outgoing :: common))) outgoing incoming =
        hash (packBytes (common ++ [incoming]))) {i : Nat} (hi : i + width ≤ bytes.size) :
    rollAlong roll bytes width (hash (bytes.extract 0 width)) i =
      hash (bytes.extract i (i + width)) := by
  induction i with
  | zero => rw [rollAlong, Nat.zero_add]
  | succ i ih =>
    have hlt : i + width < bytes.size := by omega
    obtain ⟨common, hcommon, hfront, hback⟩ := exists_extract_succ hw hlt
    rw [rollAlong, ih (Nat.le_of_lt hlt), hfront, hback, hroll _ _ common hcommon]

/-- **Rolling is recomputing.** However far the hash of the first window has been rolled along, it
is the hash of the window there, under any checksum and in a table of one or two. -/
theorem rollAlong_hash {bytes : ByteArray} {width i : Nat} (hw : 0 < width)
    (hi : i + width ≤ bytes.size) :
    (∀ c : Checksum,
      rollAlong (fun hash outgoing incoming => c.roll hash outgoing incoming width) bytes width
        (c.hash (bytes.extract 0 width)) i = c.hash (bytes.extract i (i + width))) ∧
      ∀ t : BlockTable, t.blockSize = width →
        rollAlong t.roll bytes width (t.hash (bytes.extract 0 width)) i =
          t.hash (bytes.extract i (i + width)) := by
  constructor
  · intro c
    refine rollAlong_eq hw (fun outgoing incoming common hcommon => ?_) hi
    exact hcommon ▸ c.roll_hash outgoing incoming common
  · rintro t rfl
    exact rollAlong_eq hw (fun outgoing incoming common hcommon =>
      t.roll_hash outgoing incoming hcommon) hi

/-- A window of 600000 bytes, whose sums wrap past 32 bits, has slid by 400000. -/
theorem rollAlong_hash_wrapping :
    let bytes := packBytes (List.replicate 1000000 0xff)
    let c := Checksum.ofSeed Checksum.primarySeed
    let t := BlockTable.empty 600000 true (by decide)
    rollAlong (fun hash outgoing incoming => c.roll hash outgoing incoming 600000) bytes 600000
        (c.hash (bytes.extract 0 600000)) 400000 = c.hash (bytes.extract 400000 1000000) ∧
      rollAlong t.roll bytes 600000 (t.hash (bytes.extract 0 600000)) 400000 =
        t.hash (bytes.extract 400000 1000000) := by
  intro bytes c t
  have hsize : bytes.size = 1000000 := by
    rw [size_packBytes, List.length_replicate]
  have hfits : 400000 + 600000 ≤ bytes.size := by omega
  obtain ⟨hchecksum, htable⟩ := rollAlong_hash (by decide) hfits
  exact ⟨hchecksum c, htable t rfl⟩

namespace Search

/-- The hash rolled from that of the next block is that of the block behind one byte. -/
theorem rolledAt_eq {c : Search} {left : List UInt8} (h : c.blockSize < left.length) :
    c.rolledAt left (c.hashOf left) = some (c.hashOf (left.drop 1)) := by
  obtain ⟨n, hn⟩ := Nat.exists_eq_succ_of_ne_zero (Nat.ne_of_gt c.table.blockSize_pos)
  have hb : c.blockSize = n + 1 := hn
  obtain ⟨hfront, hback⟩ := take_drop_one (hb ▸ h)
  have hlen : ((left.drop 1).take n).length + 1 = c.table.blockSize := by
    rw [List.length_take, List.length_drop, hn]
    omega
  rw [rolledAt, if_pos h, hashOf, hashOf, hb, hfront, hback, c.table.roll_hash _ _ hlen]

/-- Whether a hash was rolled along or not, the next block has the hash that it has. -/
theorem rolledAt_getD (c : Search) (left : List UInt8) :
    (c.rolledAt left (c.hashOf left)).getD (c.hashOf (left.drop 1)) = c.hashOf (left.drop 1) := by
  by_cases hlt : c.blockSize < left.length
  · rw [rolledAt_eq hlt, Option.getD_some]
  · rw [rolledAt, if_neg hlt, Option.getD_none]

end Search

end BinaryDelta
