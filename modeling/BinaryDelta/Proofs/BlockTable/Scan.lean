import BinaryDelta.BlockTable.Build
import BinaryDelta.Proofs.Engine.Plan
import BinaryDelta.Proofs.Source.Holding

/-!
# The table of a byte string

A source is scanned in pieces of any size, and a block may be spread over several of them. The table
that comes out depends on the bytes alone: it is the one into which their complete blocks are
recorded one by one, from the front.

* `recordAll` records the blocks of a byte string, `refill` does so in a table that was emptied.
* `ofBytes` is the table of a byte string, for blocks of some size and with one checksum or two.

Results:
* `recordAll_insertBlocks`: what is recorded out of a buffer is recorded out of the bytes.
* `clear_ofBytes`: what is left of a table when its blocks are forgotten is the empty table of its
  block size and its number of checksums.
* `clear_of_scanFrom`, `built_of_scanFrom_error`: what a scan leaves alone, and what one that fails.
* `scanProblem?_eq_none_iff`: there can be a buffer for blocks below 2^62 bytes.
* `finish_of_scanFrom`, **`eq_refill_of_build`**: a scan that succeeds fills the table with the
  blocks of the bytes, however the source hands them out and whatever was in the table before.
* `eq_ofBytes_of_build`: if the table was not loaded, it becomes the table of the bytes.
-/

namespace BinaryDelta.BlockTable

/-! ## Recording blocks -/

/-- Records the complete blocks of a byte string that lies at `offset` of the source. -/
def recordAll (t : BlockTable) (bytes : List UInt8) (offset : Nat) : BlockTable :=
  if bytes.length < t.blockSize then t
  else
    recordAll (t.insertBlock (packBytes (bytes.take t.blockSize)) 0 offset)
      (bytes.drop t.blockSize) (offset + t.blockSize)
termination_by bytes.length
decreasing_by
  have := t.blockSize_pos
  rw [List.length_drop]
  omega

/-- The table of a byte string. -/
def ofBytes (bytes : List UInt8) (blockSize : Nat) (duplicate : Bool) (h : 0 < blockSize) :
    BlockTable :=
  ((empty blockSize duplicate h).recordAll bytes 0).finish bytes.length

/-- The table with the blocks of a byte string in place of its own. -/
def refill (t : BlockTable) (bytes : List UInt8) : BlockTable :=
  (t.clear.recordAll bytes 0).finish bytes.length

theorem blockSize_insertBlock (t : BlockTable) (bytes : ByteArray) (start offset : Nat) :
    (t.insertBlock bytes start offset).blockSize = t.blockSize := rfl

theorem blockSize_insertBlocks (t : BlockTable) (bytes : ByteArray) (start offset count : Nat) :
    (t.insertBlocks bytes start offset count).blockSize = t.blockSize := by
  induction count generalizing t start offset with
  | zero => rfl
  | succ count ih => rw [insertBlocks, ih, blockSize_insertBlock]

theorem recordAll_of_lt {t : BlockTable} {bytes : List UInt8} (h : bytes.length < t.blockSize)
    (offset : Nat) : t.recordAll bytes offset = t := by
  rw [recordAll, if_pos h]

theorem recordAll_append {t : BlockTable} {block : List UInt8} (h : block.length = t.blockSize)
    (rest : List UInt8) (offset : Nat) :
    t.recordAll (block ++ rest) offset =
      (t.insertBlock (packBytes block) 0 offset).recordAll rest (offset + t.blockSize) := by
  rw [recordAll, if_neg (by rw [List.length_append]; omega), ← h, List.take_left, List.drop_left]

/-- Only the bytes of the block matter. -/
theorem insertBlock_eq (t : BlockTable) (buffer : ByteArray) (start offset : Nat) :
    t.insertBlock buffer start offset =
      t.insertBlock (packBytes ((buffer.data.toList.drop start).take t.blockSize)) 0 offset := by
  unfold insertBlock
  simp only [Checksum.hashRange_eq, data_packBytes, List.toList_toArray, List.drop_zero,
    List.take_take, Nat.min_self]

/-- What is recorded out of a buffer is recorded out of the bytes that it holds. -/
theorem recordAll_insertBlocks {t : BlockTable} {buffer : ByteArray} {start count : Nat}
    (hl : start + count * t.blockSize ≤ buffer.size) (rest : List UInt8) (offset : Nat) :
    t.recordAll (buffer.data.toList.drop start ++ rest) offset =
      (t.insertBlocks buffer start offset count).recordAll
        (buffer.data.toList.drop (start + count * t.blockSize) ++ rest)
        (offset + count * t.blockSize) := by
  induction count generalizing t start offset with
  | zero => rw [Nat.zero_mul, Nat.add_zero, Nat.add_zero, insertBlocks]
  | succ count ih =>
    rw [Nat.succ_mul] at hl ⊢
    have hsize : (t.insertBlock buffer start offset).blockSize = t.blockSize := rfl
    have hlen := length_toList buffer
    have hblock : ((buffer.data.toList.drop start).take t.blockSize).length = t.blockSize := by
      rw [List.length_take, List.length_drop]
      omega
    have hnext := @ih (t.insertBlock buffer start offset) (start + t.blockSize)
      (by rw [hsize]; omega) (offset + t.blockSize)
    rw [hsize, insertBlock_eq, ← List.drop_drop] at hnext
    rw [← List.take_append_drop t.blockSize (buffer.data.toList.drop start), List.append_assoc,
      recordAll_append hblock, hnext, ← insertBlock_eq, insertBlocks, Nat.add_assoc, Nat.add_assoc,
      Nat.add_comm t.blockSize]

/-! ## Emptied tables -/

section Clear

variable {t : BlockTable} {blockSize size : Nat} {duplicate : Bool} {h : 0 < blockSize}

theorem clear_empty : (empty blockSize duplicate h).clear = empty blockSize duplicate h := by
  cases duplicate with
  | false => rfl
  | true => rfl

theorem clear_clear (t : BlockTable) : t.clear.clear = t.clear := by
  rcases t with ⟨blockSize, primary, secondary, built, hpos⟩
  cases secondary with
  | none => rfl
  | some x => rfl

theorem clear_insertBlock (bytes : ByteArray) (start offset : Nat) :
    (t.insertBlock bytes start offset).clear = t.clear := by
  rcases t with ⟨blockSize, primary, secondary, built, hpos⟩
  cases secondary with
  | none => rfl
  | some x => rfl

theorem clear_insertBlocks (t : BlockTable) (bytes : ByteArray) (start offset count : Nat) :
    (t.insertBlocks bytes start offset count).clear = t.clear := by
  induction count generalizing t start offset with
  | zero => rfl
  | succ count ih => rw [insertBlocks, ih, clear_insertBlock]

theorem clear_recordAll (bytes : List UInt8) (offset : Nat) :
    (t.recordAll bytes offset).clear = t.clear := by
  fun_induction recordAll t bytes offset with
  | case1 => rfl
  | case2 t bytes offset hl ih => rw [ih, clear_insertBlock]

theorem clear_finish (scanned : Nat) : (t.finish scanned).clear = t.clear := by
  rcases t with ⟨blockSize, primary, secondary, built, hpos⟩
  cases secondary with
  | none => rfl
  | some x => rfl

/-- Without its blocks, a table that was filled anew is what it was without its own. -/
theorem clear_refill (t : BlockTable) (bytes : List UInt8) : (t.refill bytes).clear = t.clear := by
  rw [refill, clear_finish, clear_recordAll, clear_clear]

theorem blockSize_refill (t : BlockTable) (bytes : List UInt8) :
    (t.refill bytes).blockSize = t.blockSize := by
  show (t.refill bytes).clear.blockSize = t.clear.blockSize
  rw [clear_refill]

theorem refill_of_clear (hc : t.clear = empty blockSize duplicate h) (bytes : List UInt8) :
    t.refill bytes = ofBytes bytes blockSize duplicate h := by
  rw [refill, hc, ofBytes]

/-- Less than a block is not recorded. -/
theorem ofBytes_of_lt {bytes : List UInt8} (hl : bytes.length < blockSize) :
    ofBytes bytes blockSize duplicate h = (empty blockSize duplicate h).finish bytes.length := by
  rw [ofBytes, recordAll_of_lt (by exact hl)]

/-- Without its blocks, the table of a byte string is an empty one. -/
theorem clear_ofBytes (bytes : List UInt8) :
    (ofBytes bytes blockSize duplicate h).clear = empty blockSize duplicate h := by
  rw [ofBytes, clear_finish, clear_recordAll, clear_empty]

theorem blockSize_of_clear (hc : t.clear = empty blockSize duplicate h) :
    t.blockSize = blockSize :=
  congrArg BlockTable.blockSize hc

theorem isDuplicate_of_clear (hc : t.clear = empty blockSize duplicate h) :
    t.isDuplicate = duplicate := by
  have hd : t.isDuplicate = t.clear.isDuplicate := (Option.isSome_map).symm
  rw [hd, hc]
  cases duplicate with
  | false => rfl
  | true => rfl

/-- A table for blocks of another size is empty. -/
theorem setBlockSize_of_ne (hc : t.clear = empty blockSize duplicate h) (hne : size ≠ blockSize)
    (hpos : 0 < size) : t.setBlockSize size = .ok (empty size duplicate hpos) := by
  have hsize := blockSize_of_clear hc
  rw [setBlockSize, dif_pos hpos, if_neg (by rw [hsize]; exact hne), hc]
  cases duplicate with
  | false => rfl
  | true => rfl

end Clear

/-! ## Scanning -/

theorem lt_scanSize {blockSize pending : Nat} (h : pending < blockSize) :
    pending < scanSize blockSize := by
  have : 2 * blockSize ≤ scanSize blockSize := Nat.mul_le_mul_right _ (Nat.le_max_right _ _)
  omega

/-- The buffer for blocks of less than 2^62 bytes is not too large. -/
theorem scanProblem?_eq_none_iff {blockSize : Nat} (hpos : 0 < blockSize) :
    scanProblem? blockSize = none ↔ blockSize < 0x4000000000000000 := by
  have htwo : 2 * blockSize ≤ scanSize blockSize := Nat.mul_le_mul_right _ (Nat.le_max_right _ _)
  have hpieces : 65536 / blockSize * blockSize ≤ 65536 := Nat.div_mul_le_self _ _
  have hsize : scanSize blockSize ≤ max 65536 (2 * blockSize) := by
    rw [scanSize, ← Nat.mul_max_mul_right]
    omega
  unfold scanProblem?
  split
  · simp only [reduceCtorEq, false_iff]
    omega
  · split
    · simp only [reduceCtorEq, false_iff]
      omega
    · simp only [true_iff]
      omega

variable {σ : Type} [Source σ] {H : σ → Prop} {bytes : List UInt8}

/-- What is built without a failure was scanned. -/
theorem scanFrom_of_build {t t' : BlockTable} {src src' : σ}
    (h : t.build src = (.ok (), t', src')) :
    t.clear.scanFrom src ByteArray.empty 0 = (.ok (), t', src') := by
  unfold build at h
  split at h
  · cases h
  · exact h

/-- Scanning changes nothing but what is recorded. -/
theorem clear_of_scanFrom {t t' : BlockTable} {src src' : σ} {pending : ByteArray} {position : Nat}
    {answer : Except DeltaError Unit}
    (hs : t.scanFrom src pending position = (answer, t', src')) : t'.clear = t.clear := by
  fun_induction scanFrom t src pending position with
  | case1 t src pending position fault src₁ hr =>
    obtain ⟨-, rfl, -⟩ := Prod.mk.inj hs |>.imp_right Prod.mk.inj
    rfl
  | case2 t src pending position piece src₁ hr h₀ =>
    obtain ⟨-, rfl, -⟩ := Prod.mk.inj hs |>.imp_right Prod.mk.inj
    exact clear_finish position
  | case3 t src pending position piece src₁ hr h₀ blockSize buffer count t₁ ih =>
    rw [ih hs, clear_insertBlocks]

theorem built_insertBlocks (t : BlockTable) (bytes : ByteArray) (start offset count : Nat) :
    (t.insertBlocks bytes start offset count).built = t.built := by
  induction count generalizing t start offset with
  | zero => rfl
  | succ count ih => exact ih _ _ _

/-- A scan that fails does not make a table count as built. -/
theorem built_of_scanFrom_error {t t' : BlockTable} {src src' : σ} {pending : ByteArray}
    {position : Nat} {problem : DeltaError}
    (hs : t.scanFrom src pending position = (.error problem, t', src')) : t'.built = t.built := by
  fun_induction scanFrom t src pending position with
  | case1 t src pending position fault src₁ hr =>
    obtain ⟨-, rfl, -⟩ := Prod.mk.inj hs |>.imp_right Prod.mk.inj
    rfl
  | case2 t src pending position piece src₁ hr h₀ => cases (Prod.mk.inj hs).1
  | case3 t src pending position piece src₁ hr h₀ blockSize buffer count t₁ ih =>
    rw [ih hs, built_insertBlocks]

/-- Building changes nothing but what is recorded. -/
theorem clear_of_build {t t' : BlockTable} {src src' : σ} {answer : Except DeltaError Unit}
    (hs : t.build src = (answer, t', src')) : t'.clear = t.clear := by
  unfold build at hs
  split at hs
  · obtain ⟨-, rfl, -⟩ := Prod.mk.inj hs |>.imp_right Prod.mk.inj
    exact t.clear_clear
  · rw [clear_of_scanFrom hs, clear_clear]

/-- A table whose building failed is not built. -/
theorem built_of_build_error {t t' : BlockTable} {src src' : σ} {problem : DeltaError}
    (hs : t.build src = (.error problem, t', src')) : t'.built = false := by
  unfold build at hs
  split at hs
  · obtain ⟨-, rfl, -⟩ := Prod.mk.inj hs |>.imp_right Prod.mk.inj
    rfl
  · exact built_of_scanFrom_error hs

/-- A scan that succeeds records what is left of the bytes: those that do not fill a block yet, and
those behind. -/
theorem finish_of_scanFrom (k : Source.Serving H bytes) {t t' : BlockTable} {src src' : σ}
    (h : H src) {pending : ByteArray} {position : Nat} (hp : pending.size < t.blockSize)
    (hplace : pending.size ≤ position) (hle : position ≤ bytes.length)
    (hb : bytes.drop (position - pending.size) = pending.data.toList ++ bytes.drop position)
    (hs : t.scanFrom src pending position = (.ok (), t', src')) :
    t' = (t.recordAll (bytes.drop (position - pending.size)) (position - pending.size)).finish
      bytes.length := by
  fun_induction scanFrom t src pending position with
  | case1 t src pending position fault src₁ hr => cases (Prod.mk.inj hs).1
  | case2 t src pending position piece src₁ hr h₀ =>
    obtain ⟨-, -, hend⟩ := k.of_readSomeAt h hr
    have hmore := lt_scanSize hp
    have hlast : bytes.length ≤ position := (hend h₀).resolve_left (by omega)
    obtain ⟨-, rfl, -⟩ := Prod.mk.inj hs |>.imp_right Prod.mk.inj
    rw [recordAll_of_lt (by rw [List.length_drop]; omega), Nat.le_antisymm hle hlast]
  | case3 t src pending position piece src₁ hr h₀ blockSize buffer count t₁ ih =>
    obtain ⟨h₁, ⟨rest, hrest⟩, -⟩ := k.of_readSomeAt h hr
    have hpiece := length_toList piece
    have hbuffer : buffer.size = pending.size + piece.size := ByteArray.size_append
    have hcut : count * blockSize ≤ buffer.size := Nat.div_mul_le_self _ _
    have hup : buffer.size < count * blockSize + blockSize := Nat.lt_div_mul_add t.blockSize_pos
    have hsize : t₁.blockSize = blockSize := blockSize_insertBlocks t buffer 0 _ count
    have hlen := congrArg List.length hrest
    rw [List.length_drop, List.length_append] at hlen
    have hbehind : bytes.drop (position + piece.size) = rest := by
      rw [← List.drop_drop, hrest, ← hpiece, List.drop_left]
    have hwhole : bytes.drop (position - pending.size) = buffer.data.toList ++ rest := by
      rw [hb, hrest, toList_append, List.append_assoc]
    -- the next scan begins behind the blocks that the buffer fills
    have hleft : (buffer.extract (count * blockSize) buffer.size).size =
        buffer.size - count * blockSize := by
      rw [ByteArray.size_extract, Nat.min_self]
    have hplace' : position + piece.size - (buffer.size - count * blockSize) =
        position - pending.size + count * blockSize := by
      omega
    have hnext : bytes.drop (position - pending.size + count * blockSize) =
        buffer.data.toList.drop (count * blockSize) ++ rest := by
      rw [← List.drop_drop, hwhole,
        List.drop_append_of_le_length (by rw [length_toList]; exact hcut)]
    have hpending : (buffer.extract (count * blockSize) buffer.size).data.toList =
        buffer.data.toList.drop (count * blockSize) := by
      rw [toList_extract, List.take_of_length_le (Nat.le_of_eq (length_toList buffer))]
    rw [hleft, hplace', hpending, hbehind] at ih
    rw [ih h₁ (by omega) (by omega) (by omega) hnext hs, hnext, hwhole]
    have hall := @recordAll_insertBlocks t buffer 0 count (by rw [Nat.zero_add]; exact hcut) rest
      (position - pending.size)
    rw [List.drop_zero, Nat.zero_add] at hall
    rw [hall]

/-- **A scan that succeeds fills the table with the blocks of the bytes**, whatever was in it
before. -/
theorem eq_refill_of_build (k : Source.Serving H bytes) {t t' : BlockTable} {src src' : σ}
    (h : H src) (hs : t.build src = (.ok (), t', src')) : t' = t.refill bytes :=
  have hempty : ByteArray.empty.size < t.clear.blockSize := t.blockSize_pos
  finish_of_scanFrom k h hempty (Nat.le_refl 0) (Nat.zero_le _) rfl (scanFrom_of_build hs)

/-- If the table was not loaded, that makes it the table of the bytes. -/
theorem eq_ofBytes_of_build (k : Source.Serving H bytes) {t t' : BlockTable} {src src' : σ}
    (h : H src) {blockSize : Nat} {duplicate : Bool} {hpos : 0 < blockSize}
    (hc : t.clear = empty blockSize duplicate hpos) (hs : t.build src = (.ok (), t', src')) :
    t' = ofBytes bytes blockSize duplicate hpos := by
  rw [eq_refill_of_build k h hs, refill_of_clear hc]

end BinaryDelta.BlockTable
