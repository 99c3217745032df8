import BinaryDelta.Proofs.BlockTable.Index
import BinaryDelta.Proofs.BlockTable.Scan

/-!
# What a scan finds

The blocks of a source are recorded in ascending order. So the chains of its table ascend, and a
block that is recorded under both hashes is found.

* `Recorded` bounds what the indexes of a table hold after so many blocks.
* `Lists` says that a block is recorded under a hash, or under both.

Results:
* `recorded_refill`, `recorded_ofBytes`: a table that is filled from a byte string holds as many
  blocks as that has, and they lie within it.
* `Recorded.candidates_eq_zero_cons`: a block at the very front is the first that matches.
* **`lists_ofBytes`**: the first block of a byte string is recorded under its hash.
-/

namespace BinaryDelta.BlockTable

/-! ## How much is recorded -/

/-- What the indexes hold after so many blocks in ascending order, all of which begin below `place`.
-/
structure Recorded (t : BlockTable) (count place : Nat) : Prop where
  primary : t.primary.Recorded count place
  secondary : ∀ x ∈ t.secondary, x.Recorded count place

variable {t : BlockTable} {blockSize count place : Nat} {duplicate : Bool} {h : 0 < blockSize}

/-- There is room for a block in every chain. -/
def Admits (t : BlockTable) : Prop :=
  Chain.Admits t.primary.limit 1 ∧ ∀ x ∈ t.secondary, Chain.Admits x.limit 1

theorem admits_empty : (empty blockSize duplicate h).Admits := by
  have hlimit : Chain.Admits (some chainLimit) 1 := by
    rintro _ ⟨⟩
    decide
  cases duplicate with
  | false => exact ⟨nofun, nofun⟩
  | true =>
    refine ⟨hlimit, ?_⟩
    rintro _ ⟨⟩
    exact hlimit

theorem recorded_clear (ha : t.Admits) (place : Nat) : t.clear.Recorded 0 place := by
  refine ⟨BlockIndex.recorded_empty (x := t.primary.clear) ha.1 rfl place, fun x hx => ?_⟩
  obtain ⟨y, hy, rfl⟩ := Option.map_eq_some_iff.mp hx
  exact BlockIndex.recorded_empty (x := y.clear) (ha.2 y hy) rfl place

theorem recorded_empty (place : Nat) : (empty blockSize duplicate h).Recorded 0 place := by
  have hrecorded : (empty blockSize duplicate h).clear.Recorded 0 place :=
    recorded_clear admits_empty place
  rwa [clear_empty] at hrecorded

theorem Recorded.insertBlock (hr : t.Recorded count place) (bytes : ByteArray) (start : Nat)
    {next : Nat} (hn : place < next) :
    (t.insertBlock bytes start place).Recorded (count + 1) next := by
  constructor
  · exact hr.primary.insert _ hn
  · intro x hx
    obtain ⟨y, hy, rfl⟩ := Option.map_eq_some_iff.mp hx
    exact (hr.secondary y hy).insert _ hn

theorem Recorded.recordAll (hr : t.Recorded count place) (bytes : List UInt8) :
    (t.recordAll bytes place).Recorded (count + bytes.length / t.blockSize)
      (place + bytes.length) := by
  fun_induction BlockTable.recordAll t bytes place generalizing count with
  | case1 t bytes place hl =>
    exact ⟨hr.primary.mono (Nat.le_add_right _ _) (Nat.le_add_right _ _), fun x hx =>
      (hr.secondary x hx).mono (Nat.le_add_right _ _) (Nat.le_add_right _ _)⟩
  | case2 t bytes place hl ih =>
    have hpos := t.blockSize_pos
    have hge := Nat.le_of_not_lt hl
    have hnext := ih (hr.insertBlock _ 0 (Nat.lt_add_of_pos_right hpos))
    have hdiv : 1 + (bytes.length - t.blockSize) / t.blockSize = bytes.length / t.blockSize := by
      rw [Nat.add_comm, ← Nat.div_eq_sub_div hpos hge]
    have hplace : place + t.blockSize + (bytes.length - t.blockSize) = place + bytes.length := by
      omega
    rwa [blockSize_insertBlock, List.length_drop, Nat.add_assoc, hdiv, hplace] at hnext

theorem Recorded.finish (hr : t.Recorded count place) (scanned : Nat) :
    (t.finish scanned).Recorded count place := by
  constructor
  · exact ⟨hr.primary.admits, hr.primary.size_le, hr.primary.regular⟩
  · intro x hx
    obtain ⟨y, hy, rfl⟩ := Option.map_eq_some_iff.mp hx
    have hrecorded := hr.secondary y hy
    exact ⟨hrecorded.admits, hrecorded.size_le, hrecorded.regular⟩

theorem recorded_refill (ha : t.Admits) (bytes : List UInt8) :
    (t.refill bytes).Recorded (bytes.length / t.blockSize) bytes.length := by
  have hempty : t.clear.Recorded 0 0 := recorded_clear ha 0
  have hall := hempty.recordAll bytes
  rw [Nat.zero_add, Nat.zero_add] at hall
  exact hall.finish bytes.length

theorem recorded_ofBytes (bytes : List UInt8) :
    (ofBytes bytes blockSize duplicate h).Recorded (bytes.length / blockSize) bytes.length := by
  rw [← refill_of_clear clear_empty]
  exact recorded_refill admits_empty bytes

/-! ## What is found -/

/-- The block at `offset` is recorded under these hashes. -/
structure Lists (t : BlockTable) (hash : WindowHash) (offset : Nat) : Prop where
  primary : offset ∈ t.primary.lookup hash.primary
  secondary : ∀ x ∈ t.secondary, ∃ value, hash.secondary = some value ∧ offset ∈ x.lookup value

/-- A block stays recorded. -/
theorem Lists.insertBlock {hash : WindowHash} {offset : Nat} (hl : t.Lists hash offset)
    (bytes : ByteArray) (start next : Nat) :
    (t.insertBlock bytes start next).Lists hash offset := by
  constructor
  · exact BlockIndex.mem_lookup_insert hl.primary _ _
  · intro x hx
    obtain ⟨y, hy, rfl⟩ := Option.map_eq_some_iff.mp hx
    obtain ⟨value, hvalue, hmem⟩ := hl.secondary y hy
    exact ⟨value, hvalue, BlockIndex.mem_lookup_insert hmem _ _⟩

theorem Lists.recordAll {hash : WindowHash} {offset : Nat} (hl : t.Lists hash offset)
    (bytes : List UInt8) (next : Nat) : (t.recordAll bytes next).Lists hash offset := by
  fun_induction BlockTable.recordAll t bytes next with
  | case1 => exact hl
  | case2 t bytes next _ ih => exact ih (hl.insertBlock _ 0 next)

/-- The first block of a table is recorded under its hash. -/
theorem lists_insertBlock_empty (block : ByteArray) (offset : Nat) :
    ((empty blockSize duplicate h).insertBlock block 0 offset).Lists
      ((empty blockSize duplicate h).hashRange block 0 blockSize) offset := by
  constructor
  · exact BlockIndex.mem_lookup_insert_self Std.TreeMap.getElem?_emptyc offset
  · intro x hx
    obtain ⟨y, hy, rfl⟩ := Option.map_eq_some_iff.mp hx
    have hs : (empty blockSize duplicate h).secondary = some y := hy
    refine ⟨y.checksum.hashRange block 0 blockSize, by rw [hashRange, hs]; rfl, ?_⟩
    refine BlockIndex.mem_lookup_insert_self ?_ offset
    cases duplicate with
    | false => cases hy
    | true =>
      cases hy
      exact Std.TreeMap.getElem?_emptyc

theorem Lists.finish {hash : WindowHash} {offset : Nat} (hl : t.Lists hash offset)
    (scanned : Nat) : (t.finish scanned).Lists hash offset := by
  constructor
  · exact hl.primary
  · intro x hx
    obtain ⟨y, hy, rfl⟩ := Option.map_eq_some_iff.mp hx
    exact hl.secondary y hy

/-- Hashes do not depend on the blocks. -/
theorem hash_clear (t : BlockTable) : t.clear.hash = t.hash := by
  rcases t with ⟨blockSize, primary, secondary, built, hpos⟩
  cases secondary with
  | none => rfl
  | some x => rfl

/-- The first block of a byte string is recorded under its hash. -/
theorem lists_ofBytes {bytes : List UInt8} (hl : blockSize ≤ bytes.length) :
    (ofBytes bytes blockSize duplicate h).Lists
      ((ofBytes bytes blockSize duplicate h).hash (packBytes (bytes.take blockSize))) 0 := by
  have hlen : (bytes.take blockSize).length = blockSize := List.length_take_of_le hl
  have hfirst := @lists_insertBlock_empty blockSize duplicate h (packBytes (bytes.take blockSize)) 0
  rw [← hash_clear, clear_ofBytes, hash, size_packBytes, hlen, ofBytes]
  apply Lists.finish
  rw [← List.take_append_drop blockSize bytes, recordAll_append (by exact hlen),
    List.take_append_drop]
  exact hfirst.recordAll _ _

/-- A block at the very front is the first that matches, if it is recorded at all. -/
theorem Recorded.candidates_eq_zero_cons {hash : WindowHash} (hr : t.Recorded count place)
    (hl : t.Lists hash 0) : ∃ others, (t.candidates hash).toList = 0 :: others := by
  obtain ⟨others, hchain⟩ := (hr.primary.ascending_lookup hash.primary).eq_zero_cons hl.primary
  unfold candidates confirming
  cases hs : t.secondary with
  | none => exact ⟨others, hchain⟩
  | some x =>
    obtain ⟨value, hvalue, hmem⟩ := hl.secondary x hs
    have hholds : (x.lookup value).holds 0 = true :=
      (Chain.holds_iff_mem ((hr.secondary x hs).ascending_lookup value) 0).mpr hmem
    refine ⟨others.filter (x.lookup value).holds, ?_⟩
    simp only [Option.map_some, hvalue, Option.getD_some, Array.toList_filter, hchain]
    exact List.filter_cons_of_pos hholds

/-- No block matches in an empty table. -/
theorem candidates_empty (hash : WindowHash) :
    (empty blockSize duplicate h).candidates hash = #[] := by
  have hlookup : (empty blockSize duplicate h).primary.lookup hash.primary = #[] := by
    rw [BlockIndex.lookup_eq, empty, Std.TreeMap.getElem?_emptyc, Option.getD_none]
  unfold candidates
  rw [hlookup]
  split
  · rfl
  · rfl

end BinaryDelta.BlockTable
