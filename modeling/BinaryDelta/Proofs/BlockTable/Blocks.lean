import BinaryDelta.Proofs.BlockTable.Recorded

/-!
# Which blocks a table lists

A table is a map from hashes to blocks, and nothing else: under a hash it lists the blocks that have
it, in their order, as many as the limit admits. With two checksums a block has to be listed under
both.

* `windowAt` is a range of a byte string, `blockStarts` are the offsets of its first blocks.
* `BlockIndex.Enumerates`, `BlockTable.Enumerates` say that the first blocks of a byte string are
  listed in this way, and no others.

Results:
* `BlockIndex.Enumerates.insert`, `BlockTable.Enumerates.recordAll`: one more block, and all blocks.
* **`BlockTable.enumerates_refill`**: a table that is filled from a byte string lists its blocks.
* `BlockTable.Enumerates.of_lists`: what is listed for a window is a block with its hashes.
* `BlockTable.Enumerates.mem_candidates`: without a limit, every block is listed under its hash.
-/

namespace BinaryDelta

/-- The `size` bytes from an offset on. -/
def windowAt (bytes : List UInt8) (size offset : Nat) : List UInt8 := (bytes.drop offset).take size

theorem getElem?_windowAt {bytes : List UInt8} {size offset k : Nat} (h : k < size) :
    (windowAt bytes size offset)[k]? = bytes[offset + k]? := by
  rw [windowAt, List.getElem?_take_of_lt h, List.getElem?_drop]

/-- The offsets of the first blocks. -/
def blockStarts (size count : Nat) : List Nat := (List.range count).map (· * size)

theorem blockStarts_succ (size count : Nat) :
    blockStarts size (count + 1) = blockStarts size count ++ [count * size] := by
  rw [blockStarts, List.range_succ, List.map_append]
  rfl

theorem mem_blockStarts {size count start : Nat} :
    start ∈ blockStarts size count ↔ ∃ i < count, start = i * size := by
  simp [blockStarts, eq_comm]

theorem length_blockStarts (size count : Nat) : (blockStarts size count).length = count := by
  rw [blockStarts, List.length_map, List.length_range]

namespace Chain

/-- As many offsets as the limit admits. -/
def admitted (limit : Option Nat) (offsets : List Nat) : List Nat :=
  match limit with
  | none => offsets
  | some n => offsets.take n

theorem mem_of_mem_admitted {limit : Option Nat} {offsets : List Nat} {offset : Nat}
    (h : offset ∈ admitted limit offsets) : offset ∈ offsets := by
  cases limit with
  | none => exact h
  | some n => exact List.mem_of_mem_take h

theorem length_admitted_le (limit : Option Nat) (offsets : List Nat) :
    (admitted limit offsets).length ≤ offsets.length := by
  cases limit with
  | none => exact Nat.le_refl _
  | some n =>
    rw [admitted, List.length_take]
    exact Nat.min_le_right _ _

/-- A chain of what the limit admits stays one. -/
theorem toList_extend {limit : Option Nat} {chain : Chain} {offsets : List Nat}
    (h : chain.toList = admitted limit offsets) (offset : Nat) :
    (chain.extend limit offset).toList = admitted limit (offsets ++ [offset]) := by
  cases limit with
  | none => rw [extend, Array.toList_push, h, admitted, admitted]
  | some n =>
    rw [admitted] at h
    have hlen := congrArg List.length h
    rw [Array.length_toList, List.length_take] at hlen
    rw [admitted, extend]
    by_cases hn : n ≤ chain.size
    · rw [if_pos hn, h, List.take_append_of_le_length (by omega)]
    · rw [if_neg hn, Array.toList_push, h, List.take_of_length_le (by omega),
        List.take_of_length_le]
      rw [List.length_append, List.length_singleton]
      omega

theorem mem_of_holds {chain : Chain} {offset : Nat} (h : chain.holds offset = true) :
    offset ∈ chain :=
  Array.mem_of_getElem? (eq_of_beq h)

end Chain

namespace BlockIndex

/-- The index lists the first blocks of the bytes under their hashes. -/
structure Enumerates (x : BlockIndex) (bytes : List UInt8) (size count : Nat) : Prop where
  admits : Chain.Admits x.limit 1
  toList_lookup : ∀ hash, (x.lookup hash).toList = Chain.admitted x.limit
    ((blockStarts size count).filter fun start =>
      x.checksum.hash (packBytes (windowAt bytes size start)) = hash)

variable {x : BlockIndex} {bytes : List UInt8} {size count : Nat}

theorem enumerates_empty (ha : Chain.Admits x.limit 1) (h : x.chains = ∅) (bytes : List UInt8)
    (size : Nat) : x.Enumerates bytes size 0 := by
  refine ⟨ha, fun hash => ?_⟩
  rw [lookup_eq, h, Std.TreeMap.getElem?_emptyc]
  cases x.limit with
  | none => rfl
  | some n => exact List.take_nil.symm

theorem lookup_insert (ha : Chain.Admits x.limit 1) (hash key : UInt32) (offset : Nat) :
    (x.insert hash offset).lookup key =
      if hash = key then (x.lookup key).extend x.limit offset else x.lookup key := by
  rw [lookup_eq, lookup_eq, getElem?_insert]
  split
  · rename_i heq
    rw [heq, Option.getD_some]
    cases x.chains[key]? with
    | none =>
      have hfirst : Chain.extend x.limit offset #[] = #[offset] := Chain.extend_of_admits ha offset
      exact hfirst.symm
    | some chain => rfl
  · rfl

/-- The next block is listed under its hash. -/
theorem Enumerates.insert (h : x.Enumerates bytes size count) :
    (x.insert (x.checksum.hash (packBytes (windowAt bytes size (count * size))))
      (count * size)).Enumerates bytes size (count + 1) := by
  refine ⟨h.admits, fun hash => ?_⟩
  rw [limit_insert, checksum_insert, lookup_insert h.admits, blockStarts_succ, List.filter_append,
    List.filter_singleton]
  split
  · rename_i heq
    rw [Chain.toList_extend (h.toList_lookup hash), decide_eq_true heq]
    rfl
  · rename_i hne
    rw [h.toList_lookup hash, decide_eq_false hne]
    simp

end BlockIndex

namespace BlockTable

/-- Both indexes, or the only one, list the first blocks of the bytes. -/
structure Enumerates (t : BlockTable) (bytes : List UInt8) (count : Nat) : Prop where
  primary : t.primary.Enumerates bytes t.blockSize count
  secondary : ∀ x ∈ t.secondary, x.Enumerates bytes t.blockSize count

variable {t : BlockTable} {bytes : List UInt8} {count blockSize : Nat} {duplicate : Bool}
  {h : 0 < blockSize}

theorem enumerates_clear (ha : t.Admits) (bytes : List UInt8) : t.clear.Enumerates bytes 0 := by
  refine ⟨BlockIndex.enumerates_empty (x := t.primary.clear) ha.1 rfl bytes _, fun x hx => ?_⟩
  obtain ⟨y, hy, rfl⟩ := Option.map_eq_some_iff.mp hx
  exact BlockIndex.enumerates_empty (x := y.clear) (ha.2 y hy) rfl bytes _

/-- The next block is listed. -/
theorem Enumerates.insertBlock (he : t.Enumerates bytes count) :
    (t.insertBlock (packBytes (windowAt bytes t.blockSize (count * t.blockSize))) 0
      (count * t.blockSize)).Enumerates bytes (count + 1) := by
  have hhash : ∀ c : Checksum,
      c.hashRange (packBytes (windowAt bytes t.blockSize (count * t.blockSize))) 0 t.blockSize =
        c.hash (packBytes (windowAt bytes t.blockSize (count * t.blockSize))) := by
    intro c
    rw [Checksum.hashRange_eq, data_packBytes, List.toList_toArray, List.drop_zero, windowAt,
      List.take_take, Nat.min_self]
  constructor
  · show BlockIndex.Enumerates (t.primary.insert (t.primary.checksum.hashRange _ 0 _) _) _ _ _
    rw [hhash]
    exact he.primary.insert
  · intro x hx
    obtain ⟨y, hy, rfl⟩ := Option.map_eq_some_iff.mp hx
    rw [hhash]
    exact (he.secondary y hy).insert

/-- All blocks that are left are listed. -/
theorem Enumerates.recordAll (he : t.Enumerates bytes count) {left : List UInt8} {place : Nat}
    (hp : place = count * t.blockSize) (hl : left = bytes.drop place) (hle : place ≤ bytes.length) :
    (t.recordAll left place).Enumerates bytes (bytes.length / t.blockSize) := by
  fun_induction BlockTable.recordAll t left place generalizing count with
  | case1 t left place hlt =>
    rw [hl, List.length_drop] at hlt
    have hcount : bytes.length / t.blockSize = count := by
      refine Nat.div_eq_of_lt_le (by omega) ?_
      rw [Nat.succ_mul]
      omega
    rwa [hcount]
  | case2 t left place hge ih =>
    subst hp hl
    rw [List.length_drop] at hge
    have hblock := he.insertBlock
    rw [windowAt] at hblock
    exact ih hblock (Nat.succ_mul _ _).symm List.drop_drop (by omega)

/-- **A table that is filled from a byte string lists its blocks.** -/
theorem enumerates_refill (ha : t.Admits) (bytes : List UInt8) :
    (t.refill bytes).Enumerates bytes (bytes.length / t.blockSize) := by
  have hall := (enumerates_clear ha bytes).recordAll (Nat.zero_mul _).symm rfl (Nat.zero_le _)
  constructor
  · exact ⟨hall.primary.admits, hall.primary.toList_lookup⟩
  · intro x hx
    obtain ⟨y, hy, rfl⟩ := Option.map_eq_some_iff.mp hx
    exact ⟨(hall.secondary y hy).admits, (hall.secondary y hy).toList_lookup⟩

theorem enumerates_ofBytes (bytes : List UInt8) :
    (ofBytes bytes blockSize duplicate h).Enumerates bytes (bytes.length / blockSize) := by
  rw [← refill_of_clear clear_empty]
  exact enumerates_refill admits_empty bytes

/-! ## Answers -/

variable {hash : WindowHash} {offset : Nat}

/-- The checksums that a table hashes with. -/
def checksums (t : BlockTable) : List Checksum :=
  t.primary.checksum :: (t.secondary.map BlockIndex.checksum).toList

theorem checksums_clear (t : BlockTable) : t.clear.checksums = t.checksums := by
  unfold checksums clear
  rw [Option.map_map]
  rfl

theorem checksums_ofBytes (bytes : List UInt8) : (ofBytes bytes blockSize duplicate h).checksums =
    .ofSeed Checksum.primarySeed ::
      if duplicate then [.ofSeed Checksum.secondarySeed] else [] := by
  rw [← checksums_clear, clear_ofBytes]
  cases duplicate with
  | false => rfl
  | true => rfl

theorem lists_of_confirmed (hp : offset ∈ t.primary.lookup hash.primary)
    (hc : ∀ confirming ∈ t.confirming hash, confirming.holds offset = true) :
    t.Lists hash offset := by
  refine ⟨hp, fun x hx => ?_⟩
  have hconfirming : t.confirming hash = some ((hash.secondary.map x.lookup).getD #[]) := by
    rw [confirming, hx, Option.map_some]
  have hmem := Chain.mem_of_holds (hc _ hconfirming)
  cases hs : hash.secondary with
  | none =>
    rw [hs] at hmem
    cases Array.not_mem_empty offset hmem
  | some value =>
    rw [hs] at hmem
    exact ⟨value, rfl, hmem⟩

/-- A candidate is listed under every hash. -/
theorem lists_of_mem_candidates (hm : offset ∈ (t.candidates hash).toList) :
    t.Lists hash offset := by
  unfold candidates at hm
  cases hc : t.confirming hash with
  | none =>
    rw [hc] at hm
    exact lists_of_confirmed (Array.mem_toList_iff.mp hm) (by simp [hc])
  | some confirming =>
    rw [hc, Array.mem_toList_iff] at hm
    obtain ⟨hprimary, hholds⟩ := Array.mem_filter.mp hm
    exact lists_of_confirmed hprimary (by simpa [hc] using hholds)

/-- So is what the table contains. -/
theorem lists_of_contains (hc : t.contains hash offset = true) : t.Lists hash offset := by
  obtain ⟨hprimary, hall⟩ := Bool.and_eq_true_iff.mp hc
  refine lists_of_confirmed (Chain.mem_of_holds hprimary) fun confirming hm => ?_
  exact (Option.all_eq_true _ _).mp hall confirming hm

/-- What is listed for a window is the start of a block, and no checksum tells them apart. -/
theorem Enumerates.of_lists (he : t.Enumerates bytes count) {window : List UInt8}
    (hl : t.Lists (t.hash (packBytes window)) offset) :
    (∃ i < count, offset = i * t.blockSize) ∧ ∀ c ∈ t.checksums,
      c.hash (packBytes (windowAt bytes t.blockSize offset)) = c.hash (packBytes window) := by
  have hindex : ∀ {x : BlockIndex}, x.Enumerates bytes t.blockSize count →
      offset ∈ x.lookup (x.checksum.hash (packBytes window)) →
      offset ∈ blockStarts t.blockSize count ∧
        x.checksum.hash (packBytes (windowAt bytes t.blockSize offset)) =
          x.checksum.hash (packBytes window) := by
    intro x hx hm
    rw [← Array.mem_toList_iff, hx.toList_lookup] at hm
    obtain ⟨hstart, heq⟩ := List.mem_filter.mp (Chain.mem_of_mem_admitted hm)
    exact ⟨hstart, of_decide_eq_true heq⟩
  obtain ⟨hstart, heq⟩ := hindex he.primary hl.primary
  refine ⟨mem_blockStarts.mp hstart, ?_⟩
  intro c hc
  rcases List.mem_cons.mp hc with rfl | hc
  · exact heq
  · obtain ⟨x, hx, rfl⟩ := Option.map_eq_some_iff.mp (Option.mem_toList.mp hc)
    obtain ⟨value, hvalue, hm⟩ := hl.secondary x hx
    have hsecondary : (t.hash (packBytes window)).secondary =
        some (x.checksum.hash (packBytes window)) := by
      rw [hash, hashRange, hx]
      rfl
    obtain rfl := Option.some.inj (hsecondary.symm.trans hvalue)
    exact (hindex (he.secondary x hx) hm).2

/-- Without a second checksum, the candidates are the chain. -/
theorem candidates_of_secondary (hs : t.secondary = none) (hash : WindowHash) :
    t.candidates hash = t.primary.lookup hash.primary := by
  unfold candidates confirming
  rw [hs]
  rfl

/-- Without a limit, every block is listed under its hash. -/
theorem Enumerates.mem_candidates (he : t.Enumerates bytes count) (hs : t.secondary = none)
    (hn : t.primary.limit = none) {i : Nat} (hi : i < count) :
    i * t.blockSize ∈ (t.candidates (t.hash (packBytes
      (windowAt bytes t.blockSize (i * t.blockSize))))).toList := by
  rw [candidates_of_secondary hs, he.primary.toList_lookup, hn]
  exact List.mem_filter.mpr ⟨mem_blockStarts.mpr ⟨i, hi, rfl⟩, decide_eq_true rfl⟩

/-- There are no more candidates than blocks. -/
theorem Enumerates.size_candidates_le (he : t.Enumerates bytes count) (hs : t.secondary = none)
    (hash : WindowHash) : (t.candidates hash).size ≤ count := by
  rw [candidates_of_secondary hs, ← Array.length_toList, he.primary.toList_lookup]
  refine Nat.le_trans (Chain.length_admitted_le _ _) (Nat.le_trans (List.length_filter_le _ _) ?_)
  exact Nat.le_of_eq (length_blockStarts _ _)

/-- With one checksum, the table of a byte string has no limit. -/
theorem secondary_ofBytes (bytes : List UInt8) :
    (ofBytes bytes blockSize false h).secondary = none ∧
      (ofBytes bytes blockSize false h).primary.limit = none := by
  have hclear : (ofBytes bytes blockSize false h).clear = empty blockSize false h :=
    clear_ofBytes bytes
  exact ⟨Option.map_eq_none_iff.mp (congrArg BlockTable.secondary hclear),
    congrArg (fun t => t.primary.limit) hclear⟩

end BlockTable

end BinaryDelta
