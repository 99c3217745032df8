import BinaryDelta.BlockTable.Index
import Std.Data.TreeMap.Lemmas

/-!
# What a block index holds

A source is scanned from front to end, so every chain ascends, and a halving search in it is exact.
Recording the chains of an index once more, in any order, into an index without blocks makes one
that answers every lookup alike.

* `BlockIndex.record` records a whole chain.
* `BlockIndex.Recorded` bounds what an index holds after so many blocks that lie below some place.

Results:
* `Chain.holds_iff_mem`: an ascending chain holds its members.
* `BlockIndex.Recorded.insert`: the next block keeps the bounds.
* **`BlockIndex.getElem?_foldl_record`**: chains under different hashes, within the limit, are what
  an index holds into which they are recorded.
-/

namespace BinaryDelta

/-! ## Ascending chains -/

namespace Chain

/-- The offsets of the chain ascend. -/
def Ascending (chain : Chain) : Prop := chain.toList.Pairwise (· < ·)

theorem Ascending.getElem_lt {chain : Chain} (h : chain.Ascending) {i j : Nat}
    (hj : j < chain.size) (hij : i < j) : chain[i] < chain[j] :=
  List.pairwise_iff_getElem.mp h i j (by simpa using Nat.lt_trans hij hj) (by simpa using hj) hij

theorem Ascending.push {chain : Chain} (h : chain.Ascending) {offset : Nat}
    (hl : ∀ member ∈ chain, member < offset) : Ascending (chain.push offset) := by
  unfold Ascending
  rw [Array.toList_push, List.pairwise_append]
  refine ⟨h, List.pairwise_singleton _ _, ?_⟩
  intro member hm last hlast
  rw [List.mem_singleton.mp hlast]
  exact hl member (Array.mem_toList_iff.mp hm)

/-- An ascending chain with a block at the very front begins there. -/
theorem Ascending.eq_zero_cons {chain : Chain} (h : chain.Ascending) (hm : 0 ∈ chain) :
    ∃ others, chain.toList = 0 :: others := by
  rcases chain with ⟨_ | ⟨first, others⟩⟩
  · cases Array.not_mem_empty 0 hm
  · rcases List.mem_cons.mp (Array.mem_toList_iff.mpr hm) with rfl | hlater
    · exact ⟨others, rfl⟩
    · exact absurd (List.rel_of_pairwise_cons h hlater) (Nat.not_lt_zero first)

/-- The halving search ends at a member that lies in its range. -/
theorem narrow_eq {chain : Chain} (h : chain.Ascending) {i : Nat} (hi : i < chain.size)
    {base size : Nat} (hb : base ≤ i) (hs : i < base + size) (hsize : base + size ≤ chain.size) :
    chain.narrow chain[i] base size = i := by
  generalize hoffset : chain[i] = offset
  fun_induction narrow chain offset base size with
  | case1 base size hle => omega
  | case2 base size hlt half base' ih =>
    have hhalf : half = size / 2 := rfl
    have hin : base + half < chain.size := by omega
    have hget : chain.getD (base + half) 0 = chain[base + half] := by
      rw [Array.getD_eq_getD_getElem?, Array.getElem?_eq_getElem (by omega), Option.getD_some]
    -- the middle is kept if and only if it is not behind the member
    have hmid : base' = if i < base + half then base else base + half := by
      show (if offset < chain.getD (base + half) 0 then base else base + half) = _
      rw [hget, ← hoffset]
      rcases Nat.lt_trichotomy i (base + half) with hlow | heq | hhigh
      · rw [if_pos (h.getElem_lt (by omega) hlow), if_pos hlow]
      · simp [heq]
      · rw [if_neg (by have := h.getElem_lt hi hhigh; omega), if_neg (by omega)]
    split at hmid
    · exact ih (by omega) (by omega) (by omega)
    · exact ih (by omega) (by omega) (by omega)

/-- An ascending chain holds its members. -/
theorem holds_iff_mem {chain : Chain} (h : chain.Ascending) (offset : Nat) :
    chain.holds offset = true ↔ offset ∈ chain := by
  unfold holds
  rw [beq_iff_eq]
  constructor
  · intro hget
    exact Array.mem_of_getElem? hget
  · intro hmem
    obtain ⟨i, hi, rfl⟩ := Array.getElem_of_mem hmem
    rw [narrow_eq h hi (Nat.zero_le i) (by omega) (by omega), Array.getElem?_eq_getElem hi]

/-- There is room for a chain of so many blocks. -/
def Admits (limit : Option Nat) (count : Nat) : Prop := ∀ n ∈ limit, count ≤ n

/-- What a chain is like when at most `count` blocks were recorded in ascending order, all of which
begin below `place`. -/
structure Regular (limit : Option Nat) (count place : Nat) (chain : Chain) : Prop where
  size_pos : 0 < chain.size
  size_le : chain.size ≤ count
  admits : Admits limit chain.size
  ascending : chain.Ascending
  lt_place : ∀ offset ∈ chain, offset < place

section Regular

variable {limit : Option Nat} {count place : Nat} {chain : Chain}

theorem regular_singleton (h : Admits limit 1) (count : Nat) {offset place : Nat}
    (hl : offset < place) : Regular limit (count + 1) place #[offset] :=
  ⟨Nat.one_pos, Nat.le_add_left 1 count, h, List.pairwise_singleton _ _, by simpa using hl⟩

theorem Regular.mono (h : Regular limit count place chain) {count' place' : Nat}
    (hc : count ≤ count') (hp : place ≤ place') : Regular limit count' place' chain :=
  ⟨h.size_pos, Nat.le_trans h.size_le hc, h.admits, h.ascending, fun offset hm =>
    Nat.lt_of_lt_of_le (h.lt_place offset hm) hp⟩

theorem Regular.push (h : Regular limit count place chain) {next : Nat} (hn : place < next)
    (ha : Admits limit (chain.size + 1)) : Regular limit (count + 1) next (chain.push place) := by
  have hsize : Array.size (chain.push place) = chain.size + 1 := Array.size_push place
  constructor
  · omega
  · have := h.size_le
    omega
  · rwa [hsize]
  · exact h.ascending.push h.lt_place
  · intro offset hm
    rcases Array.mem_push.mp hm with hm | rfl
    · exact Nat.lt_trans (h.lt_place offset hm) hn
    · exact hn

/-- One more block, at the place behind all others, keeps a chain regular. -/
theorem Regular.extend (h : Regular limit count place chain) {next : Nat} (hn : place < next) :
    Regular limit (count + 1) next (chain.extend limit place) := by
  cases limit with
  | none => exact h.push hn nofun
  | some n =>
    by_cases hfull : n ≤ chain.size
    · rw [Chain.extend, if_pos hfull]
      exact h.mono (Nat.le_succ count) (Nat.le_of_lt hn)
    · rw [Chain.extend, if_neg hfull]
      refine h.push hn ?_
      rintro _ ⟨⟩
      omega

end Regular

/-- Within the limit, a chain grows. -/
theorem extend_of_admits {limit : Option Nat} {chain : Chain} (h : Admits limit (chain.size + 1))
    (offset : Nat) : chain.extend limit offset = chain.push offset := by
  cases limit with
  | none => rfl
  | some n =>
    have := h n rfl
    rw [Chain.extend, if_neg (by omega)]

theorem mem_extend {limit : Option Nat} {offset member : Nat} {chain : Chain}
    (h : member ∈ chain) : member ∈ chain.extend limit offset := by
  unfold extend
  split
  · exact Array.mem_push_of_mem _ h
  · split
    · exact h
    · exact Array.mem_push_of_mem _ h

end Chain

namespace BlockIndex

/-! ## One block -/

/-- What the chain under a hash becomes by one more block. -/
def grown (limit : Option Nat) (offset : Nat) : Option Chain → Chain
  | none => #[offset]
  | some chain => chain.extend limit offset

theorem checksum_insert (x : BlockIndex) (hash : UInt32) (offset : Nat) :
    (x.insert hash offset).checksum = x.checksum := rfl

theorem limit_insert (x : BlockIndex) (hash : UInt32) (offset : Nat) :
    (x.insert hash offset).limit = x.limit := rfl

theorem scanned_insert (x : BlockIndex) (hash : UInt32) (offset : Nat) :
    (x.insert hash offset).scanned = x.scanned := rfl

theorem getElem?_insert (x : BlockIndex) (hash key : UInt32) (offset : Nat) :
    (x.insert hash offset).chains[key]? =
      if hash = key then some (grown x.limit offset x.chains[hash]?) else x.chains[key]? := by
  show (x.chains.alter hash _)[key]? = _
  rw [Std.TreeMap.getElem?_alter]
  simp only [Std.LawfulEqCmp.compare_eq_iff_eq]
  split
  · cases x.chains[hash]? <;> rfl
  · rfl

theorem size_insert_le (x : BlockIndex) (hash : UInt32) (offset : Nat) :
    (x.insert hash offset).size ≤ x.size + 1 :=
  Std.TreeMap.size_alter_le_size

theorem lookup_eq (x : BlockIndex) (hash : UInt32) : x.lookup hash = x.chains[hash]?.getD #[] :=
  Std.TreeMap.getD_eq_getD_getElem?

/-! ## Many blocks -/

/-- What an index holds after so many blocks in ascending order, all of which begin below
`place`. -/
structure Recorded (x : BlockIndex) (count place : Nat) : Prop where
  admits : Chain.Admits x.limit 1
  size_le : x.size ≤ count
  regular : ∀ {hash : UInt32} {chain : Chain}, x.chains[hash]? = some chain →
    chain.Regular x.limit count place

theorem recorded_empty {x : BlockIndex} (ha : Chain.Admits x.limit 1) (h : x.chains = ∅)
    (place : Nat) : Recorded x 0 place := by
  constructor
  · exact ha
  · rw [size, h]
    exact Nat.le_refl 0
  · intro hash chain hchain
    rw [h, Std.TreeMap.getElem?_emptyc] at hchain
    cases hchain

theorem Recorded.mono {x : BlockIndex} {count place : Nat} (h : Recorded x count place)
    {count' place' : Nat} (hc : count ≤ count') (hp : place ≤ place') : Recorded x count' place' :=
  ⟨h.admits, Nat.le_trans h.size_le hc, fun hchain => (h.regular hchain).mono hc hp⟩

/-- The next block keeps the bounds. -/
theorem Recorded.insert {x : BlockIndex} {count place : Nat} (h : Recorded x count place)
    (hash : UInt32) {next : Nat} (hn : place < next) :
    Recorded (x.insert hash place) (count + 1) next := by
  constructor
  · exact h.admits
  · exact Nat.le_trans (size_insert_le x hash place) (Nat.succ_le_succ h.size_le)
  · intro key chain hchain
    rw [limit_insert]
    rw [getElem?_insert] at hchain
    split at hchain
    · cases hchain
      cases hold : x.chains[hash]? with
      | none => exact Chain.regular_singleton h.admits count hn
      | some old => exact (h.regular hold).extend hn
    · exact (h.regular hchain).mono (Nat.le_succ count) (Nat.le_of_lt hn)

theorem Recorded.ascending_lookup {x : BlockIndex} {count place : Nat} (h : Recorded x count place)
    (hash : UInt32) : (x.lookup hash).Ascending := by
  rw [lookup_eq]
  cases hchain : x.chains[hash]? with
  | none => exact List.Pairwise.nil
  | some chain => exact (h.regular hchain).ascending

/-- A block stays recorded. -/
theorem mem_lookup_insert {x : BlockIndex} {key : UInt32} {member : Nat}
    (h : member ∈ x.lookup key) (hash : UInt32) (offset : Nat) :
    member ∈ (x.insert hash offset).lookup key := by
  rw [lookup_eq] at h ⊢
  rw [getElem?_insert]
  by_cases heq : hash = key
  · subst heq
    rw [if_pos rfl]
    cases hold : x.chains[hash]? with
    | none =>
      rw [hold] at h
      cases Array.not_mem_empty member h
    | some chain =>
      rw [hold] at h
      exact Chain.mem_extend h
  · rwa [if_neg heq]

/-- The first block under a hash is recorded. -/
theorem mem_lookup_insert_self {x : BlockIndex} {hash : UInt32} (h : x.chains[hash]? = none)
    (offset : Nat) : offset ∈ (x.insert hash offset).lookup hash := by
  rw [lookup_eq, getElem?_insert, if_pos rfl, h]
  simp [grown]

/-! ## Whole chains -/

/-- Records the offsets of a chain. -/
def record (x : BlockIndex) (stored : UInt32 × Chain) : BlockIndex :=
  stored.2.toList.foldl (fun x offset => x.insert stored.1 offset) x

theorem checksum_foldl_insert (x : BlockIndex) (hash : UInt32) (offsets : List Nat) :
    (offsets.foldl (fun x offset => x.insert hash offset) x).checksum = x.checksum := by
  induction offsets generalizing x with
  | nil => rfl
  | cons offset offsets ih => rw [List.foldl_cons, ih, checksum_insert]

theorem limit_foldl_insert (x : BlockIndex) (hash : UInt32) (offsets : List Nat) :
    (offsets.foldl (fun x offset => x.insert hash offset) x).limit = x.limit := by
  induction offsets generalizing x with
  | nil => rfl
  | cons offset offsets ih => rw [List.foldl_cons, ih, limit_insert]

theorem scanned_foldl_insert (x : BlockIndex) (hash : UInt32) (offsets : List Nat) :
    (offsets.foldl (fun x offset => x.insert hash offset) x).scanned = x.scanned := by
  induction offsets generalizing x with
  | nil => rfl
  | cons offset offsets ih => rw [List.foldl_cons, ih, scanned_insert]

/-- Recording chains changes neither the checksum nor the limit nor what was scanned. -/
theorem frame_foldl_record (x : BlockIndex) (stored : List (UInt32 × Chain)) :
    (stored.foldl record x).checksum = x.checksum ∧ (stored.foldl record x).limit = x.limit ∧
      (stored.foldl record x).scanned = x.scanned := by
  induction stored generalizing x with
  | nil => exact ⟨rfl, rfl, rfl⟩
  | cons a stored ih =>
    rw [List.foldl_cons, (ih _).1, (ih _).2.1, (ih _).2.2]
    exact ⟨checksum_foldl_insert x _ _, limit_foldl_insert x _ _, scanned_foldl_insert x _ _⟩

theorem getElem?_foldl_insert_of_ne {hash key : UInt32} (hne : hash ≠ key) (x : BlockIndex)
    (offsets : List Nat) :
    (offsets.foldl (fun x offset => x.insert hash offset) x).chains[key]? = x.chains[key]? := by
  induction offsets generalizing x with
  | nil => rfl
  | cons offset offsets ih => rw [List.foldl_cons, ih, getElem?_insert, if_neg hne]

/-- Within the limit, a chain grows by all offsets that are recorded under its hash. -/
theorem getElem?_foldl_insert_self {x : BlockIndex} {hash : UInt32} {chain : Chain}
    (h : x.chains[hash]? = some chain) {offsets : List Nat}
    (hl : Chain.Admits x.limit (chain.size + offsets.length)) :
    (offsets.foldl (fun x offset => x.insert hash offset) x).chains[hash]? =
      some (chain ++ offsets) := by
  induction offsets generalizing x chain with
  | nil => simpa using h
  | cons offset offsets ih =>
    have hgrown : grown x.limit offset (some chain) = chain.push offset := by
      refine Chain.extend_of_admits ?_ offset
      intro n hn
      have := hl n hn
      rw [List.length_cons] at this
      omega
    have hnext : (x.insert hash offset).chains[hash]? = some (chain.push offset) := by
      rw [getElem?_insert, if_pos rfl, h, hgrown]
    rw [List.foldl_cons, ih hnext]
    · simp
    · rw [limit_insert, Array.size_push, Nat.add_assoc, Nat.add_comm 1]
      exact hl

/-- A chain that fits into the limit is recorded as it is, if there is none under its hash. -/
theorem getElem?_record_self {x : BlockIndex} {hash : UInt32} (h : x.chains[hash]? = none)
    {chain : Chain} (hpos : 0 < chain.size) (hl : Chain.Admits x.limit chain.size) :
    (x.record (hash, chain)).chains[hash]? = some chain := by
  rcases chain with ⟨_ | ⟨first, offsets⟩⟩
  · cases hpos
  · have hfirst : (x.insert hash first).chains[hash]? = some #[first] := by
      rw [getElem?_insert, if_pos rfl, h]
      rfl
    have hadmits : Chain.Admits (x.insert hash first).limit (1 + offsets.length) := by
      rw [limit_insert, Nat.add_comm]
      exact hl
    have hall := getElem?_foldl_insert_self hfirst hadmits
    rw [record]
    simpa using hall

/-- Chains under different hashes, within the limit, are all that is added by recording them. -/
theorem getElem?_foldl_record {x : BlockIndex} {stored : List (UInt32 × Chain)}
    (hd : stored.Pairwise fun a b => a.1 ≠ b.1)
    (hnew : ∀ a ∈ stored, x.chains[a.1]? = none)
    (hfit : ∀ a ∈ stored, 0 < a.2.size ∧ Chain.Admits x.limit a.2.size) (hash : UInt32)
    (chain : Chain) :
    (stored.foldl record x).chains[hash]? = some chain ↔
      x.chains[hash]? = some chain ∨ (hash, chain) ∈ stored := by
  induction stored generalizing x with
  | nil => simp
  | cons a stored ih =>
    obtain ⟨hash', chain'⟩ := a
    obtain ⟨hne, hd⟩ := List.pairwise_cons.mp hd
    obtain ⟨hnew', hnew⟩ := List.forall_mem_cons.mp hnew
    obtain ⟨⟨hpos, hadmits⟩, hfit⟩ := List.forall_mem_cons.mp hfit
    have hlimit : (x.record (hash', chain')).limit = x.limit := limit_foldl_insert x hash' _
    have hself := getElem?_record_self hnew' hpos hadmits
    have hother : ∀ {key}, hash' ≠ key →
        (x.record (hash', chain')).chains[key]? = x.chains[key]? := by
      intro key hk
      exact getElem?_foldl_insert_of_ne hk x _
    rw [List.foldl_cons, ih hd, List.mem_cons, Prod.mk.injEq]
    · by_cases heq : hash' = hash
      · subst heq
        have hnot : (hash', chain) ∉ stored := fun hmem => hne _ hmem rfl
        simp [hself, hnot, hnew', eq_comm]
      · rw [hother heq]
        simp [Ne.symm heq]
    · intro a ha
      rw [hother (hne a ha)]
      exact hnew a ha
    · rw [hlimit]
      exact hfit

end BlockIndex

end BinaryDelta
