import BinaryDelta.Proofs.BlockTable.Built
import BinaryDelta.Proofs.BlockTable.Stored

/-!
# Which tables are loaded, and which of these are in order

A table is loaded by recording what its bytes list, chain by chain and offset by offset. Anything
that is listed in full is accepted: hashes may come up in any order and more than once, and so may
offsets. Only the limit of an index is applied anew. Lookups by halving rely on chains that ascend;
those of a loaded table do if they were listed so, which every table that was stored is.

* `StoredIndex.listed` are the offsets under a hash, `StoredTable.Ascends` says that they ascend, as
  far as the limit admits them.
* `BlockTable.Ordered` says that all chains ascend and are within their limits.

Results:
* `BlockTable.exists_stored`: what is loaded was listed.
* `StoredIndex.toList_lookup`: each chain is what the limit admits of what is listed.
* `BlockTable.contains_iff_mem_candidates`: where chains ascend, a table contains its candidates.
* **`BlockTable.readSnapshot_ordered_iff`**: a loaded table is in order, and contains exactly its
  candidates, if and only if its listing ascends.
-/

namespace BinaryDelta

/-! ## What was loaded was listed -/

variable {ρ : Type} [ByteReader ρ] {R : ρ → List UInt8 → Prop}

namespace BlockIndex

/-- The offsets of a chain are recorded one by one. -/
theorem takes_offsets (d : ByteReader.Delivery R) (hash : UInt32) (x : BlockIndex) (count : Nat) :
    ByteReader.Takes R (fun r => readOffsets hash x r count) fun front x' =>
      ∃ offsets : List Nat, offsets.length = count ∧
        (∀ offset ∈ offsets, offset < fieldRange 8) ∧ front = offsets.flatMap (bigEndian 8) ∧
        x' = offsets.foldl (fun x offset => x.insert hash offset) x := by
  induction count generalizing x with
  | zero =>
    refine (ByteReader.takes_nil x).imp ?_
    rintro front x' ⟨rfl, rfl⟩
    exact ⟨[], rfl, List.forall_mem_nil _, rfl, rfl⟩
  | succ count ih =>
    rw [readOffsets_succ]
    refine ((ByteReader.takes_field d 8).sequel fun offset => ih (x.insert hash offset)).imp ?_
    rintro front x' ⟨_, _, offset, rfl, ⟨hlt, rfl⟩, offsets, rfl, hl, rfl, rfl⟩
    exact ⟨offset :: offsets, rfl, List.forall_mem_cons.mpr ⟨hlt, hl⟩, rfl, rfl⟩

/-- Chains are recorded one by one. -/
theorem takes_chains (d : ByteReader.Delivery R) (x : BlockIndex) (count : Nat) :
    ByteReader.Takes R (fun r => readChains x r count) fun front x' =>
      ∃ chains : List (UInt32 × Chain), chains.length = count ∧
        (∀ a ∈ chains, a.2.size < fieldRange 4 ∧ ∀ offset ∈ a.2, offset < fieldRange 8) ∧
        front = chains.flatMap storedChain ∧ x' = chains.foldl record x := by
  induction count generalizing x with
  | zero =>
    refine (ByteReader.takes_nil x).imp ?_
    rintro front x' ⟨rfl, rfl⟩
    exact ⟨[], rfl, List.forall_mem_nil _, rfl, rfl⟩
  | succ count ih =>
    rw [readChains_succ]
    refine ((ByteReader.takes_field d 4).sequel fun hash =>
      (ByteReader.takes_field d 4).sequel fun length =>
      (takes_offsets d (UInt32.ofNat hash) x length).sequel fun x => ih x).imp ?_
    rintro front x' ⟨_, _, hash, rfl, ⟨hhash, rfl⟩, _, _, _, rfl, ⟨hlength, rfl⟩, _, _, x₁, rfl,
      ⟨offsets, rfl, ho, rfl, rfl⟩, chains, rfl, hc, rfl, rfl⟩
    have hnat : (UInt32.ofNat hash).toNat = hash := by
      rw [UInt32.toNat_ofNat']
      exact Nat.mod_eq_of_lt hhash
    refine ⟨(UInt32.ofNat hash, offsets.toArray) :: chains, rfl,
      List.forall_mem_cons.mpr ⟨⟨hlength, by simpa using ho⟩, hc⟩, ?_, rfl⟩
    rw [List.flatMap_cons, storedChain, hnat, List.append_assoc, List.append_assoc]
    rfl

/-- An index lists what it was loaded from. -/
theorem takes_index (d : ByteReader.Delivery R) :
    ByteReader.Takes R readSnapshot fun front x =>
      ∃ s : StoredIndex, front = s.bytes ∧ x = s.index := by
  rw [readSnapshot_eq]
  refine ((ByteReader.takes_field d 8).sequel fun seed =>
    (ByteReader.takes_field d 8).sequel fun scanned =>
    (ByteReader.takes_field d 4).sequel fun limit =>
    (ByteReader.takes_field d 4).sequel fun count => takes_chains d _ count).imp ?_
  rintro front x ⟨_, _, seed, rfl, ⟨hseed, rfl⟩, _, _, scanned, rfl, ⟨hscanned, rfl⟩, _, _, limit,
    rfl, ⟨hlimit, rfl⟩, _, _, _, rfl, ⟨hcount, rfl⟩, chains, rfl, hc, rfl, rfl⟩
  have hnat : (UInt64.ofNat seed).toNat = seed := by
    rw [UInt64.toNat_ofNat']
    exact Nat.mod_eq_of_lt hseed
  refine ⟨⟨UInt64.ofNat seed, scanned, limit, chains, hscanned, hlimit, hcount, hc⟩, ?_, rfl⟩
  rw [StoredIndex.bytes, hnat]

end BlockIndex

namespace BlockTable

/-- So do the one or two indexes of a table. -/
theorem takes_indexes (d : ByteReader.Delivery R) (duplicate : Bool) :
    ByteReader.Takes R (fun r => readIndexes r duplicate) fun front x =>
      ∃ (s : StoredIndex) (s' : Option StoredIndex), s'.isSome = duplicate ∧
        front = s.bytes ++ (s'.map StoredIndex.bytes).getD [] ∧
        x = (s.index, s'.map StoredIndex.index) := by
  rw [readIndexes_eq]
  cases duplicate with
  | false =>
    refine ((BlockIndex.takes_index d).sequel fun primary =>
      ByteReader.takes_nil (primary, none)).imp ?_
    rintro front x ⟨_, _, primary, rfl, ⟨s, rfl, rfl⟩, rfl, rfl⟩
    exact ⟨s, none, rfl, rfl, rfl⟩
  | true =>
    refine ((BlockIndex.takes_index d).sequel fun primary => (BlockIndex.takes_index d).sequel
      fun secondary => ByteReader.takes_nil (primary, some secondary)).imp ?_
    rintro front x ⟨_, _, primary, rfl, ⟨s, rfl, rfl⟩, _, _, secondary, rfl, ⟨s', rfl, rfl⟩, rfl,
      rfl⟩
    exact ⟨s, some s', rfl, by simp, rfl⟩

variable {r r' : ρ} {bytes rest : List UInt8}

/-- A table that was loaded is what its bytes list. -/
theorem exists_stored (d : ByteReader.Delivery R) (h : R r bytes) {t : BlockTable}
    (hr : readSnapshot r = (.ok t, r')) :
    ∃ (s : StoredTable) (rest : List UInt8), bytes = s.bytes ++ rest ∧ t = s.table := by
  unfold readSnapshot at hr
  split at hr
  · cases (Prod.mk.inj hr).1
  rename_i blockSize r₁ h₁
  split at hr
  · rename_i hsize
    split at hr
    · cases (Prod.mk.inj hr).1
    rename_i count r₂ h₂
    split at hr
    · rename_i hcount
      split at hr
      · cases (Prod.mk.inj hr).1
      rename_i primary secondary r₃ h₃
      obtain ⟨⟨⟩, -⟩ := Prod.mk.inj hr
      obtain ⟨_, rest₁, rfl, ⟨-, rfl⟩, hrest₁⟩ := (ByteReader.takes_field d 4).taken h h₁
      obtain ⟨_, rest₂, rfl, ⟨-, rfl⟩, hrest₂⟩ := (ByteReader.takes_field d 1).taken hrest₁ h₂
      obtain ⟨_, rest₃, rfl, ⟨s, s', hs, rfl, heq⟩, -⟩ := (takes_indexes d _).taken hrest₂ h₃
      obtain ⟨rfl, rfl⟩ := Prod.mk.inj heq
      refine ⟨⟨blockSize, s, s', hsize.1, hsize.2⟩, rest₃, ?_, rfl⟩
      have hnumber : (if s'.isSome then 2 else 1) = count := by
        rw [hs]
        rcases hcount with rfl | rfl
        · rfl
        · rfl
      rw [StoredTable.bytes, hnumber]
      simp only [List.append_assoc]
    · cases (Prod.mk.inj hr).1
  · cases (Prod.mk.inj hr).1

end BlockTable

/-! ## What is kept of a listing -/

/-- The offsets that are listed under a hash, in order. -/
def StoredIndex.listed (s : StoredIndex) (hash : UInt32) : List Nat :=
  s.chains.flatMap fun a => if a.1 = hash then a.2.toList else []

theorem Chain.admits_length_admitted (limit : Option Nat) (offsets : List Nat) :
    Admits limit (admitted limit offsets).length := by
  intro n hn
  obtain rfl : limit = some n := hn
  rw [admitted, List.length_take]
  exact Nat.min_le_left _ _

namespace BlockIndex

/-- The chains are what the limit admits of these lists. -/
structure Keeps (x : BlockIndex) (lists : UInt32 → List Nat) : Prop where
  admits : Chain.Admits x.limit 1
  toList_lookup : ∀ hash, (x.lookup hash).toList = Chain.admitted x.limit (lists hash)

variable {x : BlockIndex} {lists : UInt32 → List Nat}

theorem Keeps.insert (h : x.Keeps lists) (hash : UInt32) (offset : Nat) :
    (x.insert hash offset).Keeps fun key => lists key ++ if hash = key then [offset] else [] := by
  refine ⟨h.admits, fun key => ?_⟩
  rw [limit_insert, lookup_insert h.admits]
  split
  · exact Chain.toList_extend (h.toList_lookup key) offset
  · rw [List.append_nil]
    exact h.toList_lookup key

theorem Keeps.record (h : x.Keeps lists) (a : UInt32 × Chain) :
    (x.record a).Keeps fun key => lists key ++ if a.1 = key then a.2.toList else [] := by
  unfold BlockIndex.record
  generalize a.2.toList = offsets
  induction offsets generalizing x lists with
  | nil => simpa using h
  | cons offset offsets ih =>
    have hmore := ih (h.insert a.1 offset)
    have hlists : (fun key => lists key ++ if a.1 = key then offset :: offsets else []) =
        fun key => (lists key ++ if a.1 = key then [offset] else []) ++
          if a.1 = key then offsets else [] := by
      funext key
      split <;> simp
    rw [List.foldl_cons, hlists]
    exact hmore

theorem Keeps.foldl_record (h : x.Keeps lists) (chains : List (UInt32 × Chain)) :
    (chains.foldl BlockIndex.record x).Keeps fun key =>
      lists key ++ chains.flatMap fun a => if a.1 = key then a.2.toList else [] := by
  induction chains generalizing x lists with
  | nil => simpa using h
  | cons a chains ih =>
    simp only [List.foldl_cons, List.flatMap_cons, ← List.append_assoc]
    exact ih (h.record a)

end BlockIndex

namespace StoredIndex

theorem limit_index (s : StoredIndex) : s.index.limit = s.chainLimit :=
  (BlockIndex.frame_foldl_record _ _).2.1

/-- A limit that is stored admits a block. -/
theorem admits_chainLimit (s : StoredIndex) : Chain.Admits s.chainLimit 1 := by
  intro n hn
  unfold chainLimit at hn
  split at hn
  · cases hn
  · cases hn
    omega

/-- Under each hash the limit admits the first of the offsets that are listed under it. -/
theorem toList_lookup (s : StoredIndex) (hash : UInt32) :
    (s.index.lookup hash).toList = Chain.admitted s.chainLimit (s.listed hash) := by
  have hempty : BlockIndex.Keeps
      { checksum := .ofSeed s.seed, limit := s.chainLimit, scanned := s.scanned } fun _ => [] := by
    refine ⟨s.admits_chainLimit, fun hash => ?_⟩
    rw [BlockIndex.lookup_eq, Std.TreeMap.getElem?_emptyc]
    dsimp only
    cases s.chainLimit with
    | none => rfl
    | some n => exact List.take_nil.symm
  have hkeeps := (hempty.foldl_record s.chains).toList_lookup hash
  rw [← index, limit_index, List.nil_append] at hkeeps
  exact hkeeps

theorem admits_lookup (s : StoredIndex) (hash : UInt32) :
    Chain.Admits s.index.limit (s.index.lookup hash).size := by
  rw [limit_index, ← Array.length_toList, toList_lookup]
  exact Chain.admits_length_admitted _ _

end StoredIndex

namespace BlockTable

/-- The indexes of a table. -/
def indexes (t : BlockTable) : List BlockIndex := t.primary :: t.secondary.toList

/-- Every chain of every index ascends and is within the limit. -/
def Ordered (t : BlockTable) : Prop := ∀ x ∈ t.indexes, ∀ hash,
  (x.lookup hash).Ascending ∧ Chain.Admits x.limit (x.lookup hash).size

variable {t : BlockTable}

/-- If the chains ascend, a table contains its candidates. -/
theorem contains_iff_mem_candidates {hash : WindowHash}
    (ha : (t.primary.lookup hash.primary).Ascending) (offset : Nat) :
    t.contains hash offset = true ↔ offset ∈ t.candidates hash := by
  rw [contains, Bool.and_eq_true_iff, Chain.holds_iff_mem ha, candidates]
  cases t.confirming hash with
  | none => simp
  | some confirming => simp [Array.mem_filter]

end BlockTable

/-- The offsets listed under each hash ascend, as far as the limit admits them. -/
def StoredTable.Ascends (s : StoredTable) : Prop := ∀ x ∈ s.primary :: s.secondary.toList,
  ∀ hash, (Chain.admitted x.chainLimit (x.listed hash)).Pairwise (· < ·)

namespace BlockTable

theorem indexes_table (s : StoredTable) :
    s.table.indexes = (s.primary :: s.secondary.toList).map StoredIndex.index := by
  unfold indexes StoredTable.table
  cases s.secondary with
  | none => rfl
  | some x => rfl

/-- A loaded table is in order if its listing is. -/
theorem ordered_table_iff (s : StoredTable) : s.table.Ordered ↔ s.Ascends := by
  unfold Ordered StoredTable.Ascends
  rw [indexes_table, List.forall_mem_map]
  refine forall₂_congr fun x hx => forall_congr' fun hash => ?_
  rw [Chain.Ascending, x.toList_lookup, and_iff_left (x.admits_lookup hash)]

/-- **Which tables are loaded, and which of these are in order.** The bytes that are accepted are
those that list a table; whatever follows is left over. No chain that is loaded is longer than the
limit of its index. But chains are loaded as they are listed: that they ascend, and that the table
contains exactly its candidates, holds if the offsets listed under each hash ascend, as far as the
limit admits them, and not otherwise. -/
theorem readSnapshot_ordered_iff {r : ρ} {bytes : List UInt8} (h : ByteReader.Delivers r bytes) :
    ((∃ t r', readSnapshot r = (.ok t, r')) ↔
      ∃ (s : StoredTable) (rest : List UInt8), bytes = s.bytes ++ rest) ∧
    ∀ (s : StoredTable) (rest : List UInt8), bytes = s.bytes ++ rest →
      ∃ r', readSnapshot r = (.ok s.table, r') ∧ ByteReader.Delivers r' rest ∧
        (∀ x ∈ s.table.indexes, ∀ hash, Chain.Admits x.limit (x.lookup hash).size) ∧
        ((s.table.Ordered ∧ ∀ hash offset,
            s.table.contains hash offset = true ↔ offset ∈ s.table.candidates hash) ↔
          s.Ascends) := by
  have d := ByteReader.delivery_delivers (ρ := ρ)
  have hlisted : ∀ (s : StoredTable) (rest : List UInt8), bytes = s.bytes ++ rest →
      ∃ r', readSnapshot r = (.ok s.table, r') ∧ ByteReader.Delivers r' rest := by
    rintro s rest rfl
    exact readSnapshot_listed d s h
  refine ⟨⟨?_, ?_⟩, fun s rest hbytes => ?_⟩
  · rintro ⟨t, r', hr⟩
    obtain ⟨s, rest, hbytes, -⟩ := exists_stored d h hr
    exact ⟨s, rest, hbytes⟩
  · rintro ⟨s, rest, hbytes⟩
    obtain ⟨r', hr, -⟩ := hlisted s rest hbytes
    exact ⟨s.table, r', hr⟩
  · obtain ⟨r', hr, hrest⟩ := hlisted s rest hbytes
    refine ⟨r', hr, hrest, ?_, fun hordered => (ordered_table_iff s).mp hordered.1, fun hs => ?_⟩
    · rw [indexes_table, List.forall_mem_map]
      exact fun x hx => x.admits_lookup
    · have hordered := (ordered_table_iff s).mpr hs
      exact ⟨hordered, fun hash => contains_iff_mem_candidates
        (hordered _ List.mem_cons_self hash.primary).1⟩

/-- Two chains under one hash, of which the limit admits no more than what ascends. -/
theorem readSnapshot_ordered_limited :
    let s : StoredTable := ⟨4, ⟨1, 40, 2, [(7, #[4, 12, 8]), (9, #[16]), (7, #[0])],
      by decide, by decide, by decide, by decide⟩, none, by decide, by decide⟩
    ∃ r', readSnapshot (⟨packBytes s.bytes, 0⟩ : MemoryStream) = (.ok s.table, r') ∧
      s.table.Ordered ∧ ∀ hash offset,
        s.table.contains hash offset = true ↔ offset ∈ s.table.candidates hash := by
  intro s
  have hdelivers := MemoryStream.delivers ⟨packBytes s.bytes, 0⟩
  rw [List.drop_zero, data_packBytes, List.toList_toArray] at hdelivers
  have hs : s.Ascends := by
    intro x hx hash
    obtain rfl := List.mem_singleton.mp hx
    by_cases h₇ : 7 = hash
    · subst h₇
      decide
    · by_cases h₉ : 9 = hash
      · subst h₉
        decide
      · simp [s, StoredIndex.chainLimit, StoredIndex.listed, Chain.admitted, h₇, h₉]
  obtain ⟨r', hr, -, -, hiff⟩ :=
    (readSnapshot_ordered_iff hdelivers).2 s [] (List.append_nil _).symm
  exact ⟨r', hr, hiff.mpr hs⟩

/-- A chain that does not ascend: its first offset is a candidate, but the table does not contain
it. -/
theorem readSnapshot_descending :
    let bytes : List UInt8 := [0, 0, 0, 4, 1, 0, 0, 0, 0, 0, 0, 0, 1, 0, 0, 0, 0, 0, 0, 0, 40,
      0, 0, 0, 0, 0, 0, 0, 1, 0, 0, 0, 7, 0, 0, 0, 2,
      0, 0, 0, 0, 0, 0, 0, 8, 0, 0, 0, 0, 0, 0, 0, 4]
    ∃ t r', readSnapshot (⟨packBytes bytes, 0⟩ : MemoryStream) = (.ok t, r') ∧
      8 ∈ t.candidates ⟨7, none⟩ ∧ t.contains ⟨7, none⟩ 8 = false := by
  intro bytes
  let x : StoredIndex :=
    ⟨1, 40, 0, [(7, #[8, 4])], by decide, by decide, by decide, by decide⟩
  let s : StoredTable := ⟨4, x, none, by decide, by decide⟩
  have hbytes : bytes = s.bytes ++ [] := by decide
  have hdelivers := MemoryStream.delivers ⟨packBytes bytes, 0⟩
  rw [List.drop_zero, data_packBytes, List.toList_toArray] at hdelivers
  obtain ⟨r', hr, -⟩ := readSnapshot_listed (r := (⟨packBytes bytes, 0⟩ : MemoryStream))
    ByteReader.delivery_delivers s (by rwa [← hbytes])
  have hlookup : s.table.primary.lookup 7 = #[8, 4] := Array.toList_inj.mp (x.toList_lookup 7)
  have hnarrow : Chain.narrow #[8, 4] 8 0 2 = 1 := by
    rw [Chain.narrow, if_neg (by decide)]
    dsimp only
    rw [Chain.narrow, if_pos (by decide)]
    rfl
  refine ⟨s.table, r', hr, ?_, ?_⟩
  · rw [candidates_of_secondary rfl, hlookup]
    simp
  · have hholds : Chain.holds #[8, 4] 8 = false := by
      rw [Chain.holds, List.size_toArray, List.length_cons, List.length_singleton, hnarrow]
      rfl
    rw [contains, hlookup, hholds]
    rfl

end BlockTable

end BinaryDelta
