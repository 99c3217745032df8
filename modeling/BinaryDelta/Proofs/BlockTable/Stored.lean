import BinaryDelta.BlockTable.Snapshot
import BinaryDelta.Proofs.BlockTable.Recorded
import BinaryDelta.Proofs.Stream.Loading

/-!
# Storing and loading a table

What a snapshot holds of an index are its chains, in the order of their hashes; how many blocks were
recorded, and the order in which hashes came up, is lost. A loaded table is therefore not the table
that was stored. It answers every lookup as that did, if every number fits into its field.

* `BlockIndex.Alike`, `BlockTable.Alike` compare by the answers to lookups.
* `BlockIndex.stored`, `BlockTable.stored` are the bytes of a snapshot.
* `StoredIndex`, `StoredTable` are what bytes of that form list, those of a snapshot or any others;
  `bytes` and `table` are the bytes and what is loaded of them.
* `BlockIndex.Storable`, `BlockTable.Storable` hold where every number fits into its field.
* `BlockIndex.reloaded`, `BlockTable.reloaded` are what is loaded of them.
* `BlockTable.Genuine` is what a table has from its making on: the checksums of its seeds, and
  limits that admit a block.

Results:
* `BlockTable.toList_snapshot`: the snapshot is the stored bytes.
* `BlockTable.readSnapshot_listed`, `BlockTable.readSnapshot_listed_cut`: what bytes list is loaded
  wherever they begin, and not at all if any of them are missing at the end.
* `BlockTable.readSnapshot_stored`, `BlockTable.readSnapshot_cut`: so it is with the stored bytes.
* **`BlockTable.alike_reloaded`**, `BlockTable.stored_reloaded`: what is loaded answers alike, and
  is stored as it was.
* `BlockTable.storable_ofBytes`: the table of a byte string of fewer than 2³² blocks can be stored.
-/

namespace BinaryDelta

/-! ## Tables that answer alike -/

/-- The same checksum, and the same chain under every hash. -/
structure BlockIndex.Alike (x x' : BlockIndex) : Prop where
  checksum_eq : x'.checksum = x.checksum
  lookup_eq : ∀ hash, x'.lookup hash = x.lookup hash

/-- The same block size, and indexes that answer alike. -/
structure BlockTable.Alike (t t' : BlockTable) : Prop where
  blockSize_eq : t'.blockSize = t.blockSize
  primary : t.primary.Alike t'.primary
  secondary : Option.Rel BlockIndex.Alike t.secondary t'.secondary

namespace BlockTable.Alike

variable {t t' : BlockTable}

theorem refl (t : BlockTable) : t.Alike t := by
  refine ⟨rfl, ⟨rfl, fun _ => rfl⟩, ?_⟩
  cases t.secondary with
  | none => exact .none
  | some x => exact .some ⟨rfl, fun _ => rfl⟩

theorem secondary_cases (h : t.Alike t') : (t.secondary = none ∧ t'.secondary = none) ∨
    ∃ x x', t.secondary = some x ∧ t'.secondary = some x' ∧ x.Alike x' := by
  have hs := h.secondary
  generalize t.secondary = s at hs ⊢
  generalize t'.secondary = s' at hs ⊢
  cases hs with
  | none => exact .inl ⟨rfl, rfl⟩
  | some hx => exact .inr ⟨_, _, rfl, rfl, hx⟩

theorem isDuplicate_eq (h : t.Alike t') : t'.isDuplicate = t.isDuplicate := by
  unfold isDuplicate
  rcases h.secondary_cases with ⟨hs, hs'⟩ | ⟨x, x', hs, hs', -⟩
  · rw [hs, hs']
  · rw [hs, hs', Option.isSome_some, Option.isSome_some]

/-- When a table was finished makes no difference. -/
theorem of_finish (h : t.Alike t') (scanned : Nat) : (t.finish scanned).Alike t' := by
  refine ⟨h.blockSize_eq, ⟨h.primary.checksum_eq, h.primary.lookup_eq⟩, ?_⟩
  unfold finish
  rcases h.secondary_cases with ⟨hs, hs'⟩ | ⟨x, x', hs, hs', hx⟩
  · rw [hs, hs']
    exact .none
  · rw [hs, hs']
    exact .some ⟨hx.checksum_eq, hx.lookup_eq⟩

theorem hashRange_eq (h : t.Alike t') : t'.hashRange = t.hashRange := by
  funext bytes start count
  rw [hashRange, hashRange, h.primary.checksum_eq]
  rcases h.secondary_cases with ⟨hs, hs'⟩ | ⟨x, x', hs, hs', hx⟩
  · rw [hs, hs']
  · rw [hs, hs', Option.map_some, Option.map_some, hx.checksum_eq]

theorem hash_eq (h : t.Alike t') : t'.hash = t.hash := by
  funext window
  rw [hash, hash, h.hashRange_eq]

theorem roll_eq (h : t.Alike t') : t'.roll = t.roll := by
  funext hash outgoing incoming
  rw [roll, roll, h.primary.checksum_eq, h.blockSize_eq]
  rcases h.secondary_cases with ⟨hs, hs'⟩ | ⟨x, x', hs, hs', hx⟩
  · rw [hs, hs']
  · rw [hs, hs']
    cases hash.secondary with
    | none => rfl
    | some value => simp only [hx.checksum_eq]

theorem confirming_eq (h : t.Alike t') (hash : WindowHash) :
    t'.confirming hash = t.confirming hash := by
  unfold confirming
  rcases h.secondary_cases with ⟨hs, hs'⟩ | ⟨x, x', hs, hs', hx⟩
  · rw [hs, hs']
  · rw [hs, hs', Option.map_some, Option.map_some, funext hx.lookup_eq]

theorem candidates_eq (h : t.Alike t') (hash : WindowHash) :
    t'.candidates hash = t.candidates hash := by
  rw [candidates, candidates, h.primary.lookup_eq, h.confirming_eq]

theorem contains_eq (h : t.Alike t') (hash : WindowHash) (offset : Nat) :
    t'.contains hash offset = t.contains hash offset := by
  rw [contains, contains, h.primary.lookup_eq, h.confirming_eq]

end BlockTable.Alike

/-! ## The bytes of a snapshot -/

theorem toList_appendBytes (out : ByteArray) (bytes : List UInt8) :
    (appendBytes out bytes).data.toList = out.data.toList ++ bytes := by
  rw [appendBytes_eq, toList_append, data_packBytes, List.toList_toArray]

/-- If each step appends, all of them do. -/
theorem toList_foldl {α : Type} {step : ByteArray → α → ByteArray} {part : α → List UInt8}
    (h : ∀ out a, (step out a).data.toList = out.data.toList ++ part a) (out : ByteArray)
    (as : List α) : (as.foldl step out).data.toList = out.data.toList ++ as.flatMap part := by
  induction as generalizing out with
  | nil => simp
  | cons a as ih => rw [List.foldl_cons, ih, h, List.flatMap_cons, List.append_assoc]

/-- The bytes of a stored chain. -/
def storedChain (stored : UInt32 × Chain) : List UInt8 :=
  bigEndian 4 stored.1.toNat ++
    (bigEndian 4 stored.2.size ++ stored.2.toList.flatMap (bigEndian 8))

namespace BlockIndex

/-- The bytes of a stored index. -/
def stored (x : BlockIndex) : List UInt8 :=
  bigEndian 8 x.checksum.seed.toNat ++ (bigEndian 8 x.scanned ++ (bigEndian 4 (x.limit.getD 0) ++
    (bigEndian 4 x.size ++ x.chains.toList.flatMap storedChain)))

theorem toList_appendChain (out : ByteArray) (hash : UInt32) (chain : Chain) :
    (appendChain out hash chain).data.toList = out.data.toList ++ storedChain (hash, chain) := by
  have hoffset (out : ByteArray) (offset : Nat) := toList_appendBytes out (bigEndian 8 offset)
  rw [appendChain, ← Array.foldl_toList, toList_foldl hoffset, toList_appendBytes,
    toList_appendBytes, storedChain, List.append_assoc, List.append_assoc]

theorem toList_appendSnapshot (x : BlockIndex) (out : ByteArray) :
    (x.appendSnapshot out).data.toList = out.data.toList ++ x.stored := by
  have hchain (out : ByteArray) (a : UInt32 × Chain) := toList_appendChain out a.1 a.2
  simp only [appendSnapshot, Std.TreeMap.foldl_eq_foldl_toList, toList_foldl hchain,
    toList_appendBytes, stored, List.append_assoc]

end BlockIndex

namespace BlockTable

/-- The bytes of a stored table. -/
def stored (t : BlockTable) : List UInt8 :=
  bigEndian 4 t.blockSize ++ (bigEndian 1 (if t.isDuplicate then 2 else 1) ++
    (t.primary.stored ++ (t.secondary.map BlockIndex.stored).getD []))

/-- The snapshot is the stored bytes. -/
theorem toList_snapshot (t : BlockTable) : t.snapshot.data.toList = t.stored := by
  unfold snapshot stored
  cases t.secondary with
  | none => simp [BlockIndex.toList_appendSnapshot, toList_appendBytes]
  | some x => simp [BlockIndex.toList_appendSnapshot, toList_appendBytes]

end BlockTable

/-! ## What the bytes of a table list -/

/-- What the bytes of an index list. A limit of zero stands for none. -/
structure StoredIndex where
  seed : UInt64
  scanned : Nat
  limit : Nat
  chains : List (UInt32 × Chain)
  scanned_lt : scanned < fieldRange 8
  limit_lt : limit < fieldRange 4
  length_lt : chains.length < fieldRange 4
  chain_lt : ∀ a ∈ chains, a.2.size < fieldRange 4 ∧ ∀ offset ∈ a.2, offset < fieldRange 8

namespace StoredIndex

/-- The bytes themselves. -/
def bytes (s : StoredIndex) : List UInt8 :=
  bigEndian 8 s.seed.toNat ++ (bigEndian 8 s.scanned ++ (bigEndian 4 s.limit ++
    (bigEndian 4 s.chains.length ++ s.chains.flatMap storedChain)))

/-- The longest chain kept, if there is a limit. -/
def chainLimit (s : StoredIndex) : Option Nat := if s.limit = 0 then none else some s.limit

/-- The index into which the chains are recorded. -/
def index (s : StoredIndex) : BlockIndex :=
  s.chains.foldl BlockIndex.record
    { checksum := .ofSeed s.seed, limit := s.chainLimit, scanned := s.scanned }

end StoredIndex

/-- What the bytes of a table list. -/
structure StoredTable where
  blockSize : Nat
  primary : StoredIndex
  secondary : Option StoredIndex
  blockSize_pos : 0 < blockSize
  blockSize_lt : blockSize < 0x80000000

namespace StoredTable

/-- The bytes themselves. -/
def bytes (s : StoredTable) : List UInt8 :=
  bigEndian 4 s.blockSize ++ (bigEndian 1 (if s.secondary.isSome then 2 else 1) ++
    (s.primary.bytes ++ (s.secondary.map StoredIndex.bytes).getD []))

/-- The table of the indexes, which counts as built. -/
def table (s : StoredTable) : BlockTable where
  blockSize := s.blockSize
  primary := s.primary.index
  secondary := s.secondary.map StoredIndex.index
  built := true
  blockSize_pos := s.blockSize_pos

end StoredTable

/-! ## Loading -/

/-- Every number of the index fits into its field. -/
structure BlockIndex.Storable (x : BlockIndex) : Prop where
  checksum_eq : x.checksum = .ofSeed x.checksum.seed
  limit_eq : (if x.limit.getD 0 = 0 then none else some (x.limit.getD 0)) = x.limit
  limit_lt : x.limit.getD 0 < fieldRange 4
  scanned_lt : x.scanned < fieldRange 8
  recorded : ∃ count place, count < fieldRange 4 ∧ place ≤ fieldRange 8 ∧ x.Recorded count place

/-- Every number of the table fits into its field. -/
structure BlockTable.Storable (t : BlockTable) : Prop where
  blockSize_lt : t.blockSize < 0x80000000
  primary : t.primary.Storable
  secondary : ∀ x ∈ t.secondary, x.Storable

/-- What is loaded of an index: its chains are recorded once more. -/
def BlockIndex.reloaded (x : BlockIndex) : BlockIndex :=
  x.chains.toList.foldl record
    { checksum := x.checksum, limit := x.limit, scanned := x.scanned }

/-- What is loaded of a table, which counts as built. -/
def BlockTable.reloaded (t : BlockTable) : BlockTable where
  blockSize := t.blockSize
  primary := t.primary.reloaded
  secondary := t.secondary.map BlockIndex.reloaded
  built := true
  blockSize_pos := t.blockSize_pos

variable {ρ : Type} [ByteReader ρ] {R : ρ → List UInt8 → Prop} {r : ρ} {rest : List UInt8}

namespace BlockIndex

/-- A chain is its offsets. -/
theorem readOffsets_succ (hash : UInt32) (x : BlockIndex) (count : Nat) :
    (fun r : ρ => readOffsets hash x r (count + 1)) =
      ByteReader.sequel (fun r => ByteReader.readField r 8) fun offset r =>
      readOffsets hash (x.insert hash offset) r count := by
  funext r
  simp only [readOffsets, ByteReader.sequel]
  rcases ByteReader.readField r 8 with ⟨_ | offset, r⟩
  · rfl
  · rfl

/-- A stored chain is its hash, its length and its offsets. -/
theorem readChains_succ (x : BlockIndex) (count : Nat) :
    (fun r : ρ => readChains x r (count + 1)) =
      ByteReader.sequel (fun r => ByteReader.readField r 4) fun hash =>
      ByteReader.sequel (fun r => ByteReader.readField r 4) fun length =>
      ByteReader.sequel (fun r => readOffsets (UInt32.ofNat hash) x r length) fun x r =>
      readChains x r count := by
  funext r
  simp only [readChains, ByteReader.sequel]
  rcases ByteReader.readField r 4 with ⟨_ | hash, r⟩
  · rfl
  dsimp only
  rcases ByteReader.readField r 4 with ⟨_ | length, r⟩
  · rfl
  dsimp only
  rcases readOffsets (UInt32.ofNat hash) x r length with ⟨_ | x, r⟩
  · rfl
  · rfl

/-- A stored index is its numbers and its chains. -/
theorem readSnapshot_eq : (readSnapshot : ρ → Except Shortfall BlockIndex × ρ) =
    ByteReader.sequel (fun r => ByteReader.readField r 8) fun seed =>
    ByteReader.sequel (fun r => ByteReader.readField r 8) fun scanned =>
    ByteReader.sequel (fun r => ByteReader.readField r 4) fun limit =>
    ByteReader.sequel (fun r => ByteReader.readField r 4) fun count r =>
    readChains
      { checksum := .ofSeed (UInt64.ofNat seed), limit := if limit = 0 then none else some limit,
        scanned } r count := by
  funext r
  simp only [readSnapshot, ByteReader.sequel]
  rcases ByteReader.readField r 8 with ⟨_ | seed, r⟩
  · rfl
  dsimp only
  rcases ByteReader.readField r 8 with ⟨_ | scanned, r⟩
  · rfl
  dsimp only
  rcases ByteReader.readField r 4 with ⟨_ | limit, r⟩
  · rfl
  dsimp only
  rcases ByteReader.readField r 4 with ⟨_ | count, r⟩
  · rfl
  · rfl

theorem loads_offsets (d : ByteReader.Delivery R) (hash : UInt32) (x : BlockIndex)
    {offsets : List Nat} (hl : ∀ offset ∈ offsets, offset < fieldRange 8) :
    ByteReader.Loads R (fun r => readOffsets hash x r offsets.length)
      (offsets.flatMap (bigEndian 8)) (offsets.foldl (fun x offset => x.insert hash offset) x) := by
  induction offsets generalizing x with
  | nil => exact ByteReader.loads_nil x
  | cons offset offsets ih =>
    obtain ⟨hoffset, hl⟩ := List.forall_mem_cons.mp hl
    rw [List.length_cons, readOffsets_succ]
    exact (ByteReader.loads_field d hoffset).sequel (ih (x.insert hash offset) hl)

theorem loads_chains (d : ByteReader.Delivery R) (x : BlockIndex)
    {chains : List (UInt32 × Chain)}
    (hl : ∀ a ∈ chains, a.2.size < fieldRange 4 ∧ ∀ offset ∈ a.2, offset < fieldRange 8) :
    ByteReader.Loads R (fun r => readChains x r chains.length) (chains.flatMap storedChain)
      (chains.foldl record x) := by
  induction chains generalizing x with
  | nil => exact ByteReader.loads_nil x
  | cons a chains ih =>
    obtain ⟨hash, chain⟩ := a
    obtain ⟨⟨hsize, hoffsets⟩, hl⟩ := List.forall_mem_cons.mp hl
    have hlisted : ∀ offset ∈ chain.toList, offset < fieldRange 8 := fun offset hm =>
      hoffsets offset (Array.mem_toList_iff.mp hm)
    rw [List.length_cons, readChains_succ, List.flatMap_cons, storedChain, List.append_assoc,
      List.append_assoc]
    refine (ByteReader.loads_field d hash.toNat_lt).sequel
      ((ByteReader.loads_field d hsize).sequel ?_)
    rw [UInt32.ofNat_toNat]
    exact (loads_offsets d hash x hlisted).sequel (ih (x.record (hash, chain)) hl)

/-- What an index lists is loaded. -/
theorem loads_index (d : ByteReader.Delivery R) (s : StoredIndex) :
    ByteReader.Loads R readSnapshot s.bytes s.index := by
  have hchains := loads_chains d
    { checksum := .ofSeed s.seed, limit := s.chainLimit, scanned := s.scanned } s.chain_lt
  rw [readSnapshot_eq]
  refine (ByteReader.loads_field d s.seed.toNat_lt).sequel
    ((ByteReader.loads_field d s.scanned_lt).sequel ((ByteReader.loads_field d s.limit_lt).sequel
      ((ByteReader.loads_field d s.length_lt).sequel ?_)))
  rw [UInt64.ofNat_toNat]
  exact hchains

/-- The stored bytes of an index list what is loaded of it. -/
theorem exists_stored_eq {x : BlockIndex} (hs : x.Storable) :
    ∃ s : StoredIndex, s.bytes = x.stored ∧ s.index = x.reloaded := by
  obtain ⟨count, place, hcount, hplace, hrecorded⟩ := hs.recorded
  have hfields : ∀ a ∈ x.chains.toList,
      a.2.size < fieldRange 4 ∧ ∀ offset ∈ a.2, offset < fieldRange 8 := by
    intro a ha
    have hregular := hrecorded.regular (Std.TreeMap.mem_toList_iff_getElem?_eq_some.mp ha)
    exact ⟨Nat.lt_of_le_of_lt hregular.size_le hcount, fun offset hm =>
      Nat.lt_of_lt_of_le (hregular.lt_place offset hm) hplace⟩
  have hsize : x.chains.toList.length < fieldRange 4 := by
    rw [Std.TreeMap.length_toList]
    exact Nat.lt_of_le_of_lt hrecorded.size_le hcount
  refine ⟨⟨x.checksum.seed, x.scanned, x.limit.getD 0, x.chains.toList, hs.scanned_lt, hs.limit_lt,
    hsize, hfields⟩, ?_, ?_⟩
  · rw [StoredIndex.bytes, Std.TreeMap.length_toList]
    rfl
  · rw [StoredIndex.index, StoredIndex.chainLimit, hs.limit_eq, ← hs.checksum_eq]
    rfl

/-- The same chain under every hash. -/
theorem getElem?_reloaded {x : BlockIndex} {count place : Nat} (h : x.Recorded count place)
    (hash : UInt32) : x.reloaded.chains[hash]? = x.chains[hash]? := by
  have hmem : ∀ {hash : UInt32} {chain : Chain},
      (hash, chain) ∈ x.chains.toList ↔ x.chains[hash]? = some chain :=
    Std.TreeMap.mem_toList_iff_getElem?_eq_some
  have hdistinct : x.chains.toList.Pairwise fun a b => a.1 ≠ b.1 := by
    refine Std.TreeMap.distinct_keys_toList.imp ?_
    intro a b hne heq
    exact hne (Std.LawfulEqCmp.compare_eq_iff_eq.mpr heq)
  have hfit : ∀ a ∈ x.chains.toList, 0 < a.2.size ∧ Chain.Admits x.limit a.2.size := by
    intro a ha
    have hregular := h.regular (hmem.mp ha)
    exact ⟨hregular.size_pos, hregular.admits⟩
  apply Option.ext
  intro chain
  have hall := getElem?_foldl_record (x := ⟨x.checksum, x.limit, ∅, 0, x.scanned⟩) hdistinct
    (fun a _ => Std.TreeMap.getElem?_emptyc) hfit hash chain
  rw [Std.TreeMap.getElem?_emptyc, hmem] at hall
  rw [reloaded, hall]
  simp

/-- What is loaded answers alike. -/
theorem alike_reloaded {x : BlockIndex} (hs : x.Storable) : x.Alike x.reloaded := by
  obtain ⟨count, place, -, -, hrecorded⟩ := hs.recorded
  refine ⟨(frame_foldl_record _ _).1, fun hash => ?_⟩
  rw [lookup_eq, lookup_eq, getElem?_reloaded hrecorded]

/-- What is loaded is stored as it was. -/
theorem stored_reloaded {x : BlockIndex} (hs : x.Storable) : x.reloaded.stored = x.stored := by
  obtain ⟨count, place, -, -, hrecorded⟩ := hs.recorded
  obtain ⟨hchecksum, hlimit, hscanned⟩ := frame_foldl_record
    { checksum := x.checksum, limit := x.limit, scanned := x.scanned } x.chains.toList
  have hchains : x.reloaded.chains.Equiv x.chains :=
    .of_forall_constGet?_eq (getElem?_reloaded hrecorded)
  rw [← reloaded] at hchecksum hlimit hscanned
  rw [stored, stored, hchecksum, hlimit, hscanned, size, size, hchains.size_eq, hchains.toList_eq]

end BlockIndex

namespace BlockTable

/-- One index is stored, or two. -/
theorem readIndexes_eq (duplicate : Bool) : (fun r : ρ => readIndexes r duplicate) =
    ByteReader.sequel BlockIndex.readSnapshot fun primary =>
      if duplicate then
        ByteReader.sequel BlockIndex.readSnapshot fun secondary r =>
          (.ok (primary, some secondary), r)
      else fun r => (.ok (primary, none), r) := by
  funext r
  simp only [readIndexes, ByteReader.sequel]
  rcases BlockIndex.readSnapshot r with ⟨_ | primary, r⟩
  · rfl
  cases duplicate with
  | false => rfl
  | true =>
    dsimp only
    rw [if_pos rfl, if_pos rfl, ByteReader.sequel]
    rcases BlockIndex.readSnapshot r with ⟨_ | secondary, r⟩
    · rfl
    · rfl

/-- What the indexes of a table list is loaded. -/
theorem loads_pair (d : ByteReader.Delivery R) (s : StoredIndex) (s' : Option StoredIndex) :
    ByteReader.Loads R (fun r => readIndexes r s'.isSome)
      (s.bytes ++ (s'.map StoredIndex.bytes).getD []) (s.index, s'.map StoredIndex.index) := by
  rw [readIndexes_eq]
  refine (BlockIndex.loads_index d s).sequel ?_
  cases s' with
  | none => exact ByteReader.loads_nil _
  | some s' =>
    rw [Option.map_some, Option.getD_some, ← List.append_nil s'.bytes]
    exact (BlockIndex.loads_index d s').sequel (ByteReader.loads_nil _)

/-- The number of indexes fits into its field. -/
theorem count_lt (s : StoredTable) : (if s.secondary.isSome then 2 else 1) < fieldRange 1 := by
  split
  · decide
  · decide

/-- The number of indexes is accepted, and says whether there is a second one. -/
theorem count_eq (s : StoredTable) :
    ((if s.secondary.isSome then 2 else 1) = 1 ∨ (if s.secondary.isSome then 2 else 1) = 2) ∧
      ((if s.secondary.isSome then 2 else 1) == 2) = s.secondary.isSome := by
  cases s.secondary with
  | none => exact ⟨.inl rfl, rfl⟩
  | some x => exact ⟨.inr rfl, rfl⟩

/-- What the bytes of a table list is loaded, and what follows is left. -/
theorem readSnapshot_listed (d : ByteReader.Delivery R) (s : StoredTable)
    (h : R r (s.bytes ++ rest)) : ∃ r', readSnapshot r = (.ok s.table, r') ∧ R r' rest := by
  have hsize : s.blockSize < fieldRange 4 := Nat.lt_trans s.blockSize_lt (by decide)
  obtain ⟨hone, htwo⟩ := count_eq s
  rw [StoredTable.bytes, List.append_assoc, List.append_assoc] at h
  obtain ⟨r₁, h₁, h⟩ := (ByteReader.loads_field d hsize).whole h
  obtain ⟨r₂, h₂, h⟩ := (ByteReader.loads_field d (count_lt s)).whole h
  obtain ⟨r₃, h₃, h⟩ := (loads_pair d s.primary s.secondary).whole h
  refine ⟨r₃, ?_, h⟩
  simp only [readSnapshot, h₁, h₂, dif_pos (And.intro s.blockSize_pos s.blockSize_lt), if_pos hone,
    htwo, h₃]
  rfl

/-- Bytes that list a table but are cut short are not accepted. -/
theorem readSnapshot_listed_cut (d : ByteReader.Delivery R) (s : StoredTable) {k : Nat}
    (hk : k < s.bytes.length) (h : R r (s.bytes.take k)) :
    ∃ r', readSnapshot r = (.error (.invalidSnapshot .truncated), r') := by
  have hsize : s.blockSize < fieldRange 4 := Nat.lt_trans s.blockSize_lt (by decide)
  obtain ⟨hone, htwo⟩ := count_eq s
  unfold readSnapshot
  rcases (ByteReader.loads_field d hsize).whole_or_cut hk h with ⟨r₁, h₁⟩ | ⟨r₁, k₁, h₁, hk, h⟩
  · exact ⟨r₁, by rw [h₁]; rfl⟩
  rcases (ByteReader.loads_field d (count_lt s)).whole_or_cut hk h with
    ⟨r₂, h₂⟩ | ⟨r₂, k₂, h₂, hk, h⟩
  · refine ⟨r₂, ?_⟩
    simp only [h₁, dif_pos (And.intro s.blockSize_pos s.blockSize_lt), h₂]
    rfl
  obtain ⟨r₃, h₃⟩ := (loads_pair d s.primary s.secondary).cut hk h
  refine ⟨r₃, ?_⟩
  simp only [h₁, dif_pos (And.intro s.blockSize_pos s.blockSize_lt), h₂, if_pos hone, htwo, h₃]
  rfl

/-- The stored bytes of a table list what is loaded of it. -/
theorem exists_stored_eq {t : BlockTable} (hs : t.Storable) :
    ∃ s : StoredTable, s.bytes = t.stored ∧ s.table = t.reloaded := by
  obtain ⟨x, hbytes, hindex⟩ := BlockIndex.exists_stored_eq hs.primary
  unfold stored isDuplicate reloaded
  cases hsec : t.secondary with
  | none =>
    refine ⟨⟨t.blockSize, x, none, t.blockSize_pos, hs.blockSize_lt⟩, ?_, ?_⟩
    · rw [StoredTable.bytes, hbytes]
      rfl
    · rw [StoredTable.table, hindex]
      rfl
  | some y =>
    obtain ⟨x', hbytes', hindex'⟩ := BlockIndex.exists_stored_eq (hs.secondary y hsec)
    refine ⟨⟨t.blockSize, x, some x', t.blockSize_pos, hs.blockSize_lt⟩, ?_, ?_⟩
    · rw [StoredTable.bytes, hbytes, Option.map_some, hbytes']
      rfl
    · rw [StoredTable.table, hindex, Option.map_some, hindex']
      rfl

/-- Loading a stored table gives what is loaded of it, and leaves what follows. -/
theorem readSnapshot_stored (d : ByteReader.Delivery R) {t : BlockTable} (hs : t.Storable)
    (h : R r (t.stored ++ rest)) : ∃ r', readSnapshot r = (.ok t.reloaded, r') ∧ R r' rest := by
  obtain ⟨s, hbytes, htable⟩ := exists_stored_eq hs
  rw [← hbytes] at h
  rw [← htable]
  exact readSnapshot_listed d s h

/-- A stored table that is cut short cannot be loaded. -/
theorem readSnapshot_cut (d : ByteReader.Delivery R) {t : BlockTable} (hs : t.Storable) {k : Nat}
    (hk : k < t.stored.length) (h : R r (t.stored.take k)) :
    ∃ r', readSnapshot r = (.error (.invalidSnapshot .truncated), r') := by
  obtain ⟨s, hbytes, -⟩ := exists_stored_eq hs
  rw [← hbytes] at hk h
  exact readSnapshot_listed_cut d s hk h

/-- What is loaded answers alike. -/
theorem alike_reloaded {t : BlockTable} (hs : t.Storable) : t.Alike t.reloaded := by
  refine ⟨rfl, BlockIndex.alike_reloaded hs.primary, ?_⟩
  unfold reloaded
  cases hsec : t.secondary with
  | none => exact .none
  | some x => exact .some (BlockIndex.alike_reloaded (hs.secondary x hsec))

/-- Loading a stored table gives one that answers alike, and that counts as built. -/
theorem exists_readSnapshot (d : ByteReader.Delivery R) {t : BlockTable} (hs : t.Storable)
    (h : R r t.stored) :
    ∃ t' r', readSnapshot r = (.ok t', r') ∧ t.Alike t' ∧ t'.built = true := by
  rw [← List.append_nil t.stored] at h
  obtain ⟨r', hr, -⟩ := readSnapshot_stored d hs h
  exact ⟨t.reloaded, r', hr, alike_reloaded hs, rfl⟩

/-- What is loaded is stored as it was. -/
theorem stored_reloaded {t : BlockTable} (hs : t.Storable) : t.reloaded.stored = t.stored := by
  have hprimary := BlockIndex.stored_reloaded hs.primary
  unfold stored reloaded isDuplicate
  cases hsec : t.secondary with
  | none => rw [hprimary, Option.map_none]
  | some x =>
    rw [hprimary, Option.map_some, Option.map_some, Option.map_some,
      BlockIndex.stored_reloaded (hs.secondary x hsec), Option.isSome_some, Option.isSome_some]

end BlockTable

/-! ## Tables that can be stored -/

/-- The checksum is that of its seed, and the limit admits a block and fits into its field. -/
structure BlockIndex.Genuine (x : BlockIndex) : Prop where
  checksum_eq : x.checksum = .ofSeed x.checksum.seed
  admits : Chain.Admits x.limit 1
  limit_lt : x.limit.getD 0 < fieldRange 4

/-- The checksums and the limits of a table, whatever blocks it holds. -/
structure BlockTable.Genuine (t : BlockTable) : Prop where
  primary : t.primary.Genuine
  secondary : ∀ x ∈ t.secondary, x.Genuine

/-- A genuine index can be stored, if its numbers are small. -/
theorem BlockIndex.Genuine.storable {x : BlockIndex} (hg : x.Genuine) {count place : Nat}
    (hr : x.Recorded count place) (hcount : count < fieldRange 4) (hplace : place ≤ fieldRange 8)
    (hscanned : x.scanned < fieldRange 8) : x.Storable := by
  refine ⟨hg.checksum_eq, ?_, hg.limit_lt, hscanned, count, place, hcount, hplace, hr⟩
  have ha := hg.admits
  cases hlimit : x.limit with
  | none => rfl
  | some n =>
    rw [hlimit] at ha
    have hpos : 1 ≤ n := ha n rfl
    rw [Option.getD_some, if_neg (by omega)]

namespace BlockTable

variable {t : BlockTable} {blockSize count place : Nat} {duplicate : Bool} {h : 0 < blockSize}

theorem Genuine.admits (hg : t.Genuine) : t.Admits :=
  ⟨hg.primary.admits, fun x hx => (hg.secondary x hx).admits⟩

/-- An empty table is genuine. -/
theorem genuine_empty : (empty blockSize duplicate h).Genuine := by
  have hsmall : Option.getD none 0 < fieldRange 4 := by decide
  have hlimit : chainLimit < fieldRange 4 := by decide
  have hadmits : (empty blockSize duplicate h).Admits := admits_empty
  cases duplicate with
  | false => exact ⟨⟨rfl, hadmits.1, hsmall⟩, nofun⟩
  | true =>
    refine ⟨⟨rfl, hadmits.1, hlimit⟩, ?_⟩
    rintro x hx
    have hx' := hadmits.2 x hx
    cases hx
    exact ⟨rfl, hx', hlimit⟩

/-- It does not matter what a genuine table holds. -/
theorem genuine_clear_iff : t.clear.Genuine ↔ t.Genuine := by
  constructor
  · rintro ⟨hprimary, hsecondary⟩
    refine ⟨⟨hprimary.checksum_eq, hprimary.admits, hprimary.limit_lt⟩, fun x hx => ?_⟩
    have hcleared := hsecondary x.clear (Option.map_eq_some_iff.mpr ⟨x, hx, rfl⟩)
    exact ⟨hcleared.checksum_eq, hcleared.admits, hcleared.limit_lt⟩
  · rintro ⟨hprimary, hsecondary⟩
    refine ⟨⟨hprimary.checksum_eq, hprimary.admits, hprimary.limit_lt⟩, fun x hx => ?_⟩
    obtain ⟨y, hy, rfl⟩ := Option.map_eq_some_iff.mp hx
    exact ⟨(hsecondary y hy).checksum_eq, (hsecondary y hy).admits, (hsecondary y hy).limit_lt⟩

/-- A genuine table can be stored, if its numbers are small. -/
theorem Genuine.storable (hg : t.Genuine) (hb : t.blockSize < 0x80000000)
    (hr : t.Recorded count place) (hcount : count < fieldRange 4) (hplace : place ≤ fieldRange 8)
    (hscanned : t.scanned < fieldRange 8)
    (hscanned' : ∀ x ∈ t.secondary, x.scanned < fieldRange 8) : t.Storable :=
  ⟨hb, hg.primary.storable hr.primary hcount hplace hscanned, fun x hx =>
    (hg.secondary x hx).storable (hr.secondary x hx) hcount hplace (hscanned' x hx)⟩

/-- The empty table can be stored. -/
theorem storable_empty (hb : blockSize < 0x80000000) : (empty blockSize duplicate h).Storable := by
  have hpos : 0 < fieldRange 8 := by decide
  have hscanned : ∀ x ∈ (empty blockSize duplicate h).secondary, x.scanned < fieldRange 8 := by
    cases duplicate with
    | false => nofun
    | true =>
      rintro _ ⟨⟩
      exact hpos
  exact genuine_empty.storable hb (recorded_empty 0) (by decide) (Nat.zero_le _) hpos hscanned

/-- The table of a byte string of fewer than 2³² blocks can be stored. -/
theorem storable_ofBytes {bytes : List UInt8} (hb : blockSize < 0x80000000)
    (hl : bytes.length / blockSize < 0x100000000) :
    (ofBytes bytes blockSize duplicate h).Storable := by
  have hlength : bytes.length < fieldRange 8 := by
    have hlt := (Nat.div_lt_iff_lt_mul h).mp hl
    have hle := Nat.mul_le_mul_left 0x100000000 (Nat.le_of_lt hb)
    have hrange : fieldRange 8 = 0x10000000000000000 := rfl
    omega
  have hclear : (ofBytes bytes blockSize duplicate h).clear = empty blockSize duplicate h :=
    clear_ofBytes bytes
  have hgenuine : (ofBytes bytes blockSize duplicate h).Genuine := by
    rw [← genuine_clear_iff, hclear]
    exact genuine_empty
  have hsize : (ofBytes bytes blockSize duplicate h).blockSize < 0x80000000 := by
    rwa [blockSize_of_clear hclear]
  refine hgenuine.storable hsize (recorded_ofBytes bytes) hl (Nat.le_of_lt hlength) hlength ?_
  intro x hx
  obtain ⟨y, -, rfl⟩ := Option.map_eq_some_iff.mp hx
  exact hlength

end BlockTable

end BinaryDelta
