import BinaryDelta.Proofs.BlockTable.Blocks
import BinaryDelta.Proofs.BlockTable.Made
import BinaryDelta.Proofs.Engine.Sound
import BinaryDelta.Proofs.Source.Seeking

/-!
# What building leaves in a table

A table is emptied before a source is scanned into it, so the blocks that it held do not matter,
those of a scan that broke off included. What it keeps are its checksums and its chain limits. For a
table that was made without blocks these are fixed; a loaded one has those that were stored.

A scan that ends well leaves the blocks of the source and its length in the table. Under a hash
exactly the complete blocks that have it are found; with two checksums those that have both hashes;
and unless a chain was full before one of them came up. A scan that fails leaves some blocks behind,
but the table does not count as built.

* `blocksWith` lists the complete blocks of a byte string that have some hash, and `Foremost` says
  that a block is among those that a chain limit admits.
* `Matches` says which blocks are to be found in a table, `Standard` which ones these are if it was
  not loaded; `Exact` says that a table finds its matches and nothing else.

Results:
* `mem_blocksWith`: the blocks are the multiples of the block size at which a whole block begins.
* `Counted.recordAll`: every block that is recorded is counted once.
* `Recorded.mem_candidates_iff`, `Recorded.contains_iff`: looking all blocks up and looking for one
  of them agree.
* `exact_refill`: a table that is filled from a byte string is exact.
* **`build_exact`**: so is every table that was built, however it came about.
* `build_limited`: one that was loaded may keep fewer blocks than one that was not.
-/

namespace BinaryDelta

/-! ## The blocks that have a hash -/

/-- The hash of the block at an offset. -/
def hashAt (c : Checksum) (bytes : List UInt8) (size offset : Nat) : UInt32 :=
  c.hash (packBytes (windowAt bytes size offset))

/-- The complete blocks of a byte string that have this hash, from the front. -/
def blocksWith (c : Checksum) (bytes : List UInt8) (size : Nat) (hash : UInt32) : List Nat :=
  (blockStarts size (bytes.length / size)).filter fun start => hashAt c bytes size start = hash

/-- The block is among those with its hash that a chain limit admits. -/
def Foremost (c : Checksum) (limit : Option Nat) (bytes : List UInt8) (size offset : Nat) : Prop :=
  offset ∈ Chain.admitted limit (blocksWith c bytes size (hashAt c bytes size offset))

section Blocks

variable {c : Checksum} {limit : Option Nat} {bytes : List UInt8} {size offset : Nat}
  {hash : UInt32}

theorem mem_blocksWith (h : 0 < size) : offset ∈ blocksWith c bytes size hash ↔
    size ∣ offset ∧ offset + size ≤ bytes.length ∧ hashAt c bytes size offset = hash := by
  rw [blocksWith, List.mem_filter, mem_blockStarts, decide_eq_true_iff, ← and_assoc]
  refine and_congr_left fun _ => ?_
  constructor
  · rintro ⟨i, hi, rfl⟩
    refine ⟨Nat.dvd_mul_left size i, ?_⟩
    rw [← Nat.succ_mul]
    exact (Nat.le_div_iff_mul_le h).mp hi
  · rintro ⟨⟨i, rfl⟩, hle⟩
    refine ⟨i, (Nat.le_div_iff_mul_le h).mpr ?_, Nat.mul_comm size i⟩
    rwa [Nat.succ_mul, Nat.mul_comm]

theorem mem_admitted_blocksWith : offset ∈ Chain.admitted limit (blocksWith c bytes size hash) ↔
    offset ∈ blocksWith c bytes size hash ∧ Foremost c limit bytes size offset := by
  have hhash : offset ∈ blocksWith c bytes size hash → hashAt c bytes size offset = hash :=
    fun hmem => of_decide_eq_true (List.mem_filter.mp hmem).2
  unfold Foremost
  constructor
  · intro hm
    have hmem := Chain.mem_of_mem_admitted hm
    exact ⟨hmem, by rwa [hhash hmem]⟩
  · rintro ⟨hmem, hm⟩
    rwa [hhash hmem] at hm

/-- Without a limit, every complete block is admitted. -/
theorem foremost_none (h : 0 < size) (hdvd : size ∣ offset) (hle : offset + size ≤ bytes.length) :
    Foremost c none bytes size offset :=
  (mem_blocksWith h).mpr ⟨hdvd, hle, rfl⟩

end Blocks

namespace BlockTable

/-- A block that is to be found under a hash: it is complete and has the hash, or both hashes, and
it is among the blocks that the limit of each index admits under its hash. -/
structure Matches (t : BlockTable) (bytes : List UInt8) (hash : WindowHash) (offset : Nat) :
    Prop where
  dvd : t.blockSize ∣ offset
  complete : offset + t.blockSize ≤ bytes.length
  primary : hashAt t.primary.checksum bytes t.blockSize offset = hash.primary
  secondary : ∀ x ∈ t.secondary,
    hash.secondary = some (hashAt x.checksum bytes t.blockSize offset)
  foremost : Foremost t.primary.checksum t.primary.limit bytes t.blockSize offset
  foremost_secondary : ∀ x ∈ t.secondary,
    Foremost x.checksum x.limit bytes t.blockSize offset

/-- What is to be found in a table that was made without blocks: all blocks with the hash, or with
two checksums those that have both hashes and are among the first under either. -/
structure Standard (bytes : List UInt8) (blockSize : Nat) (duplicate : Bool) (hash : WindowHash)
    (offset : Nat) : Prop where
  dvd : blockSize ∣ offset
  complete : offset + blockSize ≤ bytes.length
  primary : hashAt (.ofSeed Checksum.primarySeed) bytes blockSize offset = hash.primary
  secondary : duplicate = true →
    hash.secondary = some (hashAt (.ofSeed Checksum.secondarySeed) bytes blockSize offset)
  foremost : duplicate = true →
    Foremost (.ofSeed Checksum.primarySeed) (some chainLimit) bytes blockSize offset ∧
      Foremost (.ofSeed Checksum.secondarySeed) (some chainLimit) bytes blockSize offset

/-- The table was built from these bytes, and it finds their blocks and no others. -/
structure Exact (t : BlockTable) (bytes : List UInt8) : Prop where
  built : t.built = true
  scanned : t.scanned = bytes.length
  blocks : t.primary.blocks = bytes.length / t.blockSize
  blocks_secondary : ∀ x ∈ t.secondary, x.blocks = bytes.length / t.blockSize
  ascending : ∀ hash, (t.candidates hash).Ascending
  mem_candidates : ∀ hash offset, offset ∈ t.candidates hash ↔ t.Matches bytes hash offset
  contains_iff : ∀ hash offset, t.contains hash offset = true ↔ offset ∈ t.candidates hash

/-- The blocks in a table do not matter for what is to be found in it. -/
theorem matches_clear_iff {t : BlockTable} {bytes : List UInt8} {hash : WindowHash} {offset : Nat} :
    t.clear.Matches bytes hash offset ↔ t.Matches bytes hash offset := by
  rcases t with ⟨blockSize, primary, secondary, built, hpos⟩
  cases secondary with
  | none =>
    constructor
    · exact fun h => ⟨h.dvd, h.complete, h.primary, h.secondary, h.foremost, h.foremost_secondary⟩
    · exact fun h => ⟨h.dvd, h.complete, h.primary, h.secondary, h.foremost, h.foremost_secondary⟩
  | some x =>
    constructor
    · intro h
      refine ⟨h.dvd, h.complete, h.primary, ?_, h.foremost, ?_⟩
      · rintro _ ⟨⟩
        exact h.secondary x.clear rfl
      · rintro _ ⟨⟩
        exact h.foremost_secondary x.clear rfl
    · intro h
      refine ⟨h.dvd, h.complete, h.primary, ?_, h.foremost, ?_⟩
      · rintro _ ⟨⟩
        exact h.secondary x rfl
      · rintro _ ⟨⟩
        exact h.foremost_secondary x rfl

theorem matches_empty_iff {blockSize : Nat} {duplicate : Bool} {h : 0 < blockSize}
    {bytes : List UInt8} {hash : WindowHash} {offset : Nat} :
    (empty blockSize duplicate h).Matches bytes hash offset ↔
      Standard bytes blockSize duplicate hash offset := by
  cases duplicate with
  | false =>
    constructor
    · rintro ⟨hdvd, hle, hprimary, -, -, -⟩
      exact ⟨hdvd, hle, hprimary, by rintro ⟨⟩, by rintro ⟨⟩⟩
    · rintro ⟨hdvd, hle, hprimary, -, -⟩
      exact ⟨hdvd, hle, hprimary, by rintro _ ⟨⟩, foremost_none h hdvd hle, by rintro _ ⟨⟩⟩
  | true =>
    constructor
    · rintro ⟨hdvd, hle, hprimary, hsecondary, hfirst, hsecond⟩
      exact ⟨hdvd, hle, hprimary, fun _ => hsecondary _ rfl, fun _ => ⟨hfirst, hsecond _ rfl⟩⟩
    · rintro ⟨hdvd, hle, hprimary, hsecondary, hforemost⟩
      obtain ⟨hfirst, hsecond⟩ := hforemost rfl
      refine ⟨hdvd, hle, hprimary, ?_, hfirst, ?_⟩
      · rintro _ ⟨⟩
        exact hsecondary rfl
      · rintro _ ⟨⟩
        exact hsecond

/-- The matches in a table that was not loaded. -/
theorem matches_iff_standard {t : BlockTable} {blockSize : Nat} {duplicate : Bool}
    {h : 0 < blockSize} (hc : t.clear = empty blockSize duplicate h) {bytes : List UInt8}
    {hash : WindowHash} {offset : Nat} :
    t.Matches bytes hash offset ↔ Standard bytes blockSize duplicate hash offset := by
  rw [← matches_clear_iff, hc, matches_empty_iff]

/-! ## How many blocks there are -/

/-- The indexes have counted so many blocks. -/
structure Counted (t : BlockTable) (count : Nat) : Prop where
  primary : t.primary.blocks = count
  secondary : ∀ x ∈ t.secondary, x.blocks = count

section Counted

variable {t : BlockTable} {count : Nat}

theorem counted_clear : t.clear.Counted 0 := by
  refine ⟨rfl, fun x hx => ?_⟩
  obtain ⟨y, -, rfl⟩ := Option.map_eq_some_iff.mp hx
  rfl

theorem Counted.insertBlock (hc : t.Counted count) (bytes : ByteArray) (start offset : Nat) :
    (t.insertBlock bytes start offset).Counted (count + 1) := by
  constructor
  · exact congrArg (· + 1) hc.primary
  · intro x hx
    obtain ⟨y, hy, rfl⟩ := Option.map_eq_some_iff.mp hx
    exact congrArg (· + 1) (hc.secondary y hy)

/-- Every complete block is counted. -/
theorem Counted.recordAll (hc : t.Counted count) (bytes : List UInt8) (offset : Nat) :
    (t.recordAll bytes offset).Counted (count + bytes.length / t.blockSize) := by
  fun_induction BlockTable.recordAll t bytes offset generalizing count with
  | case1 t bytes offset hl => rwa [Nat.div_eq_of_lt hl]
  | case2 t bytes offset hl ih =>
    have hnext := ih (hc.insertBlock _ 0 offset)
    have hdiv : 1 + (bytes.length - t.blockSize) / t.blockSize = bytes.length / t.blockSize := by
      rw [Nat.add_comm, ← Nat.div_eq_sub_div t.blockSize_pos (Nat.le_of_not_lt hl)]
    rwa [blockSize_insertBlock, List.length_drop, Nat.add_assoc, hdiv] at hnext

theorem counted_refill (bytes : List UInt8) :
    (t.refill bytes).Counted (bytes.length / t.blockSize) := by
  have hempty : t.clear.Counted 0 := counted_clear
  have hall := hempty.recordAll bytes 0
  rw [Nat.zero_add] at hall
  constructor
  · exact hall.primary
  · intro x hx
    obtain ⟨y, hy, rfl⟩ := Option.map_eq_some_iff.mp hx
    exact hall.secondary y hy

end Counted

/-! ## Both ways to ask -/

section Answers

variable {t : BlockTable} {count place offset : Nat} {hash : WindowHash}

/-- What confirms a match are the chains that ascend. -/
theorem Recorded.holds_confirming (hr : t.Recorded count place) (hl : t.Lists hash offset) :
    ∀ confirming ∈ t.confirming hash, confirming.holds offset = true := by
  intro confirming hc
  obtain ⟨x, hx, rfl⟩ := Option.map_eq_some_iff.mp hc
  obtain ⟨value, hvalue, hm⟩ := hl.secondary x hx
  rw [hvalue]
  exact (Chain.holds_iff_mem ((hr.secondary x hx).ascending_lookup value) offset).mpr hm

/-- The candidates are the blocks that are listed. -/
theorem Recorded.mem_candidates_iff (hr : t.Recorded count place) :
    offset ∈ t.candidates hash ↔ t.Lists hash offset := by
  constructor
  · intro hm
    exact lists_of_mem_candidates (Array.mem_toList_iff.mpr hm)
  · intro hl
    have hconfirmed := hr.holds_confirming hl
    unfold candidates
    cases hc : t.confirming hash with
    | none => exact hl.primary
    | some confirming => exact Array.mem_filter.mpr ⟨hl.primary, hconfirmed confirming hc⟩

/-- So is what the table contains. -/
theorem Recorded.contains_iff (hr : t.Recorded count place) :
    t.contains hash offset = true ↔ t.Lists hash offset := by
  constructor
  · exact lists_of_contains
  · intro hl
    refine Bool.and_eq_true_iff.mpr ⟨?_, (Option.all_eq_true _ _).mpr (hr.holds_confirming hl)⟩
    exact (Chain.holds_iff_mem (hr.primary.ascending_lookup hash.primary) offset).mpr hl.primary

theorem Recorded.ascending_candidates (hr : t.Recorded count place) (hash : WindowHash) :
    (t.candidates hash).Ascending := by
  have hchain := hr.primary.ascending_lookup hash.primary
  unfold candidates
  split
  · exact hchain
  · unfold Chain.Ascending
    rw [Array.toList_filter]
    exact List.Pairwise.filter _ hchain

end Answers

/-! ## Tables that are filled -/

section Refill

variable {t : BlockTable} {bytes : List UInt8} {offset : Nat} {hash : WindowHash}

/-- An index lists the blocks that have the hash, as many as its limit admits. -/
theorem mem_lookup_iff {x : BlockIndex} {size : Nat} (h : 0 < size)
    (he : x.Enumerates bytes size (bytes.length / size)) {value : UInt32} :
    offset ∈ x.lookup value ↔
      (size ∣ offset ∧ offset + size ≤ bytes.length ∧
        hashAt x.checksum bytes size offset = value) ∧
      Foremost x.checksum x.limit bytes size offset := by
  rw [← mem_blocksWith h, ← mem_admitted_blocksWith, ← Array.mem_toList_iff, he.toList_lookup value]
  rfl

/-- What is listed are the matches. -/
theorem Enumerates.lists_iff (he : t.Enumerates bytes (bytes.length / t.blockSize)) :
    t.Lists hash offset ↔ t.Matches bytes hash offset := by
  have hprimary : offset ∈ t.primary.lookup hash.primary ↔ _ :=
    mem_lookup_iff t.blockSize_pos he.primary
  have hsecondary (x : BlockIndex) (hx : x ∈ t.secondary) (value : UInt32) :
      offset ∈ x.lookup value ↔ _ := mem_lookup_iff t.blockSize_pos (he.secondary x hx)
  constructor
  · intro hl
    obtain ⟨⟨hdvd, hle, heq⟩, hfirst⟩ := hprimary.mp hl.primary
    refine ⟨hdvd, hle, heq, fun x hx => ?_, hfirst, fun x hx => ?_⟩
    · obtain ⟨value, hvalue, hm⟩ := hl.secondary x hx
      obtain ⟨⟨-, -, rfl⟩, -⟩ := (hsecondary x hx value).mp hm
      exact hvalue
    · obtain ⟨value, -, hm⟩ := hl.secondary x hx
      exact ((hsecondary x hx value).mp hm).2
  · intro hm
    refine ⟨hprimary.mpr ⟨⟨hm.dvd, hm.complete, hm.primary⟩, hm.foremost⟩, fun x hx => ?_⟩
    exact ⟨_, hm.secondary x hx, (hsecondary x hx _).mpr
      ⟨⟨hm.dvd, hm.complete, rfl⟩, hm.foremost_secondary x hx⟩⟩

/-- A table that is filled from a byte string is exact. -/
theorem exact_refill (ha : t.Admits) (bytes : List UInt8) : (t.refill bytes).Exact bytes := by
  have hcounted : (t.refill bytes).Counted (bytes.length / t.blockSize) := counted_refill bytes
  have he := enumerates_refill ha bytes
  have hr := recorded_refill ha bytes
  rw [← t.blockSize_refill bytes] at hcounted he
  refine ⟨rfl, rfl, hcounted.primary, hcounted.secondary, hr.ascending_candidates, ?_, ?_⟩
  · intro hash offset
    rw [hr.mem_candidates_iff, he.lists_iff]
  · intro hash offset
    rw [hr.mem_candidates_iff, hr.contains_iff]

end Refill

/-! ## Scans that end well and scans that fail -/

section Build

variable {t t' : BlockTable} {σ : Type} [Source σ] {src src' : σ}

/-- **Building leaves the exact blocks of the source in a table**, however the table came about and
whatever it held, and however the source hands its bytes out; it changes neither the checksums nor
the limits. A source that only delays its bytes cannot make it fail, as long as there can be a
buffer for two blocks. A table whose building failed is not built, and can be built again. In a
table that was not loaded, what is found are the standard matches. -/
theorem build_exact (hm : t.Made) {answer : Except DeltaError Unit}
    (hb : t.build src = (answer, t', src')) :
    t'.clear = t.clear ∧
      (∀ problem, answer = .error problem → t'.built = false) ∧
      (∀ bytes, Source.Serves src bytes → answer = .ok () → t'.Exact bytes) ∧
      (∀ bytes, Source.Holds src bytes → t.blockSize < 0x4000000000000000 → answer = .ok ()) ∧
      ∀ {blockSize : Nat} {duplicate : Bool} {h : 0 < blockSize},
        t.clear = empty blockSize duplicate h → ∀ bytes hash offset,
          (t'.Matches bytes hash offset ↔ Standard bytes blockSize duplicate hash offset) := by
  have hclear := clear_of_build hb
  refine ⟨hclear, ?_, ?_, ?_, ?_⟩
  · rintro problem rfl
    exact built_of_build_error hb
  · rintro bytes ⟨H, k, hsrc⟩ rfl
    rw [eq_refill_of_build k hsrc hb]
    exact exact_refill hm.genuine.admits bytes
  · rintro bytes ⟨H, k, hsrc⟩ hsize
    obtain ⟨t₁, src₁, hbuild, -, -⟩ := exists_build k hsize hsrc
    exact (Prod.mk.inj (hb.symm.trans hbuild)).1
  · intro blockSize duplicate h hc bytes hash offset
    exact matches_iff_standard (hclear.trans hc)

/-- A scan breaks off behind the first block. Then the table is built from another source, of which
no call delivers more than three bytes and every other one is interrupted. -/
theorem build_exact_rescanned :
    let failing : SeekingSource FaultyStream :=
      ⟨{ bytes := packBytes [1, 2, 3, 4], failsFrom := some 2 }, { length := 4 }, some 0⟩
    let halting : SeekingSource FaultyStream :=
      ⟨{ bytes := packBytes [5, 6, 5, 6, 5], chunk := some 3, interrupts := true }, { length := 5 },
        some 0⟩
    let broken := ((empty 2 true (by decide)).build failing).2.1
    (broken.built = false ∧ broken.primary.blocks = 1) ∧
      (broken.build halting).1 = .ok () ∧
      (broken.build halting).2.1.Exact [5, 6, 5, 6, 5] := by
  intro failing halting broken
  have hbroken : ((empty 2 true (by decide)).build failing).1 =
      .error (.io (.device "read failed")) := by decide +kernel
  have hblocks : broken.primary.blocks = 1 := by decide +kernel
  have hstands : FaultyStream.Standing (packBytes [5, 6, 5, 6, 5]) halting.input 0 :=
    ⟨rfl, rfl, by decide, rfl, rfl⟩
  have htracks : SeekingSource.Tracks (FaultyStream.Standing (packBytes [5, 6, 5, 6, 5]))
      [5, 6, 5, 6, 5] halting := by
    refine ⟨rfl, 0, hstands, ?_⟩
    rintro _ ⟨⟩
    rfl
  have k := SeekingSource.holding_tracks (FaultyStream.standing (packBytes [5, 6, 5, 6, 5]))
  have hfresh : ofBlockSize 2 true = .ok (empty 2 true (by decide)) := rfl
  have hbuild : (empty 2 true (by decide)).build failing = (_, broken, _) := rfl
  have hrebuild : broken.build halting = (_, (broken.build halting).2.1, _) := rfl
  obtain ⟨hclear, hfailed, -, -, -⟩ := build_exact (.fresh hfresh) hbuild
  obtain ⟨-, -, hexact, hok, -⟩ := build_exact (.built (.fresh hfresh) hbuild) hrebuild
  have hsize : broken.blockSize < 0x4000000000000000 := by
    rw [blockSize_of_clear (hclear.trans clear_empty)]
    decide
  have hanswer := hok _ ⟨_, k, htracks⟩ hsize
  exact ⟨⟨hfailed _ hbroken, hblocks⟩, hanswer, hexact _ ⟨_, k.serving, htracks⟩ hanswer⟩

/-- A stored table whose chains may hold one block, loaded and built from a source of two equal
blocks: the second one would be found in a table that was not loaded, and is not found in this. -/
theorem build_limited :
    let stored : MemoryStream := ⟨packBytes [0, 0, 0, 2, 1, 0x9E, 0x37, 0x79, 0xB9, 0x7F, 0x4A,
      0x7C, 0x15, 0, 0, 0, 0, 0, 0, 0, 0, 0, 0, 0, 1, 0, 0, 0, 0], 0⟩
    let source : MemoryStream := ⟨packBytes [5, 6, 5, 6], 0⟩
    ∃ t, (readSnapshot stored).1 = .ok t ∧ (t.build source).1 = .ok () ∧
      let built := (t.build source).2.1
      let hash := built.hash (packBytes [5, 6])
      Standard [5, 6, 5, 6] 2 built.isDuplicate hash 2 ∧ 2 ∉ built.candidates hash := by
  intro stored source
  have hloaded : (readSnapshot stored).1.toOption.isSome = true := by decide +kernel
  let t := (readSnapshot stored).1.toOption.get hloaded
  have hsingle : ¬ (t.build source).2.1.isDuplicate = true := by decide +kernel +revert
  refine ⟨t, ?_, by decide +kernel +revert, ⟨by decide, by decide, by decide +kernel +revert,
    fun h => absurd h hsingle, fun h => absurd h hsingle⟩, by decide +kernel +revert⟩
  simp only [t]
  generalize (readSnapshot stored).1 = answer at hloaded ⊢
  cases answer with
  | error => cases hloaded
  | ok => rfl

end Build

end BlockTable

end BinaryDelta
