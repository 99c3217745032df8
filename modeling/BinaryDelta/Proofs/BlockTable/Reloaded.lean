import BinaryDelta.Proofs.BlockTable.Built

/-!
# Storing a built table and loading it

A table that was built can be stored and loaded, if its blocks are shorter than 2³¹ bytes and fewer
than 2³²: its offsets and lengths fit into the fields of a snapshot, and every chain is recorded
anew without reaching the limit. That holds however the table came about and whatever the source
did while it was scanned, so long as the scan ended well.

* `Filled` says what a scan has recorded so far.
* `Agrees` compares two tables by everything they are asked.

Results:
* `Filled.insertBlocks`, `filled_of_scanFrom`: a scan records blocks in ascending order.
* `storable_of_build`: what it leaves can be stored.
* **`snapshot_roundtrip`**: a built table that is stored is loaded as it was, with whatever follows
  it left over, and is stored alike once more; if anything of it is missing, it is not loaded.
-/

namespace BinaryDelta

namespace BlockTable

/-! ## What a scan records -/

/-- A genuine table that holds so many blocks, which lie one behind the other. -/
structure Filled (t : BlockTable) (count : Nat) : Prop where
  genuine : t.Genuine
  recorded : t.Recorded count (count * t.blockSize)
  counted : t.Counted count

section Filled

variable {t t' : BlockTable} {count : Nat}

theorem filled_clear (h : t.Genuine) : t.clear.Filled 0 :=
  ⟨genuine_clear_iff.mpr h, recorded_clear h.admits _, counted_clear⟩

theorem Filled.insertBlock (hf : t.Filled count) (bytes : ByteArray) (start : Nat) :
    (t.insertBlock bytes start (count * t.blockSize)).Filled (count + 1) := by
  refine ⟨?_, ?_, hf.counted.insertBlock bytes start _⟩
  · rw [← genuine_clear_iff, clear_insertBlock, genuine_clear_iff]
    exact hf.genuine
  · refine hf.recorded.insertBlock bytes start ?_
    rw [blockSize_insertBlock, Nat.succ_mul]
    exact Nat.lt_add_of_pos_right t.blockSize_pos

theorem Filled.insertBlocks (hf : t.Filled count) (bytes : ByteArray) (start more : Nat) :
    (t.insertBlocks bytes start (count * t.blockSize) more).Filled (count + more) := by
  induction more generalizing t count start with
  | zero => exact hf
  | succ more ih =>
    have hnext := ih (hf.insertBlock bytes start) (start + t.blockSize)
    rw [blockSize_insertBlock, Nat.succ_mul, Nat.add_assoc count, Nat.add_comm 1] at hnext
    exact hnext

variable {σ : Type} [Source σ] {src src' : σ}

/-- The blocks recorded so far end where the bytes begin that do not fill one yet. -/
def Scanning (t : BlockTable) (pending : ByteArray) (position : Nat) : Prop :=
  ∃ count, t.Filled count ∧ position = count * t.blockSize + pending.size ∧
    pending.size < t.blockSize

/-- One more piece of the source is scanned. -/
theorem Scanning.insertBlocks {pending : ByteArray} {position : Nat}
    (h : t.Scanning pending position) (piece : ByteArray) :
    (t.insertBlocks (pending ++ piece) 0 (position - pending.size)
      ((pending ++ piece).size / t.blockSize)).Scanning
      ((pending ++ piece).extract ((pending ++ piece).size / t.blockSize * t.blockSize)
        (pending ++ piece).size) (position + piece.size) := by
  obtain ⟨count, hf, hplace, -⟩ := h
  have hsize := ByteArray.size_append (a := pending) (b := piece)
  have hcut := Nat.div_mul_le_self (pending ++ piece).size t.blockSize
  have hup := Nat.lt_div_mul_add (a := (pending ++ piece).size) t.blockSize_pos
  have hstart : position - pending.size = count * t.blockSize := by omega
  rw [hstart]
  refine ⟨_, hf.insertBlocks (pending ++ piece) 0 _, ?_, ?_⟩
  · rw [blockSize_insertBlocks, ByteArray.size_extract, Nat.min_self, Nat.add_mul]
    omega
  · rw [blockSize_insertBlocks, ByteArray.size_extract, Nat.min_self]
    omega

/-- A scan that ends well leaves a table of blocks that lie one behind the other, and less than a
block behind them. -/
theorem filled_of_scanFrom {pending : ByteArray} {position : Nat}
    (h : t.Scanning pending position) (hs : t.scanFrom src pending position = (.ok (), t', src')) :
    ∃ (t₁ : BlockTable) (pending₁ : ByteArray) (n : Nat), t' = t₁.finish n ∧
      t₁.Scanning pending₁ n := by
  fun_induction scanFrom t src pending position with
  | case1 t src pending position fault src₁ hr => cases (Prod.mk.inj hs).1
  | case2 t src pending position piece src₁ hr h₀ =>
    obtain ⟨-, rfl, -⟩ := Prod.mk.inj hs |>.imp_right Prod.mk.inj
    exact ⟨t, pending, position, rfl, h⟩
  | case3 t src pending position piece src₁ hr h₀ blockSize buffer count t₁ ih =>
    exact ih (h.insertBlocks piece) hs

theorem scanning_clear (h : t.Genuine) : t.clear.Scanning ByteArray.empty 0 :=
  ⟨0, filled_clear h, by rw [Nat.zero_mul]; rfl, t.blockSize_pos⟩

/-- What a scan leaves that ended well can be stored. -/
theorem storable_of_build (hg : t.Genuine) (hb : t.build src = (.ok (), t', src'))
    (hsize : t'.blockSize < 0x80000000) (hblocks : t'.primary.blocks < 0x100000000) :
    t'.Storable := by
  obtain ⟨t₁, pending, n, rfl, count, hf, rfl, hlt⟩ :=
    filled_of_scanFrom (scanning_clear hg) (scanFrom_of_build hb)
  have hcount : t₁.primary.blocks = count := hf.counted.primary
  replace hblocks : t₁.primary.blocks < 0x100000000 := hblocks
  replace hsize : t₁.blockSize < 0x80000000 := hsize
  -- all blocks lie below 2³² times 2³¹
  have hplace : (count + 1) * t₁.blockSize ≤ 0x100000000 * 0x80000000 :=
    Nat.mul_le_mul (by omega) (Nat.le_of_lt hsize)
  have hrange : fieldRange 8 = 0x10000000000000000 := rfl
  rw [Nat.succ_mul] at hplace
  have hgenuine : (t₁.finish (count * t₁.blockSize + pending.size)).Genuine := by
    rw [← genuine_clear_iff, clear_finish, genuine_clear_iff]
    exact hf.genuine
  have hscanned : count * t₁.blockSize + pending.size < fieldRange 8 := by omega
  refine hgenuine.storable hsize (hf.recorded.finish _) (hcount ▸ hblocks) (by omega) hscanned
    fun x hx => ?_
  obtain ⟨y, -, rfl⟩ := Option.map_eq_some_iff.mp hx
  exact hscanned

end Filled

/-! ## Storing and loading -/

/-- Two tables that nothing they are asked tells apart, apart from how many blocks a limit has kept
out. -/
structure Agrees (t t' : BlockTable) : Prop where
  blockSize_eq : t'.blockSize = t.blockSize
  isDuplicate_eq : t'.isDuplicate = t.isDuplicate
  scanned_eq : t'.scanned = t.scanned
  built_eq : t'.built = t.built
  hash_eq : t'.hash = t.hash
  roll_eq : t'.roll = t.roll
  lookup_eq : ∀ hash, t'.primary.lookup hash = t.primary.lookup hash
  lookup_secondary_eq : ∀ hash,
    t'.secondary.map (·.lookup hash) = t.secondary.map (·.lookup hash)
  candidates_eq : ∀ hash, t'.candidates hash = t.candidates hash
  contains_eq : ∀ hash offset, t'.contains hash offset = t.contains hash offset

theorem agrees_reloaded {t : BlockTable} (hs : t.Storable) (hb : t.built = true) :
    t.Agrees t.reloaded := by
  have ha := alike_reloaded hs
  have hscanned : t.reloaded.scanned = t.scanned := (BlockIndex.frame_foldl_record _ _).2.2
  have hlookup : ∀ hash,
      t.reloaded.secondary.map (·.lookup hash) = t.secondary.map (·.lookup hash) := by
    intro hash
    rcases ha.secondary_cases with ⟨hs, hs'⟩ | ⟨x, x', hs, hs', hx⟩
    · rw [hs, hs']
    · rw [hs, hs', Option.map_some, Option.map_some, hx.lookup_eq]
  exact ⟨rfl, ha.isDuplicate_eq, hscanned, hb.symm, ha.hash_eq, ha.roll_eq, ha.primary.lookup_eq,
    hlookup, ha.candidates_eq, ha.contains_eq⟩

variable {σ : Type} [Source σ] {src src' : σ} {ρ : Type} [ByteReader ρ]

/-- **A built table that is stored is loaded as it was**, with whatever follows it left over, and is
stored alike once more. If anything of it is missing at the end, it is not loaded. -/
theorem snapshot_roundtrip {t₀ t : BlockTable} (hm : t₀.Made)
    (hb : t₀.build src = (.ok (), t, src')) (hsize : t.blockSize < 0x80000000)
    (hblocks : t.primary.blocks < 0x100000000) :
    ∃ bytes, t.writeSnapshot ByteArray.empty = (.ok (), bytes) ∧
      (∀ (r : ρ) (x : List UInt8), ByteReader.Delivers r (bytes.data.toList ++ x) →
        ∃ t' r', readSnapshot r = (.ok t', r') ∧ ByteReader.Delivers r' x ∧ t.Agrees t' ∧
          t'.writeSnapshot ByteArray.empty = (.ok (), bytes)) ∧
      ∀ (r : ρ) (k : Nat), k < bytes.size → ByteReader.Delivers r (bytes.data.toList.take k) →
        ∃ r', readSnapshot r = (.error (.invalidSnapshot .truncated), r') := by
  have hs := storable_of_build hm.genuine hb hsize hblocks
  have hbuilt : t.built = true := by
    obtain ⟨t₁, pending, n, rfl, -⟩ :=
      filled_of_scanFrom (scanning_clear hm.genuine) (scanFrom_of_build hb)
    rfl
  have hwrite (t : BlockTable) : t.writeSnapshot ByteArray.empty = (.ok (), t.snapshot) := by
    rw [writeSnapshot, ByteOutput.write_byteArray, ByteArray.empty_append]
  refine ⟨t.snapshot, hwrite t, ?_, ?_⟩
  · intro r x hr
    rw [toList_snapshot] at hr
    obtain ⟨r', hread, hrest⟩ := readSnapshot_stored ByteReader.delivery_delivers hs hr
    refine ⟨t.reloaded, r', hread, hrest, agrees_reloaded hs hbuilt, ?_⟩
    have hsame : t.reloaded.snapshot = t.snapshot :=
      eq_of_toList_eq (by rw [toList_snapshot, toList_snapshot, stored_reloaded hs])
    rw [hwrite, hsame]
  · intro r k hk hr
    rw [← length_toList, toList_snapshot] at hk
    rw [toList_snapshot] at hr
    exact readSnapshot_cut ByteReader.delivery_delivers hs hk hr

/-- The table of five bytes is stored, and loaded from a longer string and from a shorter one. -/
theorem snapshot_roundtrip_followed :
    let t := ((empty 2 true (by decide)).build (⟨packBytes [5, 6, 5, 6, 5], 0⟩ : MemoryStream)).2.1
    (∃ t' r', readSnapshot (⟨t.snapshot ++ packBytes [1, 2], 0⟩ : MemoryStream) = (.ok t', r') ∧
      ByteReader.Delivers r' [1, 2] ∧ t.Agrees t') ∧
    ∃ r', readSnapshot (⟨t.snapshot.extract 0 20, 0⟩ : MemoryStream) =
      (.error (.invalidSnapshot .truncated), r') := by
  intro t
  have hholds := MemoryStream.holds ⟨packBytes [5, 6, 5, 6, 5], 0⟩
  obtain ⟨H, k, hsrc⟩ := hholds
  obtain ⟨t₁, src₁, hbuild, -, -⟩ := exists_build k (t := empty 2 true (by decide)) (by decide) hsrc
  obtain rfl : t = t₁ := congrArg (·.2.1) hbuild
  have ht : t = ofBytes [5, 6, 5, 6, 5] 2 true (by decide) :=
    eq_ofBytes_of_build k.serving hsrc clear_empty hbuild
  have hsize : t.blockSize < 0x80000000 := by
    rw [ht, blockSize_of_clear (clear_ofBytes _)]
    decide
  have hblocks : t.primary.blocks < 0x100000000 := by
    rw [ht, ← refill_of_clear clear_empty, (counted_refill _).primary]
    decide
  have hfresh : ofBlockSize 2 true = .ok (empty 2 true (by decide)) := rfl
  obtain ⟨bytes, hwrite, hwhole, hcut⟩ := snapshot_roundtrip (ρ := MemoryStream)
    (.fresh hfresh) hbuild hsize hblocks
  obtain rfl : t.snapshot = bytes := by
    rw [writeSnapshot, ByteOutput.write_byteArray, ByteArray.empty_append] at hwrite
    exact (Prod.mk.inj hwrite).2
  constructor
  · have hdelivers := MemoryStream.delivers ⟨t.snapshot ++ packBytes [1, 2], 0⟩
    rw [List.drop_zero, toList_append, data_packBytes, List.toList_toArray] at hdelivers
    obtain ⟨t', r', hread, hrest, ha, -⟩ := hwhole _ _ hdelivers
    exact ⟨t', r', hread, hrest, ha⟩
  · have hdelivers := MemoryStream.delivers ⟨t.snapshot.extract 0 20, 0⟩
    rw [List.drop_zero, toList_extract, List.drop_zero] at hdelivers
    refine hcut _ 20 ?_ hdelivers
    rw [← length_toList, toList_snapshot, stored, BlockIndex.stored]
    simp only [List.length_append, length_bigEndian]
    omega

end BlockTable

end BinaryDelta
