import BinaryDelta.Proofs.BlockTable.Stored
import BinaryDelta.Proofs.Wire.Parse

/-!
# How tables come about

A table is made without blocks or loaded, and then built from sources, emptied and given other block
sizes. All of this leaves its checksums and its chain limits as they were at first.

* `BlockTable.Made` holds of the tables that can be had at all.

Results:
* **`BlockTable.Made.genuine`**: every table has the checksums of its seeds, and limits that admit a
  block, loaded ones included.
-/

namespace BinaryDelta

/-- A number that was read fits into its field. -/
theorem ByteReader.lt_of_readField {ρ : Type} [ByteReader ρ] {r r' : ρ} {width n : Nat}
    (h : ByteReader.readField r width = (.ok n, r')) : n < fieldRange width := by
  unfold ByteReader.readField at h
  split at h
  · cases (Prod.mk.inj h).1
  · rename_i bytes r₁ hr
    obtain ⟨⟨⟩, -⟩ := Prod.mk.inj h
    have hlt := ofBigEndian_lt bytes.data.toList
    rwa [length_toList, ByteReader.size_of_readExact hr] at hlt

namespace BlockIndex

variable {ρ : Type} [ByteReader ρ]

/-- Loading blocks changes neither the checksum nor the limit. -/
theorem frame_of_readOffsets {hash : UInt32} {x x' : BlockIndex} {r r' : ρ} {count : Nat}
    (h : readOffsets hash x r count = (.ok x', r')) :
    x'.checksum = x.checksum ∧ x'.limit = x.limit := by
  induction count generalizing x r with
  | zero =>
    obtain ⟨⟨⟩, -⟩ := Prod.mk.inj h
    exact ⟨rfl, rfl⟩
  | succ count ih =>
    rw [readOffsets] at h
    split at h
    · cases (Prod.mk.inj h).1
    · obtain ⟨hchecksum, hlimit⟩ := ih h
      exact ⟨hchecksum, hlimit⟩

theorem frame_of_readChains {x x' : BlockIndex} {r r' : ρ} {count : Nat}
    (h : readChains x r count = (.ok x', r')) :
    x'.checksum = x.checksum ∧ x'.limit = x.limit := by
  induction count generalizing x r with
  | zero =>
    obtain ⟨⟨⟩, -⟩ := Prod.mk.inj h
    exact ⟨rfl, rfl⟩
  | succ count ih =>
    rw [readChains] at h
    split at h
    · cases (Prod.mk.inj h).1
    · split at h
      · cases (Prod.mk.inj h).1
      · split at h
        · cases (Prod.mk.inj h).1
        · rename_i hr
          obtain ⟨hchecksum, hlimit⟩ := frame_of_readOffsets hr
          rw [← hchecksum, ← hlimit]
          exact ih h

/-- A loaded index is genuine. -/
theorem genuine_of_readSnapshot {x : BlockIndex} {r r' : ρ} (h : readSnapshot r = (.ok x, r')) :
    x.Genuine := by
  unfold readSnapshot at h
  split at h
  · cases (Prod.mk.inj h).1
  split at h
  · cases (Prod.mk.inj h).1
  split at h
  · cases (Prod.mk.inj h).1
  rename_i limit r₁ hr
  split at h
  · cases (Prod.mk.inj h).1
  have hlt := ByteReader.lt_of_readField hr
  have hpos : 0 < fieldRange 4 := by decide
  obtain ⟨hchecksum, hlimit⟩ := frame_of_readChains h
  refine ⟨by rw [hchecksum]; rfl, ?_, ?_⟩
  · rw [hlimit]
    intro n hn
    split at hn
    · cases hn
    · cases hn
      omega
  · rw [hlimit]
    split
    · exact hpos
    · exact hlt

end BlockIndex

namespace BlockTable

/-- How a table comes about: it is made without blocks or loaded, and from then on it is built from
sources, emptied and given other block sizes. -/
inductive Made : BlockTable → Prop where
  | fresh {blockSize : Nat} {duplicate : Bool} {t : BlockTable} :
    ofBlockSize blockSize duplicate = .ok t → Made t
  | loaded {ρ : Type} [ByteReader ρ] {r r' : ρ} {t : BlockTable} :
    readSnapshot r = (.ok t, r') → Made t
  | built {σ : Type} [Source σ] {src src' : σ} {answer : Except DeltaError Unit}
    {t t' : BlockTable} :
    Made t → t.build src = (answer, t', src') → Made t'
  | cleared {t : BlockTable} : Made t → Made t.clear
  | resized {size : Nat} {t t' : BlockTable} : Made t → t.setBlockSize size = .ok t' → Made t'

/-- Loaded indexes are genuine. -/
theorem genuine_of_readIndexes {ρ : Type} [ByteReader ρ] {r r' : ρ} {duplicate : Bool}
    {primary : BlockIndex} {secondary : Option BlockIndex}
    (h : readIndexes r duplicate = (.ok (primary, secondary), r')) :
    primary.Genuine ∧ ∀ x ∈ secondary, x.Genuine := by
  unfold readIndexes at h
  split at h
  · cases (Prod.mk.inj h).1
  rename_i hprimary
  split at h
  · split at h
    · cases (Prod.mk.inj h).1
    rename_i hsecondary
    obtain ⟨⟨⟩, -⟩ := Prod.mk.inj h
    refine ⟨BlockIndex.genuine_of_readSnapshot hprimary, ?_⟩
    rintro _ ⟨⟩
    exact BlockIndex.genuine_of_readSnapshot hsecondary
  · obtain ⟨⟨⟩, -⟩ := Prod.mk.inj h
    exact ⟨BlockIndex.genuine_of_readSnapshot hprimary, nofun⟩

/-- A loaded table is genuine. -/
theorem genuine_of_readSnapshot {ρ : Type} [ByteReader ρ] {t : BlockTable} {r r' : ρ}
    (h : readSnapshot r = (.ok t, r')) : t.Genuine := by
  unfold readSnapshot at h
  split at h
  · cases (Prod.mk.inj h).1
  split at h
  · split at h
    · cases (Prod.mk.inj h).1
    split at h
    · split at h
      · cases (Prod.mk.inj h).1
      · rename_i primary secondary r₁ hr
        obtain ⟨⟨⟩, -⟩ := Prod.mk.inj h
        obtain ⟨hprimary, hsecondary⟩ := genuine_of_readIndexes hr
        exact ⟨hprimary, hsecondary⟩
    · cases (Prod.mk.inj h).1
  · cases (Prod.mk.inj h).1

/-- Every table is genuine. -/
theorem Made.genuine {t : BlockTable} (h : t.Made) : t.Genuine := by
  induction h with
  | @fresh blockSize duplicate t h =>
    unfold ofBlockSize at h
    split at h
    · cases h
      exact genuine_empty
    · cases h
  | loaded h => exact genuine_of_readSnapshot h
  | @built σ _ src src' answer t t' _ h ih =>
    rw [← genuine_clear_iff, clear_of_build h, genuine_clear_iff]
    exact ih
  | cleared _ ih => exact genuine_clear_iff.mpr ih
  | @resized size t t' _ h ih =>
    unfold setBlockSize at h
    split at h
    · split at h
      · cases h
        exact ih
      · cases h
        obtain ⟨hprimary, hsecondary⟩ := genuine_clear_iff.mpr ih
        exact ⟨hprimary, hsecondary⟩
    · cases h

end BlockTable

end BinaryDelta
