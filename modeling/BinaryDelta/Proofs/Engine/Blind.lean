import BinaryDelta.Proofs.Engine.Emitted

/-!
# Accepting hashes

An engine may take equal hashes for equal blocks. Nothing then compares the bytes that it copies, so
what is rebuilt may differ from the target. How it may differ is limited: a copy is of one block of
the source, at a place where the table was asked for the hash of the next block of the target, and
there every checksum in use took the two for the same. The literals are right in any case.

* `EngineOptions.Collide` holds of windows that no checksum in use tells apart.
* `Blind` is what may be emitted at a position of the target.

Results:
* `Greedy.makes_blind`: the reference makes nothing but bytes of the target and blocks that collide.
* **`Engine.compute_blind`**: an engine that accepts hashes is wrong only at collisions.
-/

namespace BinaryDelta

/-- The checksums that blocks are looked up with. -/
def EngineOptions.checksums (o : EngineOptions) : List Checksum :=
  .ofSeed Checksum.primarySeed ::
    if o.duplicate then [.ofSeed Checksum.secondarySeed] else []

/-- No checksum in use tells the windows apart. -/
def EngineOptions.Collide (o : EngineOptions) (a b : List UInt8) : Prop :=
  ∀ c ∈ o.checksums, c.hash (packBytes a) = c.hash (packBytes b)

/-- What may be emitted at a position of the target when hashes are accepted: the byte there, or the
copy of a block of the source that collides with the target there. -/
inductive Blind (o : EngineOptions) (source target : List UInt8) : Nat → Atom → Prop
  | byte {position : Nat} {value : UInt8} (h : target[position]? = some value) :
      Blind o source target position (.byte value)
  | copy {position offset : Nat} (ha : o.chunkSize ∣ offset)
      (hs : offset + o.chunkSize ≤ source.length) (ht : position + o.chunkSize ≤ target.length)
      (hc : o.Collide (windowAt source o.chunkSize offset) (windowAt target o.chunkSize position)) :
      Blind o source target position (.copy offset o.chunkSize)

/-- A copy is of a block of the source. -/
theorem Blind.copy_le {o : EngineOptions} {source target : List UInt8}
    {position offset length : Nat} (h : Blind o source target position (.copy offset length)) :
    offset + length ≤ source.length ∧ length = o.chunkSize := by
  cases h with
  | copy _ hs _ _ => exact ⟨hs, rfl⟩

namespace Greedy

/-- Over the table of the source, the reference makes bytes of the target and copies of blocks that
collide with it. -/
theorem makes_blind {o : EngineOptions} (ha : o.acceptHash = true) (hpos : 0 < o.chunkSize)
    (source target : List UInt8) :
    Makes (.ofSource source o hpos) source target (Blind o source target) := by
  let c := Search.ofSource source o hpos
  have hsize : c.blockSize = o.chunkSize := Search.blockSize_ofSource hpos
  have hchecksums : c.table.checksums = o.checksums := BlockTable.checksums_ofBytes source
  constructor
  case byte => exact fun _ _ h => .byte h
  case rest => exact fun _ h => .byte h
  case copy =>
    intro position offset continuation hp hc
    have hlength : lengthAt c source (target.drop position) offset = o.chunkSize := by
      rw [← hsize]
      exact if_pos ha
    have hconsidered := (List.mem_filter.mp (List.argmax_mem hc)).1
    have hlists := lists_of_mem_considered (c := c) ha hconsidered
    obtain ⟨⟨i, hi, hoffset⟩, hsame⟩ := (Search.enumerates_ofSource hpos).of_lists hlists
    have hcollide : o.Collide (windowAt source c.blockSize offset)
        (windowAt target c.blockSize position) :=
      fun checksum hmem => hsame checksum (hchecksums ▸ hmem)
    replace hoffset : offset = i * c.blockSize := hoffset
    rw [hsize] at hcollide hoffset
    show Blind o source target position (.copy (0 + offset) (lengthAt c source _ offset))
    rw [hlength, Nat.zero_add]
    refine .copy ⟨i, by rw [hoffset, Nat.mul_comm]⟩ ?_ (hsize ▸ hp) hcollide
    have hlast := Nat.mul_le_of_le_div _ _ _ (Nat.succ_le_of_lt hi)
    rw [hoffset]
    rwa [Nat.succ_mul] at hlast

end Greedy

section Rebuilt

variable {o : EngineOptions} {is : List Instruction} {source target : List UInt8}

/-- Copies of blocks stay in the source. -/
theorem rebuilds_of_blind
    (h : ∀ position a, Emits is position a → Blind o source target position a) :
    Rebuilds source is (replay source is) := by
  refine rebuilds_iff.mpr ⟨?_, rfl⟩
  intro i hi
  cases i with
  | literal bytes => trivial
  | copy offset length =>
    obtain ⟨position, hat⟩ := emits_of_mem hi
    cases h _ _ hat with
    | copy _ hs _ _ => exact .inr hs

/-- What is rebuilt differs from the target only within copies of blocks that differ from it. -/
theorem exists_copy_of_ne
    (h : ∀ position a, Emits is position a → Blind o source target position a)
    {rebuilt : List UInt8} (hr : Rebuilds source is rebuilt)
    (hl : rebuilt.length = target.length) {position : Nat}
    (hne : rebuilt[position]? ≠ target[position]?) :
    ∃ start offset, Emits is start (.copy offset o.chunkSize) ∧
      start ≤ position ∧ position < start + o.chunkSize ∧
      windowAt source o.chunkSize offset ≠ windowAt target o.chunkSize start := by
  have hlt : position < (cells (atoms is)).length := by
    rw [length_cells, ← length_of_rebuilds hr]
    by_contra hge
    rw [List.getElem?_eq_none (by omega), List.getElem?_eq_none (by omega)] at hne
    exact hne rfl
  obtain ⟨start, a, hat, hle, hcell⟩ := exists_emits (List.getElem?_eq_getElem hlt)
  have hbyte := hr.getElem?_eq (List.getElem?_eq_getElem hlt)
  cases h _ _ hat with
  | byte hvalue =>
    -- there is only one cell, at its place
    obtain ⟨hk, -⟩ := List.getElem?_eq_some_iff.mp hcell
    have hk₀ : position - start = 0 := Nat.lt_one_iff.mp hk
    obtain rfl : start = position := by omega
    rw [hk₀] at hcell
    rw [hbyte, hvalue, ← Option.some.inj hcell] at hne
    exact absurd rfl hne
  | @copy offset _ _ _ _ =>
    obtain ⟨hk, hcell⟩ := List.getElem?_eq_some_iff.mp hcell
    rw [Atom.length_cells_copy] at hk
    refine ⟨start, offset, hat, hle, by omega, ?_⟩
    intro hsame
    have hat := congrArg (·[position - start]?) hsame
    simp only [getElem?_windowAt hk, Nat.add_sub_cancel' hle] at hat
    rw [hbyte, ← hcell, ← hat] at hne
    simp [Atom.cells, Origin.byte?] at hne

end Rebuilt

namespace Engine

variable {σ ρ : Type} [Source σ] [ByteReader ρ] {source target : List UInt8} {src : σ} {r : ρ}
  {e : Engine}

/-- **Blindly accepted hashes are wrong only at collisions.** An engine that accepts hashes emits
bytes of the target and copies of blocks that collide with it. What they rebuild is as long as the
target, and differs from it only within such blocks. -/
theorem compute_blind (hs : Source.Holds src source) (hr : ByteReader.Delivers r target)
    (he : e.options.problem? = none) (ha : e.options.acceptHash = true) (hi : e.Indexes source) :
    let outcome := e.compute src r ({} : Collector)
    let emitted := outcome.sink.instructions.toList
    let size := e.options.chunkSize
    (∃ stats, outcome.result = .ok stats) ∧
      (∀ position a, Emits emitted position a → Blind e.options source target position a) ∧
      ∃ rebuilt, Rebuilds source emitted rebuilt ∧ rebuilt.length = target.length ∧
        ∀ position, rebuilt[position]? ≠ target[position]? →
          ∃ start offset, Emits emitted start (.copy offset size) ∧
            start ≤ position ∧ position < start + size ∧
            windowAt source size offset ≠ windowAt target size start ∧
            e.options.Collide (windowAt source size offset) (windowAt target size start) := by
  obtain ⟨hresult, hspans⟩ := hi.spans_compute he hs hr fun hpos =>
    Greedy.makes_blind ha hpos source target
  have hblind : ∀ position a, Emits _ position a → Blind e.options source target position a :=
    fun _ _ hat => hspans.of_emits hat
  refine ⟨hresult, hblind, ?_⟩
  have hrebuilds := rebuilds_of_blind hblind
  have hlength := length_of_rebuilds hrebuilds
  rw [← length_cells, ← Nat.zero_add (cells _).length, hspans.length_cells_eq] at hlength
  refine ⟨_, hrebuilds, hlength, ?_⟩
  intro position hne
  obtain ⟨start, offset, hat, hle, hlt, hdiffer⟩ :=
    exists_copy_of_ne hblind hrebuilds hlength hne
  refine ⟨start, offset, hat, hle, hlt, hdiffer, ?_⟩
  cases hblind _ _ hat with
  | copy _ _ _ hc => exact hc

/-- Two windows of which no seed makes different hashes, one of them in the source and the other in
the target, and an engine that hashes everything twice. -/
theorem compute_blind_collision :
    let source : MemoryStream := ⟨packBytes [1, 2, 2, 1, 5, 6, 7, 8], 0⟩
    let target : MemoryStream := ⟨packBytes [9, 2, 1, 1, 2, 5, 6, 7, 8, 3], 0⟩
    let e : Engine := { options := { chunkSize := 4, acceptHash := true, duplicate := true } }
    let outcome := e.compute source target ({} : Collector)
    let emitted := outcome.sink.instructions.toList
    (∃ stats, outcome.result = .ok stats) ∧
      (∀ position a, Emits emitted position a →
        Blind e.options source.bytes.data.toList target.bytes.data.toList position a) ∧
      ∃ rebuilt, Rebuilds source.bytes.data.toList emitted rebuilt ∧
        rebuilt.length = target.bytes.data.toList.length ∧
        ∀ position, rebuilt[position]? ≠ target.bytes.data.toList[position]? →
          ∃ start offset, Emits emitted start (.copy offset 4) ∧
            start ≤ position ∧ position < start + 4 ∧
            windowAt source.bytes.data.toList 4 offset ≠
              windowAt target.bytes.data.toList 4 start ∧
            e.options.Collide (windowAt source.bytes.data.toList 4 offset)
              (windowAt target.bytes.data.toList 4 start) := by
  intro source target e
  have hnew : ofOptions e.options = .ok e := rfl
  exact compute_blind (MemoryStream.holds _) (MemoryStream.delivers _) rfl rfl
    (UsedOver.new hnew).indexes

end Engine

end BinaryDelta
