import BinaryDelta.Proofs.Atoms
import BinaryDelta.Proofs.Patch.Spell
import BinaryDelta.Proofs.Sink.Feed
import BinaryDelta.Sink.PatchWriter

/-!
# How instructions are packed into records

A patch writer holds literal bytes back until a copy arrives or a chunk is full. Apart from the
output that is a machine over atoms, and so what a writer puts into records is a function of the
atoms it was told, `packed`: it does not matter in how many calls the bytes of a literal came. Empty
copies and flushes part literals and leave nothing else behind.

Results:
* `atoms_packed`: the records stand for the atoms, less the empty copies.
* `forall_packed`: what holds of literals up to a chunk and of the copies holds of all records.
* `writable_packed`: so they can be written if the copies can.
-/

namespace BinaryDelta

/-- Calls that count tell all atoms but the empty copies. -/
theorem filter_flatMap_atoms (steps : List SinkStep) :
    (steps.flatMap SinkStep.atoms).filter Atom.isSolid =
      atoms ((steps.filter SinkStep.counts).flatMap SinkStep.instructions) := by
  induction steps with
  | nil => rfl
  | cons step steps ih =>
    rw [List.flatMap_cons, List.filter_append, ih, List.filter_cons]
    have hbytes : ∀ bytes : List UInt8,
        (bytes.map Atom.byte).filter Atom.isSolid = bytes.map Atom.byte :=
      fun bytes => List.filter_eq_self.mpr (isSolid_bytes bytes)
    cases step with
    | copy offset length =>
      by_cases h₀ : length = 0
      · subst h₀
        rfl
      · have hsolid : (Atom.copy offset length).isSolid = true := bne_iff_ne.mpr h₀
        have hcounts : (SinkStep.copy offset length).counts = true := bne_iff_ne.mpr h₀
        rw [if_pos hcounts, SinkStep.atoms, List.filter_cons_of_pos hsolid]
        rfl
    | byte value => rfl
    | literal bytes =>
      simp only [SinkStep.atoms, SinkStep.counts, if_true, hbytes]
      rfl
    | flush => rfl

/-- Records, and literal bytes that are held back. -/
structure Packing where
  records : List Instruction := []
  pending : List UInt8 := []

namespace Packing

/-- Makes the bytes held back a record. -/
def settle (p : Packing) : Packing :=
  if p.pending = [] then p else ⟨p.records ++ [.literal (packBytes p.pending)], []⟩

/-- Holds back one more byte, up to a full chunk. -/
def hold (p : Packing) (value : UInt8) : Packing :=
  if p.pending.length + 1 < literalChunk then ⟨p.records, p.pending ++ [value]⟩
  else settle ⟨p.records, p.pending ++ [value]⟩

/-- Takes an atom. -/
def add (p : Packing) : Atom → Packing
  | .copy offset length =>
    if length = 0 then p.settle else ⟨p.settle.records ++ [.copy offset length], []⟩
  | .byte value => p.hold value

theorem add_empty (p : Packing) (offset : Nat) : p.add (.copy offset 0) = p.settle := by
  rw [add, if_pos rfl]

theorem add_copy (p : Packing) (offset : Nat) {length : Nat} (h : length ≠ 0) :
    p.add (.copy offset length) = ⟨p.settle.records ++ [.copy offset length], []⟩ :=
  if_neg h

theorem hold_of_lt {p : Packing} (h : p.pending.length + 1 < literalChunk) (value : UInt8) :
    p.hold value = ⟨p.records, p.pending ++ [value]⟩ :=
  if_pos h

theorem hold_of_not_lt {p : Packing} (h : ¬ p.pending.length + 1 < literalChunk) (value : UInt8) :
    p.hold value = settle ⟨p.records, p.pending ++ [value]⟩ :=
  if_neg h

/-- Takes atoms in order. -/
def addAll (p : Packing) (as : List Atom) : Packing := as.foldl add p

@[simp] theorem addAll_nil (p : Packing) : p.addAll [] = p := rfl

@[simp] theorem addAll_cons (p : Packing) (a : Atom) (as : List Atom) :
    p.addAll (a :: as) = (p.add a).addAll as := rfl

theorem addAll_append (p : Packing) (as as' : List Atom) :
    p.addAll (as ++ as') = (p.addAll as).addAll as' :=
  List.foldl_append

@[simp] theorem pending_settle (p : Packing) : p.settle.pending = [] := by
  unfold settle
  split
  · assumption
  · rfl

theorem settle_of_pending {p : Packing} (h : p.pending = []) : p.settle = p := if_pos h

/-! ## What is packed -/

/-- The atoms in the records and those held back. -/
def told (p : Packing) : List Atom := atoms p.records ++ p.pending.map .byte

theorem told_settle (p : Packing) : p.settle.told = p.told := by
  unfold settle
  split
  · rfl
  · simp [told, atoms_cons, Instruction.atoms]

theorem atoms_records_settle (p : Packing) : atoms p.settle.records = p.told := by
  rw [← told_settle, told, pending_settle, List.map_nil, List.append_nil]

theorem told_hold (p : Packing) (value : UInt8) :
    (p.hold value).told = p.told ++ [.byte value] := by
  by_cases h : p.pending.length + 1 < literalChunk
  · rw [hold_of_lt h]
    simp [told]
  · rw [hold_of_not_lt h, told_settle]
    simp [told]

theorem told_add (p : Packing) (a : Atom) :
    (p.add a).told = p.told ++ [a].filter Atom.isSolid := by
  cases a with
  | copy offset length =>
    by_cases h₀ : length = 0
    · subst h₀
      rw [add_empty, told_settle]
      exact (List.append_nil _).symm
    · have hsolid : (Atom.copy offset length).isSolid = true := bne_iff_ne.mpr h₀
      rw [add_copy p offset h₀, told, atoms_append, atoms_records_settle,
        List.filter_cons_of_pos hsolid]
      exact List.append_nil _
  | byte value => exact told_hold p value

theorem told_addAll (p : Packing) (as : List Atom) :
    (p.addAll as).told = p.told ++ as.filter Atom.isSolid := by
  induction as generalizing p with
  | nil => exact (List.append_nil _).symm
  | cons a as ih =>
    rw [addAll_cons, ih, told_add, List.append_assoc, ← List.filter_append, List.singleton_append]

/-! ## Chunks -/

/-- Less than a chunk is held back. -/
theorem pending_add_lt (p : Packing) (a : Atom) : (p.add a).pending.length < literalChunk := by
  have hchunk : 0 < literalChunk := by decide
  cases a with
  | copy offset length =>
    by_cases h₀ : length = 0
    · subst h₀
      rwa [add_empty, pending_settle]
    · rwa [add_copy p offset h₀]
  | byte value =>
    show (p.hold value).pending.length < literalChunk
    by_cases hroom : p.pending.length + 1 < literalChunk
    · rw [hold_of_lt hroom, List.length_append]
      exact hroom
    · rwa [hold_of_not_lt hroom, pending_settle]

theorem pending_addAll_lt {p : Packing} (h : p.pending.length < literalChunk) (as : List Atom) :
    (p.addAll as).pending.length < literalChunk := by
  induction as generalizing p with
  | nil => exact h
  | cons a as ih => exact ih (pending_add_lt p a)

/-- Bytes for which there is room are held back, and settled once they fill a chunk. -/
theorem addAll_bytes {p : Packing} (hp : p.pending.length < literalChunk) {bytes : List UInt8}
    (hb : p.pending.length + bytes.length ≤ literalChunk) :
    p.addAll (bytes.map .byte) =
      if p.pending.length + bytes.length < literalChunk then ⟨p.records, p.pending ++ bytes⟩
      else settle ⟨p.records, p.pending ++ bytes⟩ := by
  induction bytes generalizing p with
  | nil =>
    rw [List.length_nil, Nat.add_zero, if_pos hp, List.append_nil]
    rfl
  | cons value bytes ih =>
    rw [List.length_cons] at hb ⊢
    rw [List.map_cons, addAll_cons, add]
    by_cases hroom : p.pending.length + 1 < literalChunk
    · have hlen : (p.pending ++ [value]).length = p.pending.length + 1 := by
        rw [List.length_append, List.length_singleton]
      rw [hold_of_lt hroom, ih (by rw [hlen]; exact hroom) (by rw [hlen]; omega), hlen,
        List.append_assoc, List.singleton_append, Nat.add_assoc, Nat.add_comm 1]
    · obtain rfl : bytes = [] := List.eq_nil_of_length_eq_zero (by omega)
      rw [hold_of_not_lt hroom, List.length_nil, Nat.zero_add, if_neg hroom]
      rfl

/-! ## What holds of the records -/

section Records

variable {P : Instruction → Prop} {p : Packing}

theorem forall_settle
    (hlit : ∀ bytes : ByteArray, 0 < bytes.size → bytes.size ≤ literalChunk → P (.literal bytes))
    (h : ∀ i ∈ p.records, P i) (hp : p.pending.length ≤ literalChunk) :
    ∀ i ∈ p.settle.records, P i := by
  unfold settle
  split
  · exact h
  · rename_i hne
    have hpos := List.length_pos_iff.mpr hne
    refine List.forall_mem_append.mpr ⟨h, List.forall_mem_singleton.mpr ?_⟩
    exact hlit _ (by rwa [size_packBytes]) (by rwa [size_packBytes])

theorem forall_add
    (hlit : ∀ bytes : ByteArray, 0 < bytes.size → bytes.size ≤ literalChunk → P (.literal bytes))
    (h : ∀ i ∈ p.records, P i) (hp : p.pending.length < literalChunk) {a : Atom}
    (ha : ∀ offset length, a = .copy offset length → length ≠ 0 → P (.copy offset length)) :
    ∀ i ∈ (p.add a).records, P i := by
  cases a with
  | copy offset length =>
    have hsettle := forall_settle hlit h (Nat.le_of_lt hp)
    by_cases h₀ : length = 0
    · subst h₀
      rwa [add_empty]
    · rw [add_copy p offset h₀]
      exact List.forall_mem_append.mpr ⟨hsettle, List.forall_mem_singleton.mpr (ha _ _ rfl h₀)⟩
  | byte value =>
    show ∀ i ∈ (p.hold value).records, P i
    by_cases hroom : p.pending.length + 1 < literalChunk
    · rwa [hold_of_lt hroom]
    · rw [hold_of_not_lt hroom]
      refine forall_settle hlit h ?_
      rw [List.length_append]
      exact hp

theorem forall_addAll
    (hlit : ∀ bytes : ByteArray, 0 < bytes.size → bytes.size ≤ literalChunk → P (.literal bytes))
    (h : ∀ i ∈ p.records, P i) (hp : p.pending.length < literalChunk) {as : List Atom}
    (ha : ∀ offset length, .copy offset length ∈ as → length ≠ 0 → P (.copy offset length)) :
    ∀ i ∈ (p.addAll as).records, P i := by
  induction as generalizing p with
  | nil => exact h
  | cons a as ih =>
    refine ih (forall_add hlit h hp fun offset length he => ?_) (pending_add_lt p a)
      fun offset length hmem => ha offset length (List.mem_cons_of_mem a hmem)
    exact ha offset length (List.mem_cons.mpr (.inl he.symm))

end Records

end Packing

/-- Can the atom be written? -/
def Atom.Writable : Atom → Prop
  | copy offset length => offset < 0x8000000000000000 ∧ length < 0x100000000
  | byte _ => True

/-! ## Whole patches -/

/-- The records that atoms are packed into. -/
def packed (as : List Atom) : List Instruction := (Packing.addAll {} as).settle.records

/-- A flush at the end changes nothing. -/
theorem packed_flush (as : List Atom) : packed (as ++ [.copy 0 0]) = packed as := by
  rw [packed, packed, Packing.addAll_append, Packing.addAll_cons, Packing.addAll_nil,
    Packing.add_empty, Packing.settle_of_pending (Packing.pending_settle _)]

/-- The records stand for the atoms, less the empty copies. -/
theorem atoms_packed (as : List Atom) : atoms (packed as) = as.filter Atom.isSolid := by
  rw [packed, Packing.atoms_records_settle, Packing.told_addAll]
  rfl

/-- The records rebuild what the atoms do. -/
theorem origins_packed (as : List Atom) : origins (packed as) = (cells as).map Cell.origin := by
  rw [← map_origin_cells, atoms_packed, cells_filter_isSolid]

/-- The records append as many bytes. -/
theorem outputLength_packed (as : List Atom) : outputLength (packed as) = (cells as).length := by
  rw [← length_origins, origins_packed, List.length_map]

theorem pending_lt (as : List Atom) :
    (Packing.addAll {} as).pending.length < literalChunk :=
  Packing.pending_addAll_lt (by decide) as

/-- What holds of literals up to a chunk and of the copies holds of all records. -/
theorem forall_packed {P : Instruction → Prop} {as : List Atom}
    (hlit : ∀ bytes : ByteArray, 0 < bytes.size → bytes.size ≤ literalChunk → P (.literal bytes))
    (ha : ∀ offset length, .copy offset length ∈ as → length ≠ 0 → P (.copy offset length)) :
    ∀ i ∈ packed as, P i :=
  Packing.forall_settle hlit
    (Packing.forall_addAll hlit (fun _ hi => absurd hi List.not_mem_nil) (by decide) ha)
    (Nat.le_of_lt (pending_lt as))

/-- Records can be written if the copies can. -/
theorem writable_packed {as : List Atom} (ha : ∀ a ∈ as, a.isSolid → a.Writable) :
    ∀ i ∈ packed as, i.Writable := by
  have hchunk : literalChunk < 0x100000000 := by decide
  exact forall_packed (fun _ hpos hle => ⟨hpos, by omega⟩)
    fun _ _ hmem h₀ => ha _ hmem (bne_iff_ne.mpr h₀)

end BinaryDelta
