import BinaryDelta.Proofs.Merge.Chain
import BinaryDelta.Proofs.Patch.Accept

/-!
# Merging is associative

Merging writes the second patch as it goes through the first. The order of two merges decides where
copies are cut and where literals are, and through which index ranges are looked up; but the cells
come out the same, and cells determine the patch.

Results:
* `exists_mergeBytes`, `within_of_mergeBytes`: if the first patch is addressable, merging succeeds
  if and only if no copy of the second reaches behind the middle, and then the merged patch has the
  cells of the second one as they go through the first.
* **`mergeBytes_assoc`**: three patches that follow each other merge into the same bytes in either
  order.
-/

namespace BinaryDelta

/-! ## Copied positions -/

/-- No cell is copied from this position or from behind it. -/
def Below (bound : Nat) (cs : List Cell) : Prop :=
  ∀ c ∈ cs, ∀ position, c.origin = .source position → position < bound

theorem below_of_copies {bound : Nat} {is : List Instruction}
    (h : ∀ copy ∈ copies is, copy.1 + copy.2 ≤ bound) : Below bound (cells (atoms is)) := by
  intro c hc position hpos
  obtain ⟨a, ha, hc⟩ := List.mem_flatMap.mp hc
  cases a with
  | copy offset length =>
    obtain ⟨k, hk, rfl⟩ := List.mem_map.mp hc
    cases hpos
    have hle : offset + length ≤ bound :=
      h (offset, length) (mem_copies_iff.mpr (copy_mem_atoms_iff.mp ha))
    have hlt := List.mem_range.mp hk
    omega
  | byte value =>
    obtain rfl := List.mem_singleton.mp hc
    cases hpos

/-- Going through a first patch leads to where its copies lead. -/
theorem below_through {bound : Nat} {first : List Cell} (h : Below bound first) (cs : List Cell) :
    Below bound (through first cs) := by
  intro c hc position hpos
  obtain ⟨c', -, rfl⟩ := List.mem_map.mp hc
  rcases c' with ⟨position' | value, opens⟩
  · have horigin : (Cell.through first ⟨.source position', opens⟩).origin =
        (first[position']?.getD ⟨.given 0, false⟩).origin := by
      cases opens with
      | false => rfl
      | true => exact Cell.origin_begun _
    rw [horigin] at hpos
    cases hfound : first[position']? with
    | none =>
      rw [hfound] at hpos
      cases hpos
    | some found =>
      rw [hfound] at hpos
      exact h found (List.mem_of_getElem? hfound) position hpos
  · cases hpos

/-- A copy that is not empty shows where it ends. -/
theorem le_of_below {bound : Nat} {as : List Atom} (h : Below bound (cells as))
    {offset length : Nat} (ha : Atom.copy offset length ∈ as)
    (hsolid : (Atom.copy offset length).isSolid) : offset + length ≤ bound := by
  obtain ⟨k, rfl⟩ := Atom.exists_of_isSolid hsolid
  have hlast : (⟨.source (offset + k), k == 0⟩ : Cell) ∈ cells as :=
    List.mem_flatMap.mpr ⟨_, ha, List.mem_map.mpr ⟨k, List.mem_range.mpr (Nat.lt_succ_self k), rfl⟩⟩
  exact h _ hlast _ rfl

/-! ## One merge -/

/-- Is the atom no copy that is empty, or more than a record can hold? -/
def Atom.Short : Atom → Prop
  | copy _ length => 0 < length ∧ length < 0x100000000
  | byte _ => True

theorem Atom.Short.isSolid {a : Atom} (h : a.Short) : a.isSolid := by
  cases a with
  | copy offset length => exact bne_iff_ne.mpr (Nat.ne_of_gt h.1)
  | byte value => rfl

theorem SinkStep.short_atoms {steps : List SinkStep} (hs : ∀ step ∈ steps, step.Short)
    (hsolid : ∀ a ∈ steps.flatMap SinkStep.atoms, a.isSolid) :
    ∀ a ∈ steps.flatMap SinkStep.atoms, a.Short := by
  intro a ha
  obtain ⟨step, hstep, hmem⟩ := List.mem_flatMap.mp ha
  cases step with
  | copy offset length =>
    obtain rfl := List.mem_singleton.mp hmem
    exact hs _ hstep
  | byte value =>
    obtain rfl := List.mem_singleton.mp hmem
    trivial
  | literal bytes =>
    obtain ⟨value, -, rfl⟩ := List.mem_map.mp hmem
    trivial
  | flush =>
    obtain rfl := List.mem_singleton.mp hmem
    exact absurd (hsolid _ ha) (by decide)

/-- The patch packs the second instructions as they go through the first. -/
structure Merges (mode : Mode) (is js : List Instruction) (merged : ByteArray) (as : List Atom) :
    Prop where
  short : ∀ a ∈ as, a.Short
  cells_eq : cells as = through (cells (atoms is)) (cells (atoms js))
  bytes_eq : merged.data.toList = patchOf mode (packed as)

namespace Merges

variable {mode : Mode} {is js is' js' : List Instruction} {merged merged' : ByteArray}
  {as as' : List Atom}

/-- The cells determine the patch. -/
theorem unique (h : Merges mode is js merged as) (h' : Merges mode is' js' merged' as')
    (heq : through (cells (atoms is)) (cells (atoms js)) =
      through (cells (atoms is')) (cells (atoms js'))) : merged = merged' := by
  have has : as = as' :=
    eq_of_cells_eq (fun a ha => (h.short a ha).isSolid) (fun a ha => (h'.short a ha).isSolid)
      (by rw [h.cells_eq, h'.cells_eq, heq])
  apply eq_of_toList_eq
  rw [h.bytes_eq, h'.bytes_eq, has]

theorem cells_packed (h : Merges mode is js merged as) :
    cells (atoms (packed as)) = through (cells (atoms is)) (cells (atoms js)) := by
  rw [atoms_packed, cells_filter_isSolid, h.cells_eq]

theorem outputLength_packed (h : Merges mode is js merged as) :
    outputLength (packed as) = outputLength js := by
  rw [← length_cells, h.cells_packed, through, List.length_map, length_cells]

/-- The copies lead where those of the first patch do. -/
theorem le_of_copies (h : Merges mode is js merged as) {bound : Nat}
    (hc : ∀ copy ∈ copies is, copy.1 + copy.2 ≤ bound) {offset length : Nat}
    (ha : Atom.copy offset length ∈ as) : offset + length ≤ bound := by
  have hbelow : Below bound (cells as) := by
    rw [h.cells_eq]
    exact below_through (below_of_copies hc) _
  exact le_of_below hbelow ha (h.short _ ha).isSolid

/-- The same of the copies that are packed. -/
theorem copies_packed_le (h : Merges mode is js merged as) {bound : Nat}
    (hc : ∀ copy ∈ copies is, copy.1 + copy.2 ≤ bound) :
    ∀ copy ∈ copies (packed as), copy.1 + copy.2 ≤ bound := by
  intro copy hcopy
  have ha := copy_mem_atoms_iff.mpr (mem_copies_iff.mp hcopy)
  rw [atoms_packed] at ha
  exact h.le_of_copies hc (List.mem_filter.mp ha).1

/-- If the copies of the first patch end at 2^63 or below, the merged one is well formed. -/
theorem wellFormed (h : Merges mode is js merged as)
    (hc : ∀ copy ∈ copies is, copy.1 + copy.2 ≤ 0x8000000000000000) :
    WellFormed merged.data.toList (packed as) := by
  have hwritable : ∀ i ∈ packed as, i.Writable := by
    apply writable_packed
    intro a ha _
    cases a with
    | copy offset length =>
      obtain ⟨hpos, hlt⟩ : 0 < length ∧ length < 0x100000000 := h.short _ ha
      have hle := h.le_of_copies hc ha
      exact ⟨by omega, hlt⟩
    | byte value => trivial
  rw [h.bytes_eq]
  exact wellFormed_patchOf mode hwritable

end Merges

section Merge

variable {first second merged : ByteArray} {is js : List Instruction}

theorem mergeBytes_eq {options : WriterOptions} {w : PatchWriter ByteArray}
    (hw : PatchWriter.create ByteArray.empty options = .ok w) :
    mergeBytes first second options =
      (merge (⟨first, 0⟩ : MemoryStream) (⟨second, 0⟩ : MemoryStream) w {}).1.map fun _ =>
        (merge (⟨first, 0⟩ : MemoryStream) (⟨second, 0⟩ : MemoryStream) w {}).2.sink.output := by
  rw [mergeBytes, hw]
  simp only
  rcases merge (⟨first, 0⟩ : MemoryStream) (⟨second, 0⟩ : MemoryStream) w {} with ⟨e | _, m⟩
  · rfl
  · rfl

/-- With the default settings the index of a well-formed patch can be built. -/
theorem ready_mergeBytes {rest : List UInt8}
    (hs : spellPatch? first.data.toList = some ⟨is, .marker rest⟩) (w : PatchWriter ByteArray) :
    Merger.Ready (fun src : MemoryStream => src.bytes = first) first.data.toList
      ⟨is, .marker rest⟩ { first := ⟨first, 0⟩, options := {}, sink := w } := by
  have k := MemoryStream.holding_bytes first
  have hbuild :=
    PatchIndex.build_ne_exhausted k ⟨first, 0⟩ rfl hs rfl {} (by decide) (by decide) rfl
  exact Merger.ready_start k rfl hs rfl (by decide) (by decide) hbuild w

/-- Merging succeeds if no copy of the second patch reaches behind the middle. -/
theorem exists_mergeBytes (h₁ : WellFormed first.data.toList is) (hnear : Addressable is)
    (h₂ : WellFormed second.data.toList js)
    (hc : ∀ copy ∈ copies js, copy.1 + copy.2 ≤ outputLength is) (differential : Bool) :
    ∃ merged as, mergeBytes first second { differential } = .ok merged ∧
      Merges (WriterOptions.mode { differential }) is js merged as := by
  obtain ⟨rest₁, hs₁⟩ := wellFormed_iff.mp h₁
  obtain ⟨rest₂, hs₂⟩ := wellFormed_iff.mp h₂
  have hempty : ByteArray.empty.data.toList = [] := rfl
  obtain ⟨w, hw, -⟩ :=
    PatchWriter.exists_create ByteOutput.reliable_byteArray hempty { differential } rfl
  obtain ⟨inner, hshort, hsolid, hcells, hanswer, hsink⟩ :=
    merge_eq (MemoryStream.holding_bytes first) rfl (MemoryStream.delivers ⟨second, 0⟩) hs₂ rfl
      (ready_mergeBytes hs₁ w) hnear hc
  obtain ⟨w₁, w', hw₁, hcomplete, hout⟩ := PatchWriter.exists_patch
    ByteOutput.reliable_byteArray hempty { differential } rfl rfl rfl inner
  rw [hw] at hw₁
  cases hw₁
  rw [hcomplete] at hanswer hsink
  refine ⟨w'.output, _, ?_, SinkStep.short_atoms hshort hsolid, hcells, hout⟩
  rw [mergeBytes_eq hw, merge, hanswer, hsink]
  rfl

/-- Merging fails if a copy of the second patch reaches behind the middle. -/
theorem within_of_mergeBytes (h₁ : WellFormed first.data.toList is) (hnear : Addressable is)
    (h₂ : WellFormed second.data.toList js) {differential : Bool}
    (h : mergeBytes first second { differential } = .ok merged) :
    ∀ copy ∈ copies js, copy.1 + copy.2 ≤ outputLength is := by
  obtain ⟨rest₁, hs₁⟩ := wellFormed_iff.mp h₁
  obtain ⟨rest₂, hs₂⟩ := wellFormed_iff.mp h₂
  obtain ⟨w, hw, -⟩ := PatchWriter.exists_create ByteOutput.reliable_byteArray
    (show ByteArray.empty.data.toList = [] from rfl) { differential } rfl
  rw [mergeBytes_eq hw] at h
  rcases hmerge : merge (⟨first, 0⟩ : MemoryStream) (⟨second, 0⟩ : MemoryStream) w {} with
    ⟨e | length, m⟩
  · rw [hmerge] at h
    cases h
  · exact within_of_merge (MemoryStream.holding_bytes first) rfl
      (MemoryStream.delivers ⟨second, 0⟩) hs₂ rfl (ready_mergeBytes hs₁ w) hnear
      (congrArg Prod.fst hmerge)

/-- What merging gives packs the second patch as it goes through the first. -/
theorem merges_of_mergeBytes (h₁ : WellFormed first.data.toList is) (hnear : Addressable is)
    (h₂ : WellFormed second.data.toList js) {differential : Bool}
    (h : mergeBytes first second { differential } = .ok merged) :
    ∃ as, Merges (WriterOptions.mode { differential }) is js merged as := by
  obtain ⟨merged', as, h', hmerges⟩ :=
    exists_mergeBytes h₁ hnear h₂ (within_of_mergeBytes h₁ hnear h₂ h) differential
  rw [h] at h'
  cases h'
  exact ⟨as, hmerges⟩

end Merge

/-! ## Two merges -/

/-- **Merging is associative.** Let three patches follow each other, the copies of the first ending
at 2^63 or below and its target being shorter. If the first can be merged with the second, and the
second with the third, in any modes, then what the two come to can be merged with the third and with
the first, and in one mode that gives the same bytes. -/
theorem mergeBytes_assoc {ab bc cd ac bd : ByteArray} {is js ks : List Instruction}
    (h₁ : WellFormed ab.data.toList is) (h₂ : WellFormed bc.data.toList js)
    (h₃ : WellFormed cd.data.toList ks)
    (hc : ∀ copy ∈ copies is, copy.1 + copy.2 ≤ 0x8000000000000000)
    (hl : outputLength is < 0x8000000000000000) {d₁ d₂ : Bool}
    (hac : mergeBytes ab bc { differential := d₁ } = .ok ac)
    (hbd : mergeBytes bc cd { differential := d₂ } = .ok bd) (d : Bool) :
    ∃ ad, mergeBytes ac cd { differential := d } = .ok ad ∧
      mergeBytes ab bd { differential := d } = .ok ad := by
  have hnear {bound : Nat} {is : List Instruction} (hb : bound ≤ 0x8000000000000000)
      (hc : ∀ copy ∈ copies is, copy.1 + copy.2 ≤ bound) : Addressable is :=
    fun copy hcopy => Nat.le_trans (hc copy hcopy) (by omega)
  have hnear₁ : Addressable is := hnear (Nat.le_refl _) hc
  have hwithin₁ := within_of_mergeBytes h₁ hnear₁ h₂ hac
  have hnear₂ : Addressable js := hnear (Nat.le_of_lt hl) hwithin₁
  have hwithin₂ := within_of_mergeBytes h₂ hnear₂ h₃ hbd
  obtain ⟨as, hm₁⟩ := merges_of_mergeBytes h₁ hnear₁ h₂ hac
  obtain ⟨as₂, hm₂⟩ := merges_of_mergeBytes h₂ hnear₂ h₃ hbd
  have hwell₁ := hm₁.wellFormed hc
  have hwell₂ := hm₂.wellFormed fun copy hcopy =>
    Nat.le_trans (hwithin₁ copy hcopy) (Nat.le_of_lt hl)
  obtain ⟨ad, as₃, had, hm₃⟩ := exists_mergeBytes hwell₁
    (hnear (Nat.le_refl _) (hm₁.copies_packed_le hc)) h₃ (by rwa [hm₁.outputLength_packed]) d
  obtain ⟨ad', as₄, had', hm₄⟩ :=
    exists_mergeBytes h₁ hnear₁ hwell₂ (hm₂.copies_packed_le hwithin₁) d
  refine ⟨ad, had, ?_⟩
  have heq := hm₃.unique hm₄ (by rw [hm₁.cells_packed, hm₂.cells_packed, through_through])
  rw [heq, had']

/-- A chain in both modes: the copies of each patch cross the borders of the patch before it. -/
theorem mergeBytes_assoc_across :
    let ab := packBytes (patchOf .differential [.copy 2 4, .literal (packBytes [9, 9]), .copy 0 3])
    let bc := packBytes (patchOf .normal [.copy 2 3, .literal (packBytes [7]), .copy 6 3])
    let cd := packBytes (patchOf .differential [.copy 1 4, .literal (packBytes [8]), .copy 0 2])
    ∃ ac bd ad, mergeBytes ab bc {} = .ok ac ∧ mergeBytes bc cd { differential := true } = .ok bd ∧
      mergeBytes ac cd {} = .ok ad ∧ mergeBytes ab bd {} = .ok ad := by
  intro ab bc cd
  have h₁ : WellFormed ab.data.toList _ := wellFormed_patchOf .differential (by decide)
  have h₂ : WellFormed bc.data.toList _ := wellFormed_patchOf .normal (by decide)
  have h₃ : WellFormed cd.data.toList _ := wellFormed_patchOf .differential (by decide)
  obtain ⟨ac, -, hac, -⟩ := exists_mergeBytes h₁ (by decide) h₂ (by decide) false
  obtain ⟨bd, -, hbd, -⟩ := exists_mergeBytes h₂ (by decide) h₃ (by decide) true
  obtain ⟨ad, had, had'⟩ := mergeBytes_assoc h₁ h₂ h₃ (by decide) (by decide) hac hbd false
  exact ⟨ac, bd, ad, hac, hbd, had, had'⟩

end BinaryDelta
