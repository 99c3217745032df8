import BinaryDelta.Proofs.Replay

/-!
# Instructions byte by byte

How bytes are cut into literals does not matter to most of what is done with instructions. Atoms
are what remains of them when every literal is cut into its bytes. Cells are atoms with the copies
cut as well: one cell for each byte of the target, which knows its origin and whether a copy begins
with it. So a range of a target is a part of a list, and to go through a first patch is to look up
each cell.

* `fresh` marks cells that are cut out of others: if they begin within a copy, a copy begins there.
* `through` replaces each cell by that of a first patch at its position.

Results:
* `copies_congr`: the atoms tell the copies.
* `map_origin_cells`: the origins are those of the instructions.
* `through_copy`: a copy goes through a first patch to the range that it copies.
* `through_through`: going through two patches can be done in either order.
* `rebuilds_of_through`: going through a first patch is patching in turn.
* `eq_of_cells_eq`: cells determine the atoms, but for empty copies.
-/

namespace BinaryDelta

/-- A copy, or one byte of a literal. -/
inductive Atom where
  | copy (offset length : Nat)
  | byte (value : UInt8)
  deriving Repr, DecidableEq

/-- The atoms of an instruction. -/
def Instruction.atoms : Instruction → List Atom
  | copy offset length => [.copy offset length]
  | literal bytes => bytes.data.toList.map .byte

/-- The atoms of instructions. -/
def atoms (is : List Instruction) : List Atom := is.flatMap Instruction.atoms

@[simp] theorem atoms_nil : atoms [] = [] := rfl

theorem atoms_cons (i : Instruction) (is : List Instruction) :
    atoms (i :: is) = i.atoms ++ atoms is := rfl

@[simp] theorem atoms_append (is is' : List Instruction) :
    atoms (is ++ is') = atoms is ++ atoms is' :=
  List.flatMap_append

theorem copy_mem_atoms_iff {is : List Instruction} {offset length : Nat} :
    .copy offset length ∈ atoms is ↔ .copy offset length ∈ is := by
  constructor
  · intro h
    obtain ⟨i, hi, ha⟩ := List.mem_flatMap.mp h
    cases i with
    | copy offset' length' =>
      cases List.mem_singleton.mp ha
      exact hi
    | literal bytes =>
      obtain ⟨value, -, hcopy⟩ := List.mem_map.mp ha
      cases hcopy
  · intro h
    exact List.mem_flatMap.mpr ⟨_, h, List.mem_singleton_self _⟩

/-- The instruction that an atom is by itself. -/
def Atom.instruction : Atom → Instruction
  | copy offset length => .copy offset length
  | byte value => .literal (packBytes [value])

/-- The copies are those among the atoms. -/
theorem copies_map_instruction (is : List Instruction) :
    copies ((atoms is).map Atom.instruction) = copies is := by
  induction is with
  | nil => rfl
  | cons i is ih =>
    have hcons : copies (i :: is) = i.copies ++ copies is := List.flatMap_cons
    rw [atoms_cons, List.map_append, copies_append, ih, hcons]
    cases i with
    | copy offset length => rfl
    | literal bytes => simp [Instruction.atoms, Atom.instruction, Instruction.copies, copies]

/-- So the atoms tell the copies. -/
theorem copies_congr {is is' : List Instruction} (h : atoms is = atoms is') :
    copies is = copies is' := by
  rw [← copies_map_instruction is, h, copies_map_instruction]

/-- Does the atom append anything? -/
def Atom.isSolid : Atom → Bool
  | copy _ length => length != 0
  | byte _ => true

/-- A byte of a target: where it comes from, and whether a copy begins with it. -/
structure Cell where
  origin : Origin
  opens : Bool
  deriving Repr, DecidableEq

/-- The cells of an atom. -/
def Atom.cells : Atom → List Cell
  | copy offset length => (List.range length).map fun k => ⟨.source (offset + k), k == 0⟩
  | byte value => [⟨.given value, false⟩]

@[simp] theorem Atom.length_cells_copy (offset length : Nat) :
    (copy offset length).cells.length = length := by
  rw [cells, List.length_map, List.length_range]

/-- The cells of atoms. -/
def cells (as : List Atom) : List Cell := as.flatMap Atom.cells

@[simp] theorem cells_nil : cells [] = [] := rfl

@[simp] theorem cells_cons (a : Atom) (as : List Atom) : cells (a :: as) = a.cells ++ cells as :=
  rfl

@[simp] theorem cells_append (as as' : List Atom) : cells (as ++ as') = cells as ++ cells as' :=
  List.flatMap_append

theorem cells_bytes (values : List UInt8) :
    cells (values.map .byte) = values.map fun value => ⟨.given value, false⟩ := by
  rw [cells, List.flatMap_map]
  exact List.map_eq_flatMap.symm

theorem isSolid_bytes (values : List UInt8) : ∀ a ∈ values.map Atom.byte, a.isSolid := by
  intro a ha
  obtain ⟨value, -, rfl⟩ := List.mem_map.mp ha
  rfl

/-- Empty copies have no cells. -/
theorem cells_filter_isSolid (as : List Atom) : cells (as.filter Atom.isSolid) = cells as := by
  induction as with
  | nil => rfl
  | cons a as ih =>
    rw [List.filter_cons, cells_cons]
    split
    · rw [cells_cons, ih]
    · rename_i hempty
      cases a with
      | copy offset length =>
        obtain rfl : length = 0 := by simpa [Atom.isSolid] using hempty
        rw [ih]
        rfl
      | byte value => exact absurd rfl hempty

theorem map_origin_cells (is : List Instruction) :
    (cells (atoms is)).map Cell.origin = origins is := by
  induction is with
  | nil => rfl
  | cons i is ih =>
    rw [atoms_cons, cells_append, List.map_append, ih, origins_cons]
    congr 1
    cases i with
    | copy offset length =>
      rw [Instruction.atoms, cells_cons, cells_nil, List.append_nil, Atom.cells, List.map_map,
        Instruction.origins, List.range'_eq_map_range, List.map_map]
      rfl
    | literal bytes =>
      rw [Instruction.atoms, cells_bytes, List.map_map, Instruction.origins]
      rfl

theorem length_cells (is : List Instruction) : (cells (atoms is)).length = outputLength is := by
  rw [← length_origins, ← map_origin_cells, List.length_map]

/-! ## Cutting -/

/-- The same byte, with a copy beginning at it if it is copied. -/
def Cell.begun (c : Cell) : Cell :=
  match c.origin with
  | .source _ => { c with opens := true }
  | .given _ => c

theorem Cell.begun_begun (c : Cell) : c.begun.begun = c.begun := by
  rcases c with ⟨position | value, opens⟩ <;> rfl

@[simp] theorem Cell.origin_begun (c : Cell) : c.begun.origin = c.origin := by
  rcases c with ⟨position | value, opens⟩ <;> rfl

/-- Cells cut out of others. -/
def fresh : List Cell → List Cell
  | [] => []
  | c :: cs => c.begun :: cs

theorem fresh_append {cs : List Cell} (h : cs ≠ []) (cs' : List Cell) :
    fresh (cs ++ cs') = fresh cs ++ cs' := by
  cases cs with
  | nil => exact absurd rfl h
  | cons c cs => rfl

theorem fresh_take (cs : List Cell) (n : Nat) : fresh (cs.take n) = (fresh cs).take n := by
  cases n with
  | zero => rfl
  | succ n =>
    cases cs with
    | nil => rfl
    | cons c cs => rfl

theorem map_origin_fresh (cs : List Cell) :
    (fresh cs).map Cell.origin = cs.map Cell.origin := by
  cases cs with
  | nil => rfl
  | cons c cs => rw [fresh, List.map_cons, List.map_cons, Cell.origin_begun]

theorem Atom.cells_copy_succ (offset length : Nat) : (copy offset (length + 1)).cells =
    ⟨.source offset, true⟩ ::
      (List.range length).map fun k => ⟨.source (offset + (k + 1)), false⟩ := by
  rw [cells, List.range_succ_eq_map, List.map_cons, List.map_map]
  rfl

/-- Atoms are not cut out of anything. -/
theorem fresh_cells (as : List Atom) : fresh (cells as) = cells as := by
  induction as with
  | nil => rfl
  | cons a as ih =>
    cases a with
    | copy offset length =>
      cases length with
      | zero => exact ih
      | succ length => rw [cells_cons, Atom.cells_copy_succ]; rfl
    | byte value => rfl

/-- A range cut out of a copy is a copy. -/
theorem fresh_slice_copy {offset length skip count : Nat} (h : skip + count ≤ length) :
    fresh (((Atom.copy offset length).cells.drop skip).take count) =
      (Atom.copy (offset + skip) count).cells := by
  cases count with
  | zero =>
    rw [List.take_zero]
    rfl
  | succ count =>
    have hlt : skip < (Atom.copy offset length).cells.length := by
      rw [Atom.length_cells_copy]
      omega
    rw [List.drop_eq_getElem_cons hlt, List.take_succ_cons, fresh, Atom.cells_copy_succ]
    congr 1
    · simp [Atom.cells, Cell.begun]
    · apply List.ext_getElem
      · simp
        omega
      · intro k h₁ h₂
        simp only [Atom.cells, List.getElem_map, List.getElem_range, List.getElem_take,
          List.getElem_drop]
        congr 1
        · congr 1
          omega
        · exact beq_eq_false_iff_ne.mpr (by omega)

/-! ## Going through a first patch -/

/-- The cell at the position that this one copies. -/
def Cell.through (first : List Cell) (c : Cell) : Cell :=
  match c.origin with
  | .given _ => c
  | .source position =>
    let found := first[position]?.getD ⟨.given 0, false⟩
    if c.opens then found.begun else found

/-- Cells over the middle of a chain, over its beginning. -/
def through (first cs : List Cell) : List Cell := cs.map (Cell.through first)

theorem Cell.through_begun (first : List Cell) (c : Cell) :
    c.begun.through first = (c.through first).begun := by
  rcases c with ⟨position | value, _ | _⟩
  · rfl
  · exact (Cell.begun_begun _).symm
  · rfl
  · rfl

/-- Going through two patches can be done in either order. -/
theorem through_through (first second cs : List Cell) :
    through (through first second) cs = through first (through second cs) := by
  rw [through.eq_1 first (through second cs), through.eq_1 second, List.map_map]
  refine List.map_congr_left fun c _ => ?_
  rcases c with ⟨position | value, opens⟩
  · have hfound : (through first second)[position]?.getD ⟨.given 0, false⟩ =
        (second[position]?.getD ⟨.given 0, false⟩).through first := by
      rw [through, List.getElem?_map]
      cases second[position]? with
      | none => rfl
      | some found => rfl
    cases opens with
    | false => exact hfound
    | true =>
      show Cell.begun ((through first second)[position]?.getD ⟨.given 0, false⟩) = _
      rw [hfound, ← Cell.through_begun]
      rfl
  · rfl

/-- A copy goes to the range that it copies. -/
theorem through_copy {first : List Cell} {offset length : Nat}
    (h : offset + length ≤ first.length) :
    through first (Atom.copy offset length).cells = fresh ((first.drop offset).take length) := by
  cases length with
  | zero => rw [List.take_zero]; rfl
  | succ length =>
    have hlt : offset < first.length := by omega
    rw [Atom.cells_copy_succ, List.drop_eq_getElem_cons hlt, List.take_succ_cons, fresh, through,
      List.map_cons, List.map_map]
    congr 1
    · simp [Cell.through, List.getElem?_eq_getElem hlt]
    · apply List.ext_getElem
      · simp
        omega
      · intro k h₁ h₂
        have hk : offset + (k + 1) < first.length := by
          rw [List.length_map, List.length_range] at h₁
          omega
        simp only [List.getElem_map, List.getElem_range, Function.comp_apply, Cell.through,
          Bool.false_eq_true, if_false, List.getElem?_eq_getElem hk, Option.getD_some,
          List.getElem_take, List.getElem_drop]
        congr 1
        omega

/-- Literal bytes stay. -/
theorem through_bytes (first : List Cell) (values : List UInt8) :
    through first (cells (values.map .byte)) = cells (values.map .byte) := by
  rw [cells_bytes, through, List.map_map]
  rfl

theorem through_append (first cs cs' : List Cell) :
    through first (cs ++ cs') = through first cs ++ through first cs' :=
  List.map_append

/-- What goes through a first patch is rebuilt over the beginning of the chain. -/
theorem rebuilds_of_through {source middle target : List UInt8} {first second is : List Instruction}
    (h₁ : Rebuilds source first middle) (h₂ : Rebuilds middle second target)
    (h : cells (atoms is) = through (cells (atoms first)) (cells (atoms second))) :
    Rebuilds source is target := by
  have hcell : ∀ c ∈ cells (atoms second),
      (c.through (cells (atoms first))).origin.byte? source = c.origin.byte? middle := by
    intro c hc
    rcases c with ⟨position | value, opens⟩
    · -- the byte at this position of the middle has an origin in the first patch
      have hmem : Origin.byte? middle (.source position) ∈ target.map some := by
        rw [← h₂, ← map_origin_cells, List.map_map]
        exact List.mem_map.mpr ⟨_, hc, rfl⟩
      obtain ⟨value, -, hvalue⟩ := List.mem_map.mp hmem
      have hat := congrArg (·[position]?) h₁
      simp only [← map_origin_cells, List.map_map, List.getElem?_map] at hat
      rw [show middle[position]? = some value from hvalue.symm, Option.map_some] at hat
      obtain ⟨found, hfound, hbyte⟩ := Option.map_eq_some_iff.mp hat
      show Origin.byte? source (Cell.through (cells (atoms first)) _).origin = _
      rw [← hvalue, ← hbyte]
      cases opens with
      | false => simp [Cell.through, hfound]
      | true => simp [Cell.through, hfound]
    · rfl
  rw [Rebuilds, ← map_origin_cells, h, through, List.map_map, List.map_map, ← h₂,
    ← map_origin_cells, List.map_map]
  exact List.map_congr_left hcell

/-! ## From cells to atoms -/

/-- The cells behind a copy show where it ends. -/
theorem length_le_of_cells_eq {offset offset' length length' : Nat} {cs cs' : List Cell}
    (hcs : fresh cs = cs) (h₀ : 0 < length)
    (h : (Atom.copy offset length).cells ++ cs = (Atom.copy offset' length').cells ++ cs') :
    length' ≤ length := by
  by_contra hlt
  have hat : ((Atom.copy offset length).cells ++ cs)[length]? =
      ((Atom.copy offset' length').cells ++ cs')[length]? := by
    rw [h]
  have hleft := Atom.length_cells_copy offset length
  have hright := Atom.length_cells_copy offset' length'
  rw [List.getElem?_append_right (Nat.le_of_eq hleft), hleft, Nat.sub_self,
    List.getElem?_append_left (by omega), Atom.cells, List.getElem?_map,
    List.getElem?_range (by omega), Option.map_some] at hat
  cases cs with
  | nil => cases hat
  | cons c cs =>
    obtain rfl := Option.some.inj hat
    have hopen : true = (length == 0) := congrArg Cell.opens (List.cons.inj hcs).1
    exact Nat.ne_of_gt h₀ (beq_iff_eq.mp hopen.symm)

theorem Atom.exists_of_isSolid {offset length : Nat} (h : (copy offset length).isSolid) :
    ∃ k, length = k + 1 :=
  Nat.exists_eq_add_one_of_ne_zero (bne_iff_ne.mp h)

/-- The first cells determine the first atom. -/
theorem eq_of_append_cells_eq {a a' : Atom} (ha : a.isSolid) (ha' : a'.isSolid)
    {cs cs' : List Cell} (hcs : fresh cs = cs) (hcs' : fresh cs' = cs')
    (h : a.cells ++ cs = a'.cells ++ cs') : a = a' ∧ cs = cs' := by
  cases a with
  | copy offset length =>
    obtain ⟨k, rfl⟩ := Atom.exists_of_isSolid ha
    cases a' with
    | copy offset' length' =>
      obtain ⟨k', rfl⟩ := Atom.exists_of_isSolid ha'
      have hle := length_le_of_cells_eq hcs (Nat.succ_pos k) h
      have hge := length_le_of_cells_eq hcs' (Nat.succ_pos k') h.symm
      obtain rfl : k = k' := by omega
      obtain ⟨hfront, hback⟩ := List.append_inj h (by simp)
      rw [Atom.cells_copy_succ, Atom.cells_copy_succ] at hfront
      cases (List.cons.inj hfront).1
      exact ⟨rfl, hback⟩
    | byte value =>
      rw [Atom.cells_copy_succ] at h
      cases (List.cons.inj h).1
  | byte value =>
    cases a' with
    | copy offset length =>
      obtain ⟨k, rfl⟩ := Atom.exists_of_isSolid ha'
      rw [Atom.cells_copy_succ] at h
      cases (List.cons.inj h).1
    | byte value' =>
      obtain ⟨hcell, hback⟩ := List.cons.inj h
      cases hcell
      exact ⟨rfl, hback⟩

theorem Atom.cells_ne_nil {a : Atom} (h : a.isSolid) : a.cells ≠ [] := by
  cases a with
  | copy offset length =>
    obtain ⟨k, rfl⟩ := exists_of_isSolid h
    rw [cells_copy_succ]
    exact List.cons_ne_nil _ _
  | byte value => exact List.cons_ne_nil _ _

/-- Cells determine the atoms. -/
theorem eq_of_cells_eq {as as' : List Atom} (hs : ∀ a ∈ as, a.isSolid) (hs' : ∀ a ∈ as', a.isSolid)
    (h : cells as = cells as') : as = as' := by
  induction as generalizing as' with
  | nil =>
    cases as' with
    | nil => rfl
    | cons a' as' =>
      have hne := Atom.cells_ne_nil (hs' a' List.mem_cons_self)
      exact absurd (List.append_eq_nil_iff.mp h.symm).1 hne
  | cons a as ih =>
    obtain ⟨ha, hs⟩ := List.forall_mem_cons.mp hs
    cases as' with
    | nil => exact absurd (List.append_eq_nil_iff.mp h).1 (Atom.cells_ne_nil ha)
    | cons a' as' =>
      obtain ⟨ha', htail'⟩ := List.forall_mem_cons.mp hs'
      obtain ⟨rfl, hback⟩ :=
        eq_of_append_cells_eq ha ha' (fresh_cells as) (fresh_cells as') h
      rw [ih hs htail' hback]

end BinaryDelta
