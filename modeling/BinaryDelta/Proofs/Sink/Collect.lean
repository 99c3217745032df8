import BinaryDelta.Proofs.Atoms
import BinaryDelta.Proofs.Sink.Feed
import BinaryDelta.Sink.Collector

/-!
# What a collector holds

A collector takes everything it is given. How literal bytes were cut into calls leaves no trace in
it, and neither do flushes.

Results:
* `addLiteral_addLiteral`: two literals behind each other are one.
* `addAll_congr`: what was added matters only by its atoms.
* `feed_collector`: a collector that was fed holds the instructions of the calls, one added after
  the other.
* `origins_addAll`, `atoms_addAll`, `copies_addAll`: what it holds rebuilds what was added, with the
  same atoms and copies.
* `outputLength_addAll`: and it is as long.
-/

namespace BinaryDelta

namespace Collector

theorem endsInLiteral_push_literal (front : Array Instruction) (run : ByteArray) :
    endsInLiteral (front.push (.literal run)) = true := by
  rw [endsInLiteral, Array.back?_push]

/-- What ends in a literal has it behind the rest. -/
theorem exists_of_endsInLiteral {instructions : Array Instruction}
    (h : endsInLiteral instructions = true) :
    ∃ (front : Array Instruction) (run : ByteArray), instructions = front.push (.literal run) := by
  by_cases h₀ : instructions = #[]
  · subst h₀
    cases h
  · obtain ⟨front, i, rfl⟩ := Array.exists_push_of_ne_empty h₀
    rw [endsInLiteral, Array.back?_push] at h
    cases i with
    | copy offset length => cases h
    | literal run => exact ⟨front, run, rfl⟩

theorem modify_push (front : Array Instruction) (i : Instruction) (f : Instruction → Instruction) :
    (front.push i).modify ((front.push i).size - 1) f = front.push (f i) := by
  rw [Array.size_push, Nat.add_sub_cancel]
  apply Array.ext
  · simp
  · intro j h₁ h₂
    simp only [Array.getElem_modify, Array.getElem_push]
    by_cases hj : j < front.size
    · rw [if_neg (by omega), dif_pos hj, dif_pos hj]
    · have : j < front.size + 1 := by simpa using h₂
      rw [if_pos (by omega), dif_neg hj, dif_neg hj]

@[simp] theorem addLiteral_empty (c : Collector) : c.addLiteral ByteArray.empty = c := rfl

/-- Behind a literal, bytes extend it. -/
theorem addLiteral_push (front : Array Instruction) (run bytes : ByteArray) (closed : Bool) :
    (⟨front.push (.literal run), closed⟩ : Collector).addLiteral bytes =
      ⟨front.push (.literal (run ++ bytes)), closed⟩ := by
  simp only [addLiteral, endsInLiteral_push_literal, if_true]
  split
  · rename_i h₀
    rw [ByteArray.size_eq_zero_iff.mp h₀, ByteArray.append_empty]
  · rw [modify_push, extendLiteral]

/-- Behind a copy, bytes become a literal. -/
theorem addLiteral_of_not {instructions : Array Instruction} {bytes : ByteArray}
    (h : endsInLiteral instructions = false) (hb : bytes.size ≠ 0) (closed : Bool) :
    (⟨instructions, closed⟩ : Collector).addLiteral bytes =
      ⟨instructions.push (.literal bytes), closed⟩ := by
  simp only [addLiteral, if_neg hb, h, Bool.false_eq_true, if_false]

/-- Two literals behind each other are one. -/
theorem addLiteral_addLiteral (c : Collector) (a b : ByteArray) :
    (c.addLiteral a).addLiteral b = c.addLiteral (a ++ b) := by
  rcases c with ⟨instructions, closed⟩
  by_cases ha : a.size = 0
  · rw [ByteArray.size_eq_zero_iff.mp ha, addLiteral_empty, ByteArray.empty_append]
  · cases h : endsInLiteral instructions with
    | true =>
      obtain ⟨front, run, rfl⟩ := exists_of_endsInLiteral h
      rw [addLiteral_push, addLiteral_push, addLiteral_push, ByteArray.append_assoc]
    | false =>
      have hab : (a ++ b).size ≠ 0 := by rw [ByteArray.size_append]; omega
      rw [addLiteral_of_not h ha, addLiteral_push, addLiteral_of_not h hab]

/-! ## One instruction after the other -/

/-- Adds an instruction. -/
def add (c : Collector) : Instruction → Collector
  | .copy offset length => c.addCopy offset length
  | .literal bytes => c.addLiteral bytes

/-- Adds instructions in order. -/
def addAll (c : Collector) (is : List Instruction) : Collector := is.foldl add c

@[simp] theorem addAll_nil (c : Collector) : c.addAll [] = c := rfl

@[simp] theorem addAll_cons (c : Collector) (i : Instruction) (is : List Instruction) :
    c.addAll (i :: is) = (c.add i).addAll is := rfl

theorem addAll_append (c : Collector) (is is' : List Instruction) :
    c.addAll (is ++ is') = (c.addAll is).addAll is' :=
  List.foldl_append

/-- Literals that make up one literal are added as one. -/
theorem addAll_literals (c : Collector) (parts : List ByteArray) :
    c.addAll (parts.map .literal) = c.addLiteral (parts.foldl (· ++ ·) ByteArray.empty) := by
  have hfold : ∀ (parts : List ByteArray) (a : ByteArray),
      (c.addLiteral a).addAll (parts.map .literal) = c.addLiteral (parts.foldl (· ++ ·) a) := by
    intro parts
    induction parts with
    | nil => exact fun _ => rfl
    | cons part parts ih =>
      intro a
      rw [List.map_cons, addAll_cons, add, addLiteral_addLiteral, ih]
      rfl
  rw [← hfold, addLiteral_empty]

/-- A literal is added byte by byte. -/
theorem addLiteral_eq_addAll (c : Collector) (bytes : ByteArray) : c.addLiteral bytes =
    c.addAll (bytes.data.toList.map fun value => .literal (packBytes [value])) := by
  have hfold : ∀ (values : List UInt8) (front : ByteArray),
      (values.map fun value => packBytes [value]).foldl (· ++ ·) front =
        front ++ packBytes values := by
    intro values
    induction values with
    | nil =>
      intro front
      rw [packBytes_nil, ByteArray.append_empty]
      rfl
    | cons value values ih =>
      intro front
      rw [List.map_cons, List.foldl_cons, ih, ByteArray.append_assoc, ← packBytes_append,
        List.singleton_append]
  have hall := addAll_literals c (bytes.data.toList.map fun value => packBytes [value])
  rw [hfold, ByteArray.empty_append, packBytes_toList, List.map_map] at hall
  exact hall.symm

/-- An instruction is added atom by atom. -/
theorem addAll_atoms (c : Collector) (is : List Instruction) :
    c.addAll is = c.addAll ((atoms is).map Atom.instruction) := by
  induction is generalizing c with
  | nil => rfl
  | cons i is ih =>
    rw [addAll_cons, ih, atoms_cons, List.map_append, addAll_append]
    congr 1
    cases i with
    | copy offset length => rfl
    | literal bytes =>
      rw [add, addLiteral_eq_addAll, Instruction.atoms, List.map_map]
      rfl

/-- A collector does not tell instructions with the same atoms apart. -/
theorem addAll_congr {is is' : List Instruction} (h : atoms is = atoms is') (c : Collector) :
    c.addAll is = c.addAll is' := by
  rw [addAll_atoms, h, ← addAll_atoms]

/-- A collector that was fed holds the instructions of the calls. -/
theorem feed_collector (c : Collector) (steps : List SinkStep) :
    feed c steps = (.ok (), c.addAll (steps.flatMap SinkStep.instructions)) := by
  induction steps generalizing c with
  | nil => rfl
  | cons step steps ih =>
    have hact : step.act c = (.ok (), c.addAll step.instructions) := by
      cases step <;> rfl
    rw [feed_cons, hact, andThen_ok, ih, List.flatMap_cons, addAll_append]

/-- Adding does not close a collector. -/
@[simp] theorem closed_addAll (c : Collector) (is : List Instruction) :
    (c.addAll is).closed = c.closed := by
  induction is generalizing c with
  | nil => rfl
  | cons i is ih =>
    rw [addAll_cons, ih]
    rcases c with ⟨instructions, closed⟩
    cases i with
    | copy offset length => rfl
    | literal bytes =>
      simp only [add, addLiteral]
      split
      · rfl
      · split <;> rfl

/-! ## What is rebuilt -/

section FlatMap

variable {β : Type} {g : Instruction → List β}

theorem flatMap_add (h₀ : g (.literal ByteArray.empty) = [])
    (h : ∀ a b, g (.literal (a ++ b)) = g (.literal a) ++ g (.literal b)) (c : Collector)
    (i : Instruction) :
    (c.add i).instructions.toList.flatMap g = c.instructions.toList.flatMap g ++ g i := by
  rcases c with ⟨instructions, closed⟩
  cases i with
  | copy offset length => simp [add, addCopy]
  | literal bytes =>
    rw [add]
    by_cases hb : bytes.size = 0
    · rw [ByteArray.size_eq_zero_iff.mp hb, addLiteral_empty, h₀, List.append_nil]
    · cases hl : endsInLiteral instructions with
      | true =>
        obtain ⟨front, run, rfl⟩ := exists_of_endsInLiteral hl
        rw [addLiteral_push]
        simp [h]
      | false =>
        rw [addLiteral_of_not hl hb]
        simp

/-- What does not depend on how literals are cut is the same of what is held and of what was
added. -/
theorem flatMap_addAll (h₀ : g (.literal ByteArray.empty) = [])
    (h : ∀ a b, g (.literal (a ++ b)) = g (.literal a) ++ g (.literal b)) (c : Collector)
    (is : List Instruction) :
    (c.addAll is).instructions.toList.flatMap g =
      c.instructions.toList.flatMap g ++ is.flatMap g := by
  induction is generalizing c with
  | nil => simp
  | cons i is ih =>
    rw [addAll_cons, ih, flatMap_add h₀ h, List.flatMap_cons, List.append_assoc]

end FlatMap

/-- What is held rebuilds what was added. -/
theorem origins_addAll (c : Collector) (is : List Instruction) :
    origins (c.addAll is).instructions.toList = origins c.instructions.toList ++ origins is :=
  flatMap_addAll rfl (fun a b => by simp [Instruction.origins]) c is

/-- The atoms are those that were added. -/
theorem atoms_addAll (c : Collector) (is : List Instruction) :
    atoms (c.addAll is).instructions.toList = atoms c.instructions.toList ++ atoms is :=
  flatMap_addAll rfl (fun a b => by simp [Instruction.atoms]) c is

/-- A collector holds as many bytes as were added. -/
theorem outputLength_addAll (c : Collector) (is : List Instruction) :
    BinaryDelta.outputLength (c.addAll is).instructions.toList =
      BinaryDelta.outputLength c.instructions.toList + BinaryDelta.outputLength is := by
  rw [← length_origins, origins_addAll, List.length_append, length_origins, length_origins]

/-- The copies are those that were added. -/
theorem copies_addAll (c : Collector) (is : List Instruction) :
    copies (c.addAll is).instructions.toList = copies c.instructions.toList ++ copies is :=
  flatMap_addAll rfl (fun _ _ => rfl) c is

end Collector

end BinaryDelta
