import BinaryDelta.Bytes
import BinaryDelta.Instruction
import Mathlib.Algebra.GroupWithZero.Nat
import Mathlib.Data.List.Basic
import Mathlib.Tactic.ByContra

/-!
# What instructions rebuild

Each byte of a target has an origin: a place in the source, or the instruction itself. `origins`
lists them for a sequence of instructions, without a source. `Rebuilds source is target` says that
all the places lie in the source and that the bytes found there make up the target.

Results:
* `Rebuilds.unique`, `length_of_rebuilds`: there is at most one target, and its length is known
  without the source.
* `rebuilds_append`, `rebuilds_append_iff`: what follows each other rebuilds what follows each
  other.
* `rebuilds_copy_iff`: an empty copy rebuilds nothing wherever it points to; any other has to lie in
  the source.
* `rebuilds_iff`: the instructions have to stay in range one by one, and then the target is what
  `replay` gives.
-/

namespace BinaryDelta

/-- Where a byte of a target comes from. -/
inductive Origin where
  | source (position : Nat)
  | given (byte : UInt8)
  deriving Repr, DecidableEq

/-- The byte, if there is one. -/
def Origin.byte? (source : List UInt8) : Origin → Option UInt8
  | .source position => source[position]?
  | .given byte => some byte

/-- The origins of the bytes that the instruction appends. -/
def Instruction.origins : Instruction → List Origin
  | copy offset length => (List.range' offset length).map .source
  | literal bytes => bytes.data.toList.map .given

theorem Instruction.length_origins (i : Instruction) : i.origins.length = i.outputLength := by
  cases i with
  | copy offset length => simp [origins, outputLength]
  | literal bytes => simp [origins, outputLength]

/-- The origins of the bytes of a target. -/
def origins (is : List Instruction) : List Origin := is.flatMap Instruction.origins

@[simp] theorem origins_nil : origins [] = [] := rfl

theorem origins_cons (i : Instruction) (is : List Instruction) :
    origins (i :: is) = i.origins ++ origins is := rfl

theorem origins_append (is is' : List Instruction) :
    origins (is ++ is') = origins is ++ origins is' :=
  List.flatMap_append

/-- The length of a target. -/
def outputLength (is : List Instruction) : Nat := (is.map Instruction.outputLength).sum

@[simp] theorem outputLength_nil : outputLength [] = 0 := rfl

@[simp] theorem outputLength_cons (i : Instruction) (is : List Instruction) :
    outputLength (i :: is) = i.outputLength + outputLength is := rfl

@[simp] theorem outputLength_append (is is' : List Instruction) :
    outputLength (is ++ is') = outputLength is + outputLength is' := by
  simp [outputLength]

theorem length_origins (is : List Instruction) : (origins is).length = outputLength is := by
  induction is with
  | nil => rfl
  | cons i is ih => rw [origins_cons, List.length_append, i.length_origins, ih, outputLength_cons]

/-- The copy that an instruction is, as offset and length. -/
def Instruction.copies : Instruction → List (Nat × Nat)
  | copy offset length => [(offset, length)]
  | literal _ => []

/-- The copies among instructions. -/
def copies (is : List Instruction) : List (Nat × Nat) := is.flatMap Instruction.copies

@[simp] theorem copies_nil : copies [] = [] := rfl

@[simp] theorem copies_append (is is' : List Instruction) :
    copies (is ++ is') = copies is ++ copies is' :=
  List.flatMap_append

theorem mem_copies_iff {is : List Instruction} {copy : Nat × Nat} :
    copy ∈ copies is ↔ .copy copy.1 copy.2 ∈ is := by
  constructor
  · intro h
    obtain ⟨i, hi, hcopy⟩ := List.mem_flatMap.mp h
    cases i with
    | copy offset length =>
      obtain rfl := List.mem_singleton.mp hcopy
      exact hi
    | literal bytes => cases hcopy
  · intro h
    exact List.mem_flatMap.mpr ⟨_, h, List.mem_singleton_self _⟩

/-! ## Targets -/

/-- The instructions rebuild this target over this source. -/
def Rebuilds (source : List UInt8) (is : List Instruction) (target : List UInt8) : Prop :=
  (origins is).map (Origin.byte? source) = target.map some

instance (source : List UInt8) (is : List Instruction) (target : List UInt8) :
    Decidable (Rebuilds source is target) :=
  inferInstanceAs (Decidable (_ = _))

variable {source target target' : List UInt8} {is is' : List Instruction}

/-- There is at most one target. -/
theorem Rebuilds.unique (h : Rebuilds source is target) (h' : Rebuilds source is target') :
    target = target' :=
  List.map_injective_iff.mpr (fun _ _ => Option.some.inj) (h.symm.trans h')

theorem length_of_rebuilds (h : Rebuilds source is target) : target.length = outputLength is := by
  rw [← length_origins, ← List.length_map (f := some), ← h, List.length_map]

@[simp] theorem rebuilds_nil : Rebuilds source [] [] := rfl

theorem rebuilds_append (h : Rebuilds source is target) (h' : Rebuilds source is' target') :
    Rebuilds source (is ++ is') (target ++ target') := by
  rw [Rebuilds, origins_append, List.map_append, List.map_append, h, h']

theorem rebuilds_append_iff : Rebuilds source (is ++ is') target ↔
    ∃ front back, target = front ++ back ∧ Rebuilds source is front ∧ Rebuilds source is' back := by
  constructor
  · intro h
    rw [Rebuilds, origins_append, List.map_append] at h
    obtain ⟨front, back, rfl, h₁, h₂⟩ := List.append_eq_map_iff.mp h
    exact ⟨front, back, rfl, h₁.symm, h₂.symm⟩
  · rintro ⟨front, back, rfl, h₁, h₂⟩
    exact rebuilds_append h₁ h₂

theorem rebuilds_literal (bytes : ByteArray) :
    Rebuilds source [.literal bytes] bytes.data.toList := by
  rw [Rebuilds, origins_cons, origins_nil, List.append_nil, Instruction.origins, List.map_map]
  rfl

theorem rebuilds_literal_iff {bytes : ByteArray} :
    Rebuilds source [.literal bytes] target ↔ target = bytes.data.toList :=
  ⟨fun h => h.unique (rebuilds_literal bytes), fun h => h ▸ rebuilds_literal bytes⟩

/-- Places behind each other hold a part of the source, if they lie in it. -/
theorem map_byte?_range' {offset length : Nat} (h : offset + length ≤ source.length) :
    ((List.range' offset length).map Origin.source).map (Origin.byte? source) =
      ((source.drop offset).take length).map some := by
  apply List.ext_getElem
  · simp
    omega
  · intro i h₁ h₂
    have hi : i < length := by simpa using h₁
    simp only [List.getElem_map, List.getElem_range', Nat.one_mul, Origin.byte?, List.getElem_take,
      List.getElem_drop]
    exact List.getElem?_eq_getElem (by omega)

theorem rebuilds_copy {offset length : Nat} (h : offset + length ≤ source.length) :
    Rebuilds source [.copy offset length] ((source.drop offset).take length) := by
  rw [Rebuilds, origins_cons, origins_nil, List.append_nil]
  exact map_byte?_range' h

theorem rebuilds_copy_iff {offset length : Nat} : Rebuilds source [.copy offset length] target ↔
    (length = 0 ∨ offset + length ≤ source.length) ∧ target = (source.drop offset).take length := by
  constructor
  · intro h
    have hin : length = 0 ∨ offset + length ≤ source.length := by
      by_contra hn
      obtain ⟨h₀, hlt⟩ := not_or.mp hn
      have hlen : target.length = length := length_of_rebuilds h
      have hlast := congrArg (·[length - 1]?) h
      simp only [origins_cons, origins_nil, List.append_nil, Instruction.origins,
        List.getElem?_map] at hlast
      rw [List.getElem?_range' (by omega), List.getElem?_eq_getElem (by omega)] at hlast
      simp only [Option.map_some, Origin.byte?, Option.some.injEq] at hlast
      rw [List.getElem?_eq_none (by omega)] at hlast
      cases hlast
    refine ⟨hin, ?_⟩
    rcases hin with rfl | hle
    · rw [List.take_zero]
      exact List.eq_nil_of_length_eq_zero (length_of_rebuilds h)
    · exact h.unique (rebuilds_copy hle)
  · rintro ⟨rfl | hle, rfl⟩
    · rw [List.take_zero]
      rfl
    · exact rebuilds_copy hle

/-- What instructions rebuild depends on their origins alone. -/
theorem rebuilds_congr (ho : origins is = origins is') :
    Rebuilds source is target ↔ Rebuilds source is' target := by
  rw [Rebuilds, Rebuilds, ho]

/-! ## Instruction by instruction -/

/-- Does the instruction stay within a source of this length? -/
def Instruction.InRange (size : Nat) : Instruction → Prop
  | copy offset length => length = 0 ∨ offset + length ≤ size
  | literal _ => True

instance (size : Nat) : (i : Instruction) → Decidable (i.InRange size)
  | .copy _ _ => inferInstanceAs (Decidable (_ ∨ _))
  | .literal _ => inferInstanceAs (Decidable True)

/-- The bytes that the instruction appends. -/
def Instruction.bytesOver (source : List UInt8) : Instruction → List UInt8
  | copy offset length => (source.drop offset).take length
  | literal bytes => bytes.data.toList

/-- The bytes that instructions append one after the other. -/
def replay (source : List UInt8) (is : List Instruction) : List UInt8 :=
  is.flatMap (Instruction.bytesOver source)

theorem rebuilds_singleton_iff {i : Instruction} :
    Rebuilds source [i] target ↔ i.InRange source.length ∧ target = i.bytesOver source := by
  cases i with
  | copy offset length => exact rebuilds_copy_iff
  | literal bytes => exact rebuilds_literal_iff.trans (and_iff_right trivial).symm

/-- Instructions rebuild a target if they all stay in range, and then it is what they append. -/
theorem rebuilds_iff : Rebuilds source is target ↔
    (∀ i ∈ is, i.InRange source.length) ∧ target = replay source is := by
  induction is generalizing target with
  | nil =>
    constructor
    · intro h
      exact ⟨nofun, h.unique rebuilds_nil⟩
    · rintro ⟨-, rfl⟩
      exact rebuilds_nil
  | cons i is ih =>
    rw [← List.singleton_append, rebuilds_append_iff]
    simp only [rebuilds_singleton_iff, ih, List.singleton_append, List.forall_mem_cons, replay,
      List.flatMap_cons]
    constructor
    · rintro ⟨front, back, rfl, ⟨hi, rfl⟩, his, rfl⟩
      exact ⟨⟨hi, his⟩, rfl⟩
    · rintro ⟨⟨hi, his⟩, rfl⟩
      exact ⟨_, _, rfl, ⟨hi, rfl⟩, his, rfl⟩

end BinaryDelta
