import BinaryDelta.Proofs.BlockTable.Stored
import BinaryDelta.Proofs.Engine.Greedy

/-!
# What the table decides

An engine asks its table for the candidates of a hash and whether a block is recorded, and for
nothing else. Tables that answer alike thus lead to the same plan, and a table without candidates to
one without copies.

Results:
* `Search.Alike.plan_eq`: what is planned depends on the answers of the table alone.
* `Greedy.copies_encodeFrom_of_empty`: over an empty table there are no copies.
* `Greedy.exists_copies_ofBytes`: over the table of at least a block there is a target with a copy.
-/

namespace BinaryDelta

namespace Search

section Congr

variable {c c' : Search}

/-- The same options and offsets, and tables that answer alike. -/
structure Alike (c c' : Search) : Prop where
  table : c.table.Alike c'.table
  options_eq : c'.options = c.options
  sourceOffset_eq : c'.sourceOffset = c.sourceOffset
  targetOffset_eq : c'.targetOffset = c.targetOffset

theorem Alike.probes_eq (h : c.Alike c') : c'.probes = c.probes := by
  funext hash continuation position
  have hpermits : c'.permits position = c.permits position := by
    funext offset
    rw [permits, permits, h.options_eq, h.sourceOffset_eq, h.targetOffset_eq]
  have hreliable : c'.reliable hash continuation = c.reliable hash continuation := by
    rw [reliable, reliable, h.options_eq, funext (h.table.contains_eq hash)]
  rw [probes, probes, hpermits, hreliable, h.options_eq, h.table.candidates_eq]

theorem Alike.hashOf_eq (h : c.Alike c') : c'.hashOf = c.hashOf := by
  funext left
  rw [hashOf, hashOf, h.table.hash_eq, blockSize, blockSize, h.table.blockSize_eq]

theorem Alike.rolledAt_eq (h : c.Alike c') : c'.rolledAt = c.rolledAt := by
  funext left hash
  rw [rolledAt, rolledAt, h.table.roll_eq, blockSize, blockSize, h.table.blockSize_eq]

theorem Alike.lengthAt_eq (h : c.Alike c') : Greedy.lengthAt c' = Greedy.lengthAt c := by
  funext source left offset
  rw [Greedy.lengthAt, Greedy.lengthAt, h.options_eq, blockSize, blockSize, h.table.blockSize_eq]

theorem Alike.best_eq (h : c.Alike c') : Greedy.best c' = Greedy.best c := by
  funext source left offsets
  rw [Greedy.best, Greedy.best, h.lengthAt_eq, blockSize, blockSize, h.table.blockSize_eq]

end Congr

section Best

variable {c : Search} {source left : List UInt8} {hash : Option WindowHash}
  {continuation : Option Nat} {position : Nat}

/-- The plan goes on with a copy from the best offset. -/
theorem plan_of_best_some (h : c.blockSize ≤ left.length) {offset : Nat}
    (hbest : Greedy.best c source left
      (c.probes (hash.getD (c.hashOf left)) continuation position) = some offset) :
    c.plan source left hash continuation position =
      .copy (c.sourceOffset + offset) (Greedy.lengthAt c source left offset) ::
        c.plan source (left.drop (Greedy.lengthAt c source left offset)) none
          (some (offset + Greedy.lengthAt c source left offset))
          (position + Greedy.lengthAt c source left offset) := by
  obtain ⟨hfits, hoffset⟩ := Greedy.bestOf_eq_best (c := c) source left
    (c.probes (hash.getD (c.hashOf left)) continuation position)
  rw [hbest] at hoffset
  obtain ⟨found, hfound, rfl⟩ := Option.map_eq_some_iff.mp hoffset
  have hlength : found.length = Greedy.lengthAt c source left found.offset := hfits found hfound
  rw [plan_copy h hfound, hlength]

/-- The plan goes on with a byte where there is no best offset. -/
theorem plan_of_best_none (h : c.blockSize ≤ left.length)
    (hbest : Greedy.best c source left
      (c.probes (hash.getD (c.hashOf left)) continuation position) = none) :
    c.plan source left hash continuation position =
      .byte (left.getD 0 0) ::
        c.plan source (left.drop 1) (c.rolledAt left (hash.getD (c.hashOf left))) none
          (position + 1) := by
  obtain ⟨-, hoffset⟩ := Greedy.bestOf_eq_best (c := c) source left
    (c.probes (hash.getD (c.hashOf left)) continuation position)
  rw [hbest] at hoffset
  exact plan_byte h (Option.map_eq_none_iff.mp hoffset)

end Best

/-- What is planned depends on the answers of the table alone. -/
theorem Alike.plan_eq {c c' : Search} (h : c.Alike c') (source left : List UInt8)
    (hash : Option WindowHash) (continuation : Option Nat) (position : Nat) :
    c'.plan source left hash continuation position =
      c.plan source left hash continuation position := by
  have hsize : c'.blockSize = c.blockSize := h.table.blockSize_eq
  induction hn : left.length using Nat.strongRecOn
    generalizing left hash continuation position with
  | _ n ih =>
    subst hn
    by_cases hl : left.length < c.blockSize
    · rw [plan_rest hl, plan_rest (hsize ▸ hl)]
    · have hge := Nat.le_of_not_lt hl
      have hpos : 0 < c.blockSize := c.table.blockSize_pos
      have hsame : Greedy.best c' source left
            (c'.probes (hash.getD (c'.hashOf left)) continuation position) =
          Greedy.best c source left
            (c.probes (hash.getD (c.hashOf left)) continuation position) := by
        rw [h.best_eq, h.probes_eq, h.hashOf_eq]
      cases hbest : Greedy.best c source left
          (c.probes (hash.getD (c.hashOf left)) continuation position) with
      | some offset =>
        have hle := Greedy.le_lengthAt_of_best hbest
        rw [plan_of_best_some hge hbest, plan_of_best_some (hsize ▸ hge) (hsame.trans hbest),
          h.sourceOffset_eq, h.lengthAt_eq, ih _ (by rw [List.length_drop]; omega) _ none _ _ rfl]
      | none =>
        rw [plan_of_best_none hge hbest, plan_of_best_none (hsize ▸ hge) (hsame.trans hbest),
          h.rolledAt_eq, h.hashOf_eq, ih _ (by rw [List.length_drop]; omega) _ _ _ _ rfl]

end Search

/-! ## Copies -/

namespace Greedy

variable {c : Search}

/-- Without candidates there is nothing to choose from, unless a copy goes on. -/
theorem choose_of_empty (hc : ∀ hash, c.table.candidates hash = #[]) (source left : List UInt8)
    (position : Nat) : choose c source left none position = none := by
  have hnone : ∀ hash, considered c hash none position = [] := by
    intro hash
    simp [considered, kept, hc]
  rw [choose, hnone]
  rfl

/-- Without candidates there are no copies. -/
theorem copies_encodeFrom_of_empty (hc : ∀ hash, c.table.candidates hash = #[])
    (source left : List UInt8) (position : Nat) :
    copies (encodeFrom c source left none position) = [] := by
  induction hn : left.length using Nat.strongRecOn generalizing left position with
  | _ n ih =>
    subst hn
    have hpos : 0 < c.blockSize := c.table.blockSize_pos
    by_cases hl : left.length < c.blockSize
    · rw [encodeFrom, if_pos hl]
      split
      · rfl
      · rfl
    · rw [encodeFrom_byte (Nat.le_of_not_lt hl) (choose_of_empty hc source left position)]
      exact ih _ (by rw [List.length_drop]; omega) _ _ rfl

/-- The first candidate is considered, where a copy from it is admissible. -/
theorem mem_considered {hash : WindowHash} {offset : Nat} {others : List Nat} {position : Nat}
    (hp : c.options.maxProbes ≠ 0) (hc : (c.table.candidates hash).toList = offset :: others)
    (ha : admissible c position offset = true) : offset ∈ considered c hash none position := by
  obtain ⟨budget, hbudget⟩ := Nat.exists_eq_succ_of_ne_zero hp
  rw [considered, hc, hbudget]
  simp only [kept, Option.filter_none, Option.toList_none, List.filter_nil, List.nil_append]
  rw [List.filter_cons_of_pos rfl, List.takeWhile_cons_of_pos ha, List.take_succ_cons]
  exact List.mem_cons_self

/-- Something is chosen, if something that matches is considered. -/
theorem choose_ne_none {source left : List UInt8} {continuation : Option Nat} {position : Nat}
    {offset : Nat}
    (hm : offset ∈ considered c (c.table.hash (packBytes (left.take c.blockSize))) continuation
      position) (hl : c.blockSize ≤ lengthAt c source left offset) :
    choose c source left continuation position ≠ none := by
  intro hnone
  rw [choose, best, List.argmax_eq_none] at hnone
  have hmem := List.filter_eq_nil_iff.mp hnone offset hm
  exact hmem (decide_eq_true hl)

/-- The first block of the source is described by a copy, wherever a copy from the front of the
source is admissible. -/
theorem choose_first_block {bytes : List UInt8} (hp : c.options.maxProbes ≠ 0)
    (hb : c.blockSize ≤ longestMatch) (hl : c.blockSize ≤ bytes.length) {others : List Nat}
    (hc : (c.table.candidates (c.table.hash (packBytes (bytes.take c.blockSize)))).toList =
      0 :: others) {position : Nat} (ha : admissible c position 0 = true) :
    choose c bytes (bytes.take c.blockSize) none position ≠ none := by
  have hblock : (bytes.take c.blockSize).take c.blockSize = bytes.take c.blockSize := by
    rw [List.take_take, Nat.min_self]
  have hlength : c.blockSize ≤ lengthAt c bytes (bytes.take c.blockSize) 0 := by
    unfold lengthAt
    split
    · exact Nat.le_refl _
    · rw [List.drop_zero, commonPrefix_take hl]
      exact Nat.le_min.mpr ⟨hb, Nat.le_refl _⟩
  refine choose_ne_none ?_ hlength
  rw [hblock]
  exact mem_considered hp hc ha

/-- With a block that is described by a copy behind its first byte, a target is not described
without copies. -/
theorem copies_encodeFrom_ne_nil {source block : List UInt8} (byte : UInt8)
    (hl : c.blockSize ≤ block.length) {position : Nat}
    (hc : choose c source block none (position + 1) ≠ none) :
    copies (encodeFrom c source (byte :: block) none position) ≠ [] := by
  have hge : c.blockSize ≤ (byte :: block).length := Nat.le_succ_of_le hl
  cases hfirst : choose c source (byte :: block) none position with
  | some offset =>
    rw [encodeFrom_copy hge hfirst]
    exact List.cons_ne_nil _ _
  | none =>
    obtain ⟨offset, hsecond⟩ := Option.ne_none_iff_exists'.mp hc
    rw [encodeFrom_byte hge hfirst, List.drop_one, List.tail_cons, encodeFrom_copy hl hsecond]
    exact List.cons_ne_nil _ _

/-- Over the table of at least a block, there is a target that is not described without copies. -/
theorem exists_copies_ofBytes {bytes : List UInt8} {options : EngineOptions}
    (ho : options.problem? = none) (h : 0 < options.chunkSize)
    (hl : options.chunkSize ≤ bytes.length) :
    ∃ target, copies (encode
      { table := .ofBytes bytes options.chunkSize options.duplicate h, options } bytes target) ≠
        [] := by
  let c : Search := { table := .ofBytes bytes options.chunkSize options.duplicate h, options }
  have hsize : c.blockSize = options.chunkSize :=
    BlockTable.blockSize_of_clear (BlockTable.clear_ofBytes bytes)
  have hrecorded : c.table.Recorded _ _ := BlockTable.recorded_ofBytes bytes
  have hlists : c.table.Lists (c.table.hash (packBytes (bytes.take c.blockSize))) 0 := by
    rw [hsize]
    exact BlockTable.lists_ofBytes hl
  obtain ⟨others, hcandidates⟩ := hrecorded.candidates_eq_zero_cons hlists
  have hadmissible : admissible c 1 0 = true := by
    simp [admissible, c]
  have hchoose := choose_first_block (c := c) (EngineOptions.problem?_eq_none_iff.mp ho).2
    (hsize ▸ EngineOptions.chunkSize_le ho) (hsize ▸ hl) hcandidates hadmissible
  refine ⟨0 :: bytes.take c.blockSize, copies_encodeFrom_ne_nil 0 ?_ hchoose⟩
  rw [List.length_take, hsize]
  omega

end Greedy

end BinaryDelta
