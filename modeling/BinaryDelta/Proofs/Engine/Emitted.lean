import BinaryDelta.Proofs.BlockTable.Blocks
import BinaryDelta.Proofs.Engine.Snapshot

/-!
# What is emitted where

A statement about single copies and literal bytes names the place in the target that they stand for.
Literals come in runs, and a collector runs them together, so these places are those of atoms. What
holds of every atom that the reference encoder makes, at its place, holds of every atom that an
engine emits.

* `Emits` says that instructions append an atom at a position.
* `Spans` says that atoms reach from one position to another, and that something holds of each.
* `Greedy.Makes` is what is to be shown of the decisions of the reference.
* `Engine.Indexes` holds of engines that come to use the table of a source, whether they scan the
  source for it, have kept it or have loaded it.

Results:
* `Spans.of_emits`: what holds of each atom holds of what is emitted.
* `Greedy.Makes.spans_encodeFrom`: the reference makes atoms up to the end of the target.
* `Engine.UsedOver.indexes`, `Engine.exists_indexes_readChecksums`: which engines come to use the
  table of a source.
* `Engine.compute_ofSource`: a new engine feeds a sink the plan over the table of the source.
* **`Engine.Indexes.spans_compute`**: an engine over that table emits such atoms.
-/

namespace BinaryDelta

/-! ## Places -/

/-- At this position of the target, the instructions append this atom. -/
def Emits (is : List Instruction) (position : Nat) (a : Atom) : Prop :=
  ∃ front back, atoms is = front ++ a :: back ∧ (cells front).length = position

theorem emits_of_mem {is : List Instruction} {offset length : Nat} (h : .copy offset length ∈ is) :
    ∃ position, Emits is position (.copy offset length) := by
  obtain ⟨front, back, heq⟩ := List.append_of_mem (copy_mem_atoms_iff.mpr h)
  exact ⟨_, front, back, heq, rfl⟩

theorem exists_split_of_getElem?_cells {as : List Atom} {k : Nat} {c : Cell}
    (h : (cells as)[k]? = some c) : ∃ front a back, as = front ++ a :: back ∧
      (cells front).length ≤ k ∧ a.cells[k - (cells front).length]? = some c := by
  induction as generalizing k with
  | nil => cases h
  | cons a as ih =>
    rw [cells_cons] at h
    rcases Nat.lt_or_ge k a.cells.length with hk | hk
    · rw [List.getElem?_append_left hk] at h
      exact ⟨[], a, as, rfl, Nat.zero_le _, h⟩
    · rw [List.getElem?_append_right hk] at h
      obtain ⟨front, b, back, rfl, hle, hb⟩ := ih h
      refine ⟨a :: front, b, back, rfl, ?_⟩
      rw [cells_cons, List.length_append]
      refine ⟨by omega, ?_⟩
      rwa [Nat.sub_sub] at hb

/-- Every cell belongs to an atom that is emitted where it begins. -/
theorem exists_emits {is : List Instruction} {position : Nat} {c : Cell}
    (h : (cells (atoms is))[position]? = some c) : ∃ start a, Emits is start a ∧
      start ≤ position ∧ a.cells[position - start]? = some c := by
  obtain ⟨front, a, back, heq, hle, hc⟩ := exists_split_of_getElem?_cells h
  exact ⟨_, a, ⟨front, back, heq, rfl⟩, hle, hc⟩

/-- The byte that a cell stands for. -/
theorem Rebuilds.getElem?_eq {source rebuilt : List UInt8} {is : List Instruction}
    (h : Rebuilds source is rebuilt) {position : Nat} {c : Cell}
    (hc : (cells (atoms is))[position]? = some c) :
    rebuilt[position]? = c.origin.byte? source := by
  rw [Rebuilds, ← map_origin_cells, List.map_map] at h
  have hat := congrArg (·[position]?) h
  simp only [List.getElem?_map, hc, Option.map_some, Function.comp_apply] at hat
  obtain ⟨value, hvalue, heq⟩ := Option.map_eq_some_iff.mp hat.symm
  rw [hvalue, heq]

/-- The atoms reach from `start` to `stop`, and each is as it should be at its place. -/
inductive Spans (P : Nat → Atom → Prop) : (start : Nat) → List Atom → (stop : Nat) → Prop
  | nil (position : Nat) : Spans P position [] position
  | cons {start stop : Nat} {a : Atom} {as : List Atom} : P start a →
      Spans P (start + a.cells.length) as stop → Spans P start (a :: as) stop

namespace Spans

variable {P : Nat → Atom → Prop} {start stop : Nat} {as : List Atom}

theorem apply_at (h : Spans P start as stop) {front back : List Atom} {a : Atom}
    (ha : as = front ++ a :: back) : P (start + (cells front).length) a := by
  induction h generalizing front with
  | nil position => cases front <;> cases ha
  | @cons start stop b as hb _ ih =>
    cases front with
    | nil =>
      obtain ⟨rfl, -⟩ := List.cons.inj ha
      exact hb
    | cons b' front =>
      obtain ⟨rfl, hrest⟩ := List.cons.inj ha
      have hnext := ih hrest
      rwa [Nat.add_assoc, ← List.length_append, ← cells_cons] at hnext

/-- What holds of each atom wherever it is. -/
theorem forall_mem {P : Atom → Prop} (h : Spans (fun _ => P) start as stop) : ∀ a ∈ as, P a := by
  intro a ha
  obtain ⟨front, back, heq⟩ := List.append_of_mem ha
  exact h.apply_at heq

/-- What holds of each atom holds of what is emitted. -/
theorem of_emits {is : List Instruction} (h : Spans P 0 (atoms is) stop) {position : Nat} {a : Atom}
    (ha : Emits is position a) : P position a := by
  obtain ⟨front, back, heq, rfl⟩ := ha
  have hat := h.apply_at heq
  rwa [Nat.zero_add] at hat

/-- The atoms have a cell for each byte in between. -/
theorem length_cells_eq (h : Spans P start as stop) : start + (cells as).length = stop := by
  induction h with
  | nil position => rfl
  | cons _ _ ih => rw [cells_cons, List.length_append, ← Nat.add_assoc, ih]

/-- Bytes one after the other. -/
theorem bytes {values : List UInt8} (h : ∀ {i : Nat} {value : UInt8}, values[i]? = some value →
    P (start + i) (.byte value)) : Spans P start (values.map .byte) (start + values.length) := by
  induction values generalizing start with
  | nil => exact .nil start
  | cons value values ih =>
    have hrest := @ih (start + 1) fun {i} {value'} hi => by
      rw [Nat.add_assoc, Nat.add_comm 1]
      exact h (by rwa [List.getElem?_cons_succ])
    rw [Nat.add_assoc, Nat.add_comm 1] at hrest
    have hfirst : P (start + 0) (.byte value) := h List.getElem?_cons_zero
    exact .cons hfirst hrest

end Spans

/-! ## Decisions -/

namespace Greedy

/-- What holds of a copy wherever the reference chooses one, and of a byte wherever it chooses none
or has less than a block left. -/
structure Makes (c : Search) (source target : List UInt8) (P : Nat → Atom → Prop) : Prop where
  copy : ∀ {position offset : Nat} {continuation : Option Nat},
    position + c.blockSize ≤ target.length →
    choose c source (target.drop position) continuation position = some offset →
    P position (.copy (c.sourceOffset + offset) (lengthAt c source (target.drop position) offset))
  byte : ∀ {position : Nat} {value : UInt8} {continuation : Option Nat},
    position + c.blockSize ≤ target.length →
    choose c source (target.drop position) continuation position = none →
    target[position]? = some value → P position (.byte value)
  rest : ∀ {position : Nat} {value : UInt8}, target.length < position + c.blockSize →
    target[position]? = some value → P position (.byte value)

theorem lengthAt_le_left {c : Search} {left : List UInt8} (h : c.blockSize ≤ left.length)
    (source : List UInt8) (offset : Nat) : lengthAt c source left offset ≤ left.length := by
  unfold lengthAt
  split
  · exact h
  · exact Nat.le_trans (Nat.min_le_right _ _) (commonPrefix_le_right _ _)

variable {c : Search} {source target : List UInt8} {P : Nat → Atom → Prop}

/-- The reference makes atoms up to the end of the target. -/
theorem Makes.spans_encodeFrom (h : Makes c source target P) {position : Nat}
    (hp : position ≤ target.length) (continuation : Option Nat) :
    Spans P position (atoms (encodeFrom c source (target.drop position) continuation position))
      target.length := by
  have hpos : 0 < c.blockSize := c.table.blockSize_pos
  induction hn : target.length - position using Nat.strongRecOn generalizing position continuation
    with
  | _ n ih =>
    subst hn
    have hlen : (target.drop position).length = target.length - position := List.length_drop
    by_cases hl : (target.drop position).length < c.blockSize
    · have hatoms : atoms (encodeFrom c source (target.drop position) continuation position) =
          (target.drop position).map .byte := by
        rw [encodeFrom, if_pos hl]
        split
        · rename_i h₀
          rw [List.eq_nil_of_length_eq_zero h₀]
          rfl
        · rw [atoms_cons, atoms_nil, List.append_nil, Instruction.atoms, data_packBytes,
            List.toList_toArray]
      have hend : position + (target.drop position).length = target.length := by omega
      rw [hatoms, ← hend]
      refine Spans.bytes fun {i value} hi => ?_
      rw [List.getElem?_drop] at hi
      exact h.rest (by omega) hi
    · have hge := Nat.le_of_not_lt hl
      cases hc : choose c source (target.drop position) continuation position with
      | some offset =>
        have hle := lengthAt_le_left hge source offset
        have hmin := le_lengthAt_of_best hc
        rw [encodeFrom_copy hge hc, atoms_cons, List.drop_drop]
        refine .cons (h.copy (by omega) hc) ?_
        rw [Atom.length_cells_copy]
        exact ih _ (by omega) (by omega) _ rfl
      | none =>
        obtain ⟨value, rest, hleft⟩ := List.exists_cons_of_length_pos (Nat.lt_of_lt_of_le hpos hge)
        have hvalue : target[position]? = some value := by
          have hfirst := congrArg (fun left => left[0]?) hleft
          simpa using hfirst
        rw [encodeFrom_byte hge hc, atoms_cons, List.drop_drop]
        have hfirst : Instruction.atoms (.literal (packBytes ((target.drop position).take 1))) =
            [.byte value] := by
          rw [hleft]
          rfl
        have hrest := ih _ (by omega) (by omega : position + 1 ≤ target.length) none rfl
        rw [hfirst]
        exact .cons (h.byte (by omega) hc hvalue) hrest

/-- The reference describes the whole target, whatever it compares. -/
theorem outputLength_encode (c : Search) (source target : List UInt8) :
    outputLength (encode c source target) = target.length := by
  have hmakes : Makes c source target fun _ _ => True :=
    ⟨fun _ _ => trivial, fun _ _ _ => trivial, fun _ _ => trivial⟩
  have hlength := (hmakes.spans_encodeFrom (Nat.zero_le _) none).length_cells_eq
  rwa [Nat.zero_add, length_cells] at hlength

/-- Tables that answer alike lead to the same instructions. -/
theorem encode_eq_of_alike {c' : Search} (h : c.Alike c') (hp : c.options.maxProbes ≠ 0)
    (source target : List UInt8) : encode c' source target = encode c source target := by
  have hp' : c'.options.maxProbes ≠ 0 := by rwa [h.options_eq]
  rw [encode, encode, ← instructions_plan hp source target Option.getD_none none 0,
    ← instructions_plan hp' source target Option.getD_none none 0, h.plan_eq]

end Greedy

/-! ## Engines -/

/-- The search over the table of a source. -/
def Search.ofSource (source : List UInt8) (o : EngineOptions) (h : 0 < o.chunkSize) : Search where
  table := .ofBytes source o.chunkSize o.duplicate h
  options := o

theorem Search.blockSize_ofSource {source : List UInt8} {o : EngineOptions} (h : 0 < o.chunkSize) :
    (ofSource source o h).blockSize = o.chunkSize :=
  BlockTable.blockSize_of_clear (BlockTable.clear_ofBytes source)

theorem Search.enumerates_ofSource {source : List UInt8} {o : EngineOptions} (h : 0 < o.chunkSize) :
    (ofSource source o h).table.Enumerates source (source.length / o.chunkSize) :=
  BlockTable.enumerates_ofBytes source

namespace Engine

/-- Over a source of these bytes, the engine comes to use a table that answers as theirs does. -/
structure Indexes (bytes : List UInt8) (e : Engine) : Prop where
  exists_prepares : ∃ (h : 0 < e.options.chunkSize) (t : BlockTable), Prepares bytes e t ∧
    BlockTable.Alike (.ofBytes bytes e.options.chunkSize e.options.duplicate h) t

variable {bytes source target : List UInt8} {e : Engine}

/-- An engine in use scans the source, or has kept its table. -/
theorem UsedOver.indexes (h : UsedOver bytes e) : Indexes bytes e := by
  obtain ⟨hpos, hprep⟩ := h.current.prepares
  exact ⟨hpos, _, hprep, .refl _⟩

/-- A new engine feeds a sink the plan over the table of the source, flushes it and closes it. -/
theorem compute_ofSource {o : EngineOptions} (ho : o.problem? = none) {σ ρ κ : Type} [Source σ]
    [ByteReader ρ] [InstructionSink κ] {src : σ} {r : ρ} (hs : Source.Holds src source)
    (hr : ByteReader.Delivers r target) : ∃ hpos, ∀ sink : κ,
      let steps := (Search.ofSource source o hpos).plan source target none none 0
      let outcome := ({ options := o } : Engine).compute src r sink
      outcome.result = (complete sink (steps ++ [.flush])).1.map (fun _ =>
          { steps.foldl DeltaStats.count {} with processed := target.length }) ∧
        outcome.sink = (complete sink (steps ++ [.flush])).2 := by
  have hnew : ofOptions o = .ok { options := o } := by rw [ofOptions, ho]
  obtain ⟨H, k, hs⟩ := hs
  obtain ⟨R, d, hr⟩ := hr
  obtain ⟨hpos, hprep⟩ := (UsedOver.new hnew).current.prepares
  obtain ⟨src', hprepare, hs'⟩ := hprep.prepareTable_eq k hs
  refine ⟨hpos, fun sink => ?_⟩
  have hgoes := goesOn_ofBytes ho hpos source target
  exact compute_of_computeSegment (computeSegment_of_goesOn k d hr ho hprepare hs' hgoes sink)

/-- So does an engine that has loaded the table that another one has built. -/
theorem exists_indexes_readChecksums (h : UsedOver bytes e) {t : BlockTable} (ht : e.table = some t)
    (hb : t.built = true) (hl : bytes.length / e.options.chunkSize < 0x100000000) {ρ : Type}
    [ByteReader ρ] {r : ρ} (hr : ByteReader.Delivers r t.stored) {fresh : Engine}
    (ha : fresh.options.autocode = e.options.autocode)
    (hh : fresh.options.acceptHash = e.options.acceptHash)
    (hm : fresh.options.maxProbes = e.options.maxProbes) :
    ∃ loaded r', fresh.readChecksums r = (.ok loaded, r') ∧ loaded.options = e.options ∧
      Indexes bytes loaded := by
  have hcurrent := h.current
  obtain ⟨t', r', hread, halike, hbuilt⟩ := exists_readChecksums hcurrent ht hl hr ha hh hm
  have hfits := hcurrent.fits t ht
  have hprep : Prepares bytes ⟨e.options, some t'⟩ t' :=
    prepares_of_built (hcurrent.keeps t ht) (halike.blockSize_eq.trans hfits.blockSize_eq)
      (halike.isDuplicate_eq.trans hfits.isDuplicate_eq) hbuilt
  refine ⟨_, r', hread, rfl, ?_⟩
  cases hfits with
  | empty _ => cases hb
  | full hpos => exact ⟨hpos, t', hprep, halike⟩

/-- **What the reference makes over the table of the source, an engine emits.** An engine that comes
to use that table collects atoms that reach up to the end of the target, and of each of them holds
what holds of the decisions of the reference. -/
theorem Indexes.spans_compute (hi : e.Indexes source) (he : e.options.problem? = none)
    {σ ρ : Type} [Source σ] [ByteReader ρ] {src : σ} {r : ρ} (hs : Source.Holds src source)
    (hr : ByteReader.Delivers r target) {P : Nat → Atom → Prop}
    (hmakes : ∀ hpos, Greedy.Makes (.ofSource source e.options hpos) source target P) :
    let outcome := e.compute src r ({} : Collector)
    (∃ stats, outcome.result = .ok stats) ∧
      Spans P 0 (atoms outcome.sink.instructions.toList) target.length := by
  obtain ⟨hpos, t, hprep, halike⟩ := hi.exists_prepares
  obtain ⟨H, k, hs⟩ := hs
  obtain ⟨source', hprepare, hs'⟩ := hprep.prepareTable_eq k hs
  have hsame : (Search.ofSource source e.options hpos).Alike { table := t, options := e.options } :=
    ⟨halike, rfl, rfl, rfl⟩
  have hgoes := goesOn_ofBytes he hpos source target
  rw [← Search.ofSource, ← hsame.plan_eq] at hgoes
  obtain ⟨hresult, hsink⟩ := compute_of_goesOn k hr he hprepare hs' hgoes
  refine ⟨hresult, ?_⟩
  have hspans := (hmakes hpos).spans_encodeFrom (Nat.zero_le _) none
  rw [hsink, Collector.atoms_addAll,
    Greedy.encode_eq_of_alike hsame (EngineOptions.problem?_eq_none_iff.mp he).2]
  exact hspans

end Engine

end BinaryDelta
