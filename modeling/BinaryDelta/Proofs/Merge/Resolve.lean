import BinaryDelta.Merge.Resolve
import BinaryDelta.Proofs.Patch.Accept
import BinaryDelta.Proofs.Sink.Writing
import BinaryDelta.Proofs.Source.Holding

/-!
# What resolving a range hands on

Resolving starts in front of any record of a patch and reads on until the range is passed. What a
sink gets are the instructions from that record on, each trimmed to the range; those that lie
outside it altogether vanish. Whatever the record it starts at, the bytes have the origins of the
range.

Where a range begins within a copy, the copy is trimmed: its offset grows by what is cut off in
front. The offset of a copy is a 64-bit number, but the sum need not be one, since nothing keeps a
copy from reaching behind the last 64-bit position. Then the range is given up.

* `Instruction.part` is the part of an instruction, as calls, and `rangeSteps` the calls for a
  range.
* `BeginsBeyond` says of a range that it begins with a byte copied from behind the 64-bit range;
  no range does so if the copies are `Addressable`.
* `handOn` makes the calls of which the offsets are 64-bit numbers, up to the first other one.

Results:
* `rangeSteps_append`: it does not matter how far in front of the range the instructions begin.
* `cells_rangeSteps`: the cells of a range are cut out of those of the whole.
* `origins_rangeSteps`: the origins of a range are a slice of the origins of the whole.
* `short_rangeSteps`, `solid_rangeSteps`: no call for a range is an empty copy, a flush or more than
  a record can hold.
* `addressed_rangeSteps`, `handOn_of_beginsBeyond`: a range that begins beyond is given up at its
  first call, and no other one is.
* `PatchIndex.resolveFrom_eq`: reading on from a record hands on these calls.
-/

namespace BinaryDelta

/-! ## Trimming -/

/-- The calls for `count` bytes of what an instruction appends, `skip` bytes in. -/
def Instruction.part (skip count : Nat) : Instruction → List SinkStep
  | copy offset _ => if count = 0 then [] else [.copy (offset + skip) count]
  | literal bytes => (pieces ((bytes.data.toList.drop skip).take count)).map .literal

/-- The calls for the bytes from `first` to `stop`, by instructions that begin at `position`. -/
def rangeSteps (position first stop : Nat) : List Instruction → List SinkStep
  | [] => []
  | i :: is =>
    if stop ≤ position then []
    else
      i.part (first - position) (min i.outputLength (stop - position) - (first - position)) ++
        rangeSteps (position + i.outputLength) first stop is

theorem rangeSteps_of_le {position stop : Nat} (h : stop ≤ position) (first : Nat)
    (is : List Instruction) : rangeSteps position first stop is = [] := by
  cases is with
  | nil => rfl
  | cons i is => exact if_pos h

theorem rangeSteps_cons {position stop : Nat} (h : ¬ stop ≤ position) (first : Nat)
    (i : Instruction) (is : List Instruction) : rangeSteps position first stop (i :: is) =
      i.part (first - position) (min i.outputLength (stop - position) - (first - position)) ++
        rangeSteps (position + i.outputLength) first stop is :=
  if_neg h

@[simp] theorem Instruction.part_zero (i : Instruction) (skip : Nat) : i.part skip 0 = [] := by
  cases i with
  | copy offset length => rw [part, if_pos rfl]
  | literal bytes => rw [part, List.take_zero, pieces_nil, List.map_nil]

/-- Instructions in front of the range vanish. -/
theorem rangeSteps_append {position first : Nat} {front : List Instruction}
    (h : position + outputLength front ≤ first) (stop : Nat) (is : List Instruction) :
    rangeSteps position first stop (front ++ is) =
      rangeSteps (position + outputLength front) first stop is := by
  induction front generalizing position with
  | nil => rfl
  | cons i front ih =>
    rw [outputLength_cons, ← Nat.add_assoc] at h ⊢
    by_cases hdone : stop ≤ position
    · rw [rangeSteps_of_le hdone, rangeSteps_of_le (by omega)]
    · have hnone : min i.outputLength (stop - position) - (first - position) = 0 := by omega
      rw [List.cons_append, rangeSteps_cons hdone, hnone, Instruction.part_zero, List.nil_append,
        ih h]

/-- There are no calls for an empty range. -/
theorem rangeSteps_empty (position first : Nat) (is : List Instruction) :
    rangeSteps position first first is = [] := by
  induction is generalizing position with
  | nil => rfl
  | cons i is ih =>
    by_cases hdone : first ≤ position
    · exact rangeSteps_of_le hdone first _
    · have hnone : min i.outputLength (first - position) - (first - position) = 0 := by omega
      rw [rangeSteps_cons hdone, hnone, Instruction.part_zero, List.nil_append, ih]

theorem cells_part (i : Instruction) {skip count : Nat} (h : count ≤ i.outputLength - skip) :
    cells ((i.part skip count).flatMap SinkStep.atoms) =
      fresh (((cells i.atoms).drop skip).take count) := by
  cases i with
  | copy offset length =>
    by_cases h₀ : count = 0
    · subst h₀
      rw [Instruction.part_zero, List.take_zero]
      rfl
    · have hle : count ≤ length - skip := h
      rw [Instruction.part, if_neg h₀, Instruction.atoms, cells_cons, cells_nil, List.append_nil,
        fresh_slice_copy (by omega)]
      exact List.append_nil _
  | literal bytes =>
    have hfresh := fresh_cells (((bytes.data.toList.drop skip).take count).map .byte)
    rw [Instruction.part, atoms_pieces, Instruction.atoms]
    rw [cells_bytes] at hfresh ⊢
    rw [cells_bytes, ← List.map_drop, ← List.map_take, hfresh]

/-- The cells of a range are cut out of those of the whole. -/
theorem cells_rangeSteps (position first stop : Nat) {is : List Instruction}
    (h : stop ≤ position + outputLength is) :
    cells ((rangeSteps position first stop is).flatMap SinkStep.atoms) =
      fresh (((cells (atoms is)).drop (first - position)).take (stop - max first position)) := by
  induction is generalizing position with
  | nil =>
    rw [atoms_nil, cells_nil, List.drop_nil, List.take_nil]
    rfl
  | cons i is ih =>
    by_cases hdone : stop ≤ position
    · rw [rangeSteps_of_le hdone, Nat.sub_eq_zero_of_le (by omega), List.take_zero]
      rfl
    · rw [outputLength_cons] at h
      have hlen : (cells i.atoms).length = i.outputLength := by
        have := length_cells [i]
        rwa [atoms_cons, atoms_nil, List.append_nil] at this
      have hcount : ((cells i.atoms).drop (first - position)).take
          (min i.outputLength (stop - position) - (first - position)) =
          ((cells i.atoms).drop (first - position)).take (stop - max first position) := by
        -- the range may end behind the instruction
        rw [List.take_eq_take_iff, List.length_drop, hlen]
        omega
      have hskip : first - position - i.outputLength = first - (position + i.outputLength) := by
        omega
      have hrest : stop - max first position - (i.outputLength - (first - position)) =
          stop - max first (position + i.outputLength) := by
        omega
      rw [rangeSteps_cons hdone, List.flatMap_append, cells_append, cells_part i (by omega), hcount,
        ih _ (by omega), atoms_cons, cells_append, List.drop_append, List.take_append,
        List.length_drop, hlen, hskip, hrest]
      by_cases hnone : ((cells i.atoms).drop (first - position)).take
          (stop - max first position) = []
      · rw [hnone]
        rfl
      · -- a range that begins in the instruction takes the next one from its start
        have hlt : first - position < i.outputLength := by
          by_contra hge
          rw [List.drop_eq_nil_of_le (by rw [hlen]; omega), List.take_nil] at hnone
          exact hnone rfl
        have hstart : first - (position + i.outputLength) = 0 := by omega
        rw [fresh_append hnone, hstart, List.drop_zero, fresh_take (cells (atoms is)),
          fresh_cells]

/-- The origins of a range are a slice of the origins of the whole. -/
theorem origins_rangeSteps (position first stop : Nat) {is : List Instruction}
    (h : stop ≤ position + outputLength is) :
    origins ((rangeSteps position first stop is).flatMap SinkStep.instructions) =
      ((origins is).drop (first - position)).take (stop - max first position) := by
  rw [SinkStep.origins_flatMap_instructions, cells_rangeSteps position first stop h,
    map_origin_fresh, List.map_take, List.map_drop, map_origin_cells]

theorem short_literals (parts : List ByteArray) :
    ∀ step ∈ parts.map SinkStep.literal, step.Short :=
  List.forall_mem_map.mpr fun _ _ => trivial

theorem short_part {i : Instruction} (hi : i.outputLength < 0x100000000) {skip count : Nat}
    (h : count ≤ i.outputLength) : ∀ step ∈ i.part skip count, step.Short := by
  cases i with
  | copy offset length =>
    intro step hstep
    rw [Instruction.part] at hstep
    split at hstep
    · cases hstep
    · obtain rfl := List.mem_singleton.mp hstep
      exact ⟨by omega, by omega⟩
  | literal bytes => exact short_literals _

theorem short_rangeSteps {is : List Instruction} (hi : ∀ i ∈ is, i.outputLength < 0x100000000)
    (position first stop : Nat) : ∀ step ∈ rangeSteps position first stop is, step.Short := by
  induction is generalizing position with
  | nil => exact nofun
  | cons i is ih =>
    obtain ⟨hi, his⟩ := List.forall_mem_cons.mp hi
    by_cases hdone : stop ≤ position
    · rw [rangeSteps_of_le hdone]
      exact nofun
    · rw [rangeSteps_cons hdone]
      intro step hstep
      rcases List.mem_append.mp hstep with hstep | hstep
      · exact short_part hi (by omega) step hstep
      · exact ih his _ step hstep

/-- Calls for a range part nothing: none is a flush or an empty copy. -/
theorem solid_part (i : Instruction) (skip count : Nat) :
    ∀ a ∈ (i.part skip count).flatMap SinkStep.atoms, a.isSolid := by
  intro a ha
  cases i with
  | copy offset length =>
    rw [Instruction.part] at ha
    split at ha
    · cases ha
    · rename_i h₀
      obtain rfl := List.mem_singleton.mp ha
      exact bne_iff_ne.mpr h₀
  | literal bytes =>
    rw [Instruction.part, atoms_pieces] at ha
    exact isSolid_bytes _ a ha

theorem solid_rangeSteps (position first stop : Nat) (is : List Instruction) :
    ∀ a ∈ (rangeSteps position first stop is).flatMap SinkStep.atoms, a.isSolid := by
  induction is generalizing position with
  | nil => exact nofun
  | cons i is ih =>
    by_cases hdone : stop ≤ position
    · rw [rangeSteps_of_le hdone]
      exact nofun
    · rw [rangeSteps_cons hdone, List.flatMap_append]
      exact List.forall_mem_append.mpr ⟨solid_part i _ _, ih _⟩

/-! ## Offsets in the 64-bit range -/

/-- The range begins with a byte that is copied from behind the 64-bit range. -/
def BeginsBeyond (is : List Instruction) (offset length : Nat) : Prop :=
  0 < length ∧ ∃ place, (origins is)[offset]? = some (.source place) ∧ 0x10000000000000000 ≤ place

/-- Instructions in front of the range do not matter. -/
theorem beginsBeyond_append {front : List Instruction} {offset : Nat}
    (h : outputLength front ≤ offset) (is : List Instruction) (length : Nat) :
    BeginsBeyond (front ++ is) offset length ↔
      BeginsBeyond is (offset - outputLength front) length := by
  rw [BeginsBeyond, BeginsBeyond, origins_append,
    List.getElem?_append_right (by rw [length_origins]; exact h), length_origins]

theorem beginsBeyond_cons {i : Instruction} {offset : Nat} (h : i.outputLength ≤ offset)
    (is : List Instruction) (length : Nat) :
    BeginsBeyond (i :: is) offset length ↔ BeginsBeyond is (offset - i.outputLength) length := by
  have hi : outputLength [i] ≤ offset := h
  exact beginsBeyond_append hi is length

/-- The bytes of a copy come from one position after the other. -/
theorem Instruction.getElem?_origins_copy {offset length index : Nat} (h : index < length) :
    (copy offset length).origins[index]? = some (.source (offset + index)) := by
  rw [origins, List.getElem?_map, List.getElem?_range' h, Option.map_some, Nat.one_mul]

/-- No copy takes a byte from behind the 64-bit range. -/
def Addressable (is : List Instruction) : Prop :=
  ∀ copy ∈ copies is, copy.1 + copy.2 ≤ 0x10000000000000000

instance (is : List Instruction) : Decidable (Addressable is) :=
  inferInstanceAs (Decidable (∀ _ ∈ _, _))

/-- Where bytes of an addressable patch are copied from. -/
theorem Addressable.lt_of_mem {is : List Instruction} (h : Addressable is) {place : Nat}
    (hm : .source place ∈ origins is) : place < 0x10000000000000000 := by
  obtain ⟨i, hi, hm⟩ := List.mem_flatMap.mp hm
  cases i with
  | copy offset length =>
    have hle := h (offset, length) (mem_copies_iff.mpr hi)
    obtain ⟨position, hposition, heq⟩ := List.mem_map.mp hm
    cases heq
    have hlt := (List.mem_range'_1.mp hposition).2
    dsimp only at hle
    omega
  | literal bytes =>
    obtain ⟨value, -, heq⟩ := List.mem_map.mp hm
    cases heq

theorem Addressable.not_beginsBeyond {is : List Instruction} (h : Addressable is)
    (offset length : Nat) : ¬ BeginsBeyond is offset length := by
  rintro ⟨-, place, hplace, hle⟩
  exact Nat.not_lt.mpr hle (h.lt_of_mem (List.mem_of_getElem? hplace))

/-- Is the call no copy from an offset behind the 64-bit range? -/
def SinkStep.Addressed : SinkStep → Prop
  | copy offset _ => offset < 0x10000000000000000
  | _ => True

instance : DecidablePred SinkStep.Addressed
  | .copy offset _ => inferInstanceAs (Decidable (offset < 0x10000000000000000))
  | .byte _ => inferInstanceAs (Decidable True)
  | .literal _ => inferInstanceAs (Decidable True)
  | .flush => inferInstanceAs (Decidable True)

theorem addressed_literals (parts : List ByteArray) :
    ∀ step ∈ parts.map SinkStep.literal, step.Addressed :=
  List.forall_mem_map.mpr fun _ _ => trivial

theorem addressed_part_copy {offset length skip count : Nat}
    (h : count ≠ 0 → offset + skip < 0x10000000000000000) :
    ∀ step ∈ (Instruction.copy offset length).part skip count, step.Addressed := by
  intro step hstep
  rw [Instruction.part] at hstep
  split at hstep
  · cases hstep
  · obtain rfl := List.mem_singleton.mp hstep
    exact h ‹_›

/-- A range that does not begin beyond has no call from there: every copy but the first begins where
its instruction does. -/
theorem addressed_rangeSteps {position first stop : Nat} {is : List Instruction}
    (hc : ∀ copy ∈ copies is, copy.1 < 0x10000000000000000)
    (h : position ≤ first → ¬ BeginsBeyond is (first - position) (stop - first)) :
    ∀ step ∈ rangeSteps position first stop is, step.Addressed := by
  induction is generalizing position with
  | nil => exact nofun
  | cons i is ih =>
    by_cases hdone : stop ≤ position
    · rw [rangeSteps_of_le hdone]
      exact nofun
    · rw [← List.singleton_append, copies_append] at hc
      obtain ⟨hi, his⟩ := List.forall_mem_append.mp hc
      rw [rangeSteps_cons hdone]
      refine List.forall_mem_append.mpr ⟨?_, ih his fun hle => ?_⟩
      · cases i with
        | copy offset length =>
          refine addressed_part_copy fun hcount => ?_
          have hlt : offset < 0x10000000000000000 := hi (offset, length) (List.mem_singleton_self _)
          rw [Instruction.outputLength] at hcount
          by_cases hfirst : position ≤ first
          · -- the first byte of the range is the one that the trimmed copy begins with
            by_contra hbeyond
            refine h hfirst ⟨by omega, offset + (first - position), ?_, by omega⟩
            rw [origins_cons, List.getElem?_append_left
              (by rw [Instruction.length_origins, Instruction.outputLength]; omega),
              Instruction.getElem?_origins_copy (by omega)]
          · rw [Nat.sub_eq_zero_of_le (by omega)]
            exact hlt
        | literal bytes => exact addressed_literals _
      · rw [← Nat.sub_sub, ← beginsBeyond_cons (by omega)]
        exact h (by omega)

section HandOn

variable {κ : Type} [InstructionSink κ]

/-- Makes calls up to the first copy from an offset behind the 64-bit range, where it gives up. -/
def handOn (sink : κ) : List SinkStep → Except DeltaError Unit × κ
  | [] => (.ok (), sink)
  | step :: steps =>
    if step.Addressed then andThen (step.act sink) fun sink => handOn sink steps
    else (.error (.overflow .sum), sink)

theorem handOn_addressed {step : SinkStep} (h : step.Addressed) (sink : κ)
    (steps : List SinkStep) :
    handOn sink (step :: steps) = andThen (step.act sink) fun sink => handOn sink steps :=
  if_pos h

theorem handOn_beyond {offset : Nat} (h : 0x10000000000000000 ≤ offset) (length : Nat) (sink : κ)
    (steps : List SinkStep) :
    handOn sink (.copy offset length :: steps) = (.error (.overflow .sum), sink) :=
  if_neg (Nat.not_lt.mpr h)

theorem handOn_append (sink : κ) (steps rest : List SinkStep) :
    handOn sink (steps ++ rest) = andThen (handOn sink steps) fun sink => handOn sink rest := by
  induction steps generalizing sink with
  | nil => rfl
  | cons step steps ih =>
    rw [List.cons_append, handOn, handOn]
    split
    · rw [andThen_assoc]
      simp only [ih]
    · rfl

/-- Without a copy from there, all calls are made. -/
theorem handOn_eq_feed {steps : List SinkStep} (h : ∀ step ∈ steps, step.Addressed) (sink : κ) :
    handOn sink steps = feed sink steps := by
  induction steps generalizing sink with
  | nil => rfl
  | cons step steps ih =>
    obtain ⟨hstep, hsteps⟩ := List.forall_mem_cons.mp h
    rw [handOn_addressed hstep, feed_cons]
    simp only [ih hsteps]

/-- A range that begins beyond is given up at once. -/
theorem handOn_of_beginsBeyond {position first stop : Nat} {is : List Instruction}
    (hle : position ≤ first) (h : BeginsBeyond is (first - position) (stop - first)) (sink : κ) :
    handOn sink (rangeSteps position first stop is) = (.error (.overflow .sum), sink) := by
  induction is generalizing position with
  | nil =>
    obtain ⟨-, place, hplace, -⟩ := h
    cases hplace
  | cons i is ih =>
    have hpos : 0 < stop - first := h.1
    rw [rangeSteps_cons (by omega)]
    by_cases hin : first < position + i.outputLength
    · -- the range begins in this instruction, which has to be the copy
      obtain ⟨-, place, hplace, hbeyond⟩ := h
      rw [origins_cons, List.getElem?_append_left (by rw [Instruction.length_origins]; omega)]
        at hplace
      cases i with
      | copy offset length =>
        rw [Instruction.outputLength] at hin ⊢
        rw [Instruction.getElem?_origins_copy (by omega)] at hplace
        cases hplace
        rw [Instruction.part, if_neg (by omega), List.singleton_append, handOn_beyond hbeyond]
      | literal bytes =>
        rw [Instruction.origins, List.getElem?_map] at hplace
        obtain ⟨value, -, hvalue⟩ := Option.map_eq_some_iff.mp hplace
        cases hvalue
    · rw [beginsBeyond_cons (by omega), Nat.sub_sub] at h
      have hnone : min i.outputLength (stop - position) - (first - position) = 0 := by omega
      rw [hnone, Instruction.part_zero, List.nil_append]
      exact ih (by omega) h

end HandOn

/-! ## Reading -/

variable {σ κ : Type} [Source σ] [InstructionSink κ] {H : σ → Prop} {patch : List UInt8}

theorem pieces_drop_take {position n : Nat} (h₀ : n ≠ 0) (hn : position + n ≤ patch.length) :
    pieces ((patch.drop position).take n) =
      packBytes ((patch.drop position).take (min n pieceSize)) ::
        pieces ((patch.drop (position + pieceSize)).take (n - pieceSize)) := by
  rw [PatchReader.pieces_take h₀ (by rw [List.length_drop]; omega), List.drop_drop]
  by_cases hle : n ≤ pieceSize
  · rw [Nat.sub_eq_zero_of_le hle, List.take_zero, List.take_zero]
  · rw [Nat.min_eq_right (by omega)]

/-- Bytes of the patch are handed over in pieces. -/
theorem passBytes_eq (k : Source.Holding H patch) {src : σ} (h : H src) (sink : κ)
    (position n : Nat) (hn : n = 0 ∨ position + n ≤ patch.length) :
    ∃ src', passBytes src sink position n =
        ((feed sink ((pieces ((patch.drop position).take n)).map .literal)).1, src',
          (feed sink ((pieces ((patch.drop position).take n)).map .literal)).2) ∧ H src' := by
  have hsize : 0 < pieceSize := by decide
  fun_induction passBytes src sink position n with
  | case1 src sink position =>
    rw [List.take_zero, pieces_nil]
    exact ⟨src, rfl, h⟩
  | case2 src sink position n h₀ fault src₁ hr =>
    obtain ⟨⟨⟩, -⟩ := k.of_readExactAtAfter h (by omega) hr
  | case3 src sink position n h₀ missing src₁ hr =>
    obtain ⟨⟨⟩, -⟩ := k.of_readExactAtAfter h (by omega) hr
  | case4 src sink position n h₀ piece src₁ hr e sink₁ ha =>
    obtain ⟨⟨⟩, h'⟩ := k.of_readExactAtAfter h (by omega) hr
    rw [ByteArray.empty_append] at ha
    rw [pieces_drop_take h₀ (by omega), List.map_cons, feed_cons, SinkStep.act, ha, andThen_error]
    exact ⟨src₁, rfl, h'⟩
  | case5 src sink position n h₀ piece src₁ hr sink₁ ha ih =>
    obtain ⟨⟨⟩, h'⟩ := k.of_readExactAtAfter h (by omega) hr
    rw [ByteArray.empty_append] at ha
    rw [pieces_drop_take h₀ (by omega), List.map_cons, feed_cons, SinkStep.act, ha, andThen_ok]
    exact ih h' (by omega)

omit [Source σ] [InstructionSink κ] in
/-- The cursor can be moved on within the bytes behind it. -/
theorem SourceCursor.At.moved {c : SourceCursor σ} {bytes : List UInt8}
    (h : SourceCursor.At H patch c bytes) {src : σ} (hs : H src) {n : Nat} (hn : n ≤ bytes.length) :
    SourceCursor.At H patch ⟨src, c.position + n⟩ (bytes.drop n) := by
  have hl := h.length_rest
  refine ⟨hs, by dsimp only; omega, ?_⟩
  rw [h.rest_eq, List.drop_drop]

namespace PatchIndex

theorem resolveFrom_of_le {position stop : Nat} (h : stop ≤ position) (c : SourceCursor σ)
    (sink : κ) (b : OffsetBase) (first : Nat) :
    resolveFrom c sink b position first stop = (.ok (), c.source, sink) := by
  unfold resolveFrom
  exact if_pos h

section Step

variable {c c' : SourceCursor σ} {b b' : OffsetBase} {position first stop length size offset : Nat}

theorem resolveFrom_literal (h : ¬ stop ≤ position)
    (hr : readRecord b.mode c c.position = (.ok (.literal length, size), c')) (sink : κ) :
    resolveFrom c sink b position first stop =
      match passBytes c'.source sink (c'.position + (first - position))
        (min length (stop - position) - (first - position)) with
      | (.error e, src, sink) => (.error e, src, sink)
      | (.ok (), src, sink) =>
        resolveFrom ⟨src, c'.position + length⟩ sink b (position + length) first stop := by
  rw [resolveFrom, if_neg h]
  split
  · rename_i hr'
    rw [hr] at hr'
    cases hr'
  · rename_i hr'
    rw [hr] at hr'
    cases hr'
    simp only [Record.outputLength]
    split
    · rename_i hpass
      rw [hpass]
    · rename_i hpass
      rw [hpass]

theorem resolveFrom_copy (h : ¬ stop ≤ position) {value : Int}
    (hr : readRecord b.mode c c.position = (.ok (.copy value length, size), c'))
    (hd : b.decode value = (.ok offset, b')) (sink : κ) :
    resolveFrom c sink b position first stop =
      match handOn sink ((Instruction.copy offset length).part (first - position)
        (min length (stop - position) - (first - position))) with
      | (.error e, sink) => (.error e, c'.source, sink)
      | (.ok (), sink) => resolveFrom c' sink b' (position + length) first stop := by
  rw [resolveFrom, if_neg h]
  split
  · rename_i hr'
    rw [hr] at hr'
    cases hr'
  · rename_i hr'
    rw [hr] at hr'
    cases hr'
    simp only [hd, Instruction.part]
    by_cases h₀ : min (Record.copy value length).outputLength (stop - position) -
        (first - position) = 0
    · have h₀' : min length (stop - position) - (first - position) = 0 := h₀
      rw [if_pos h₀, if_pos h₀', handOn]
    · have h₀' : ¬ min length (stop - position) - (first - position) = 0 := h₀
      rw [if_neg h₀, if_neg h₀', Record.outputLength]
      rcases Nat.lt_or_ge (offset + (first - position)) 0x10000000000000000 with hlt | hge
      · have hstep : (SinkStep.copy (offset + (first - position))
            (min length (stop - position) - (first - position))).Addressed := hlt
        rw [checkedSum_of_lt hlt, handOn_addressed hstep, SinkStep.act]
        dsimp only
        rcases InstructionSink.addCopy sink _ _ with ⟨e | _, sink'⟩
        · rfl
        · rfl
      · rw [checkedSum_of_le hge, handOn_beyond hge]

end Step

/-- Reading on from a record hands on the calls for the range. -/
theorem resolveFrom_eq (k : Source.Holding H patch) {b : OffsetBase} {bytes : List UInt8}
    {c : SourceCursor σ} (h : SourceCursor.At H patch c bytes) {rest : List UInt8}
    (hend : (spell b bytes).ending = .marker rest) (sink : κ) {position stop : Nat} (first : Nat)
    (hstop : stop ≤ position + outputLength (spell b bytes).instructions) :
    ∃ src', resolveFrom c sink b position first stop =
        ((handOn sink (rangeSteps position first stop (spell b bytes).instructions)).1, src',
          (handOn sink (rangeSteps position first stop (spell b bytes).instructions)).2) ∧
      H src' := by
  have d := SourceCursor.delivery_at k
  fun_induction spell b bytes generalizing c sink position with
  | case1 b bytes hp => cases hend
  | case2 b bytes rest' hp => exact ⟨c.source, resolveFrom_of_le hstop c sink b first, h.holds⟩
  | case3 b bytes length rest' hp hl ih =>
    by_cases hdone : stop ≤ position
    · rw [rangeSteps_of_le hdone, resolveFrom_of_le hdone]
      exact ⟨c.source, rfl, h.holds⟩
    · obtain ⟨c', hr, hrest⟩ := d.readRecord h hp c.position
      have hlen : (rest'.take length).length = length := List.length_take_of_le hl
      have hrange := hrest.length_rest
      have hcount : min (min length (stop - position) - (first - position))
          (length - (first - position)) = min length (stop - position) - (first - position) := by
        omega
      rw [Spelling.instructions_behind, outputLength_cons, Instruction.outputLength, size_packBytes,
        hlen] at hstop
      rw [resolveFrom_literal hdone hr, Spelling.instructions_behind, rangeSteps_cons hdone,
        Instruction.outputLength, size_packBytes, hlen, handOn_append, Instruction.part,
        handOn_eq_feed (addressed_literals _), data_packBytes, List.toList_toArray, List.drop_take,
        List.take_take, hcount]
      obtain ⟨src₁, hpass, h₁⟩ := passBytes_eq k hrest.holds sink (c'.position + (first - position))
        (min length (stop - position) - (first - position)) (by omega)
      rw [hpass, ← List.drop_drop, ← hrest.rest_eq]
      rcases feed sink _ with ⟨e | _, sink₁⟩
      · exact ⟨src₁, rfl, h₁⟩
      · exact ih (hrest.moved h₁ hl) hend sink₁ (by omega)
  | case4 b bytes length rest' hp hl => cases hend
  | case5 b bytes value length rest' hp e b' hd => cases hend
  | case6 b bytes value length rest' hp offset b' hd ih =>
    by_cases hdone : stop ≤ position
    · rw [rangeSteps_of_le hdone, resolveFrom_of_le hdone]
      exact ⟨c.source, rfl, h.holds⟩
    · obtain ⟨c', hr, hrest⟩ := d.readRecord h hp c.position
      rw [Spelling.instructions_behind, outputLength_cons, Instruction.outputLength] at hstop
      rw [resolveFrom_copy hdone hr hd, Spelling.instructions_behind, rangeSteps_cons hdone,
        Instruction.outputLength, handOn_append]
      rcases handOn sink _ with ⟨e | _, sink₁⟩
      · exact ⟨c'.source, rfl, hrest.holds⟩
      · exact ih hrest hend sink₁ (by omega)

end PatchIndex

end BinaryDelta
