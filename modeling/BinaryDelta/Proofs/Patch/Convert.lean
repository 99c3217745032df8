import BinaryDelta.Patch.Convert
import BinaryDelta.Proofs.Patch.Spell
import BinaryDelta.Proofs.Sink.Feed

/-!
# What a sink is handed

To convert a patch is to feed a sink what the patch spells, with every payload in pieces, and then
to close the sink or to fail, as the ending says. This holds of any reader that delivers the patch
and of any sink, also of one that fails on the way.

* `pieces` and `fullPieces` cut payloads; of a payload that is cut short only full pieces arrive.
* `Spelling.steps` is what a sink is fed, `Spelling.convey` what a conversion comes to.

Results:
* `PatchReader.passOn_eq`: a reader in front of a record conveys what the bytes to come spell.
* `convert_eq`, `convert_of_spell`: the same of a whole patch, and of one with an end marker.
-/

namespace BinaryDelta

/-! ## Payloads in pieces -/

/-- Bytes in pieces of `pieceSize`, the last of which may be shorter. -/
def pieces (bytes : List UInt8) : List ByteArray :=
  if bytes.length = 0 then []
  else packBytes (bytes.take pieceSize) :: pieces (bytes.drop pieceSize)
termination_by bytes.length
decreasing_by
  have : 0 < pieceSize := by decide
  rw [List.length_drop]
  omega

/-- The pieces of `pieceSize` that bytes begin with. -/
def fullPieces (bytes : List UInt8) : List ByteArray :=
  if bytes.length < pieceSize then []
  else packBytes (bytes.take pieceSize) :: fullPieces (bytes.drop pieceSize)
termination_by bytes.length
decreasing_by
  have : 0 < pieceSize := by decide
  rw [List.length_drop]
  omega

@[simp] theorem pieces_nil : pieces [] = [] := by
  rw [pieces, if_pos List.length_nil]

/-- Pieces make up what they were cut from. -/
theorem foldl_pieces (bytes : List UInt8) (front : ByteArray) :
    (pieces bytes).foldl (· ++ ·) front = front ++ packBytes bytes := by
  fun_induction pieces bytes generalizing front with
  | case1 bytes h =>
    rw [List.eq_nil_of_length_eq_zero h]
    exact ByteArray.append_empty.symm
  | case2 bytes h ih =>
    rw [List.foldl_cons, ih, ByteArray.append_assoc, ← packBytes_append, List.take_append_drop]

/-- The calls that hand an instruction over. -/
def Instruction.steps : Instruction → List SinkStep
  | copy offset length => [.copy offset length]
  | literal bytes => (pieces bytes.data.toList).map .literal

/-- The calls in front of an ending. -/
def Ending.steps : Ending → List SinkStep
  | cutPayload available => (fullPieces available).map .literal
  | _ => []

/-- Cutting a payload into pieces does not change what is told. -/
theorem atoms_pieces (bytes : List UInt8) :
    ((pieces bytes).map SinkStep.literal).flatMap SinkStep.atoms = bytes.map .byte := by
  fun_induction pieces bytes with
  | case1 bytes h =>
    rw [List.eq_nil_of_length_eq_zero h]
    rfl
  | case2 bytes h ih =>
    rw [List.map_cons, List.flatMap_cons, ih, SinkStep.atoms, data_packBytes, List.toList_toArray,
      ← List.map_append, List.take_append_drop]

theorem instructions_literals (parts : List ByteArray) :
    (parts.map SinkStep.literal).flatMap SinkStep.instructions = parts.map .literal := by
  induction parts with
  | nil => rfl
  | cons part parts ih => rw [List.map_cons, List.flatMap_cons, ih]; rfl

theorem atoms_steps (i : Instruction) : i.steps.flatMap SinkStep.atoms = i.atoms := by
  cases i with
  | copy offset length => rfl
  | literal bytes => exact atoms_pieces bytes.data.toList

/-- What a sink is told is what was spelled. -/
theorem atoms_flatMap_steps (is : List Instruction) :
    (is.flatMap Instruction.steps).flatMap SinkStep.atoms = atoms is := by
  induction is with
  | nil => rfl
  | cons i is ih => rw [List.flatMap_cons, List.flatMap_append, atoms_steps, ih, atoms_cons]

/-- What a sink is handed rebuilds what was spelled. -/
theorem origins_flatMap_steps (is : List Instruction) :
    origins ((is.flatMap Instruction.steps).flatMap SinkStep.instructions) = origins is := by
  rw [SinkStep.origins_flatMap_instructions, atoms_flatMap_steps, map_origin_cells]

namespace Spelling

/-- The calls that a sink gets. -/
def steps (s : Spelling) : List SinkStep :=
  s.instructions.flatMap Instruction.steps ++ s.ending.steps

theorem steps_of_marker {s : Spelling} {rest : List UInt8} (h : s.ending = .marker rest) :
    s.steps = s.instructions.flatMap Instruction.steps := by
  rw [steps, h]
  exact List.append_nil _

/-- Feeds a sink, and closes it if the end marker was reached. `total` is the length of what was
handed over before. -/
def convey {κ : Type} [InstructionSink κ] (s : Spelling) (sink : κ) (total : Nat) :
    Except DeltaError Nat × κ :=
  andThen (feed sink s.steps) fun sink =>
    match s.ending.error? with
    | some e => (.error e, sink)
    | none =>
      andThen (InstructionSink.close sink) fun sink =>
        (.ok (total + outputLength s.instructions), sink)

/-- Up to an end marker, a sink is fed and closed. -/
theorem convey_of_marker {κ : Type} [InstructionSink κ] {s : Spelling} {rest : List UInt8}
    (h : s.ending = .marker rest) (sink : κ) (total : Nat) :
    s.convey sink total = andThen (complete sink s.steps) fun sink =>
      (.ok (total + outputLength s.instructions), sink) := by
  rw [convey, complete, andThen_assoc, h]
  rfl

theorem convey_behind {κ : Type} [InstructionSink κ] (s : Spelling) (i : Instruction) (sink : κ)
    (total : Nat) : (s.behind i).convey sink total =
      andThen (feed sink i.steps) fun sink => s.convey sink (total + i.outputLength) := by
  rw [convey, steps, instructions_behind, List.flatMap_cons, List.append_assoc, feed_append,
    andThen_assoc]
  simp only [convey, steps, ending_behind, outputLength_cons, Nat.add_assoc]

end Spelling

namespace PatchReader

variable {ρ κ : Type} [ByteReader ρ] [InstructionSink κ] {R : ρ → List UInt8 → Prop}
  {bytes : List UInt8}

/-! ## One command -/

/-- The reader stands in front of a record, and these are the bytes from there on. -/
structure Before (R : ρ → List UInt8 → Prop) (p : PatchReader ρ) (b : OffsetBase)
    (bytes : List UInt8) : Prop where
  delivers : R p.input bytes
  base_eq : p.base = b
  pending_eq : p.pending = 0
  unfinished : p.finished = false

variable {p : PatchReader ρ} {b : OffsetBase}

theorem skipPending_before (h : Before R p b bytes) : p.skipPending = (.ok (), p) := by
  rcases p with ⟨input, base, position, pending, finished⟩
  obtain rfl : pending = 0 := h.pending_eq
  have hr : ByteReader.readUpTo input 0 = (.ok ByteArray.empty, input) := by
    rw [ByteReader.readUpTo, ByteReader.readUpToAfter, if_pos rfl]
  rw [skipPending, hr]
  rfl

/-- The next command is the record that the bytes begin with. -/
theorem nextCommand_of_parse (d : ByteReader.Delivery R) (h : Before R p b bytes) {record : Record}
    {rest : List UInt8} (hp : Record.parse? b.mode bytes = some (record, rest)) :
    ∃ input, p.nextCommand = accept input b (p.position + (bytes.length - rest.length)) record ∧
      R input rest := by
  have hs := skipPending_before h
  rcases p with ⟨input, base, position, pending, finished⟩
  obtain rfl : base = b := h.base_eq
  obtain ⟨input', hr, hrest⟩ := d.readRecord h.delivers hp position
  refine ⟨input', ?_, hrest⟩
  rw [nextCommand, if_neg (by rw [h.unfinished]; decide), hs]
  simp only [hr]

/-- There is no next command where the bytes end within a record. -/
theorem nextCommand_cut (d : ByteReader.Delivery R) (h : Before R p b bytes)
    (hp : Record.parse? b.mode bytes = none) :
    ∃ p', p.nextCommand = (.error .unexpectedEndOfData, p') := by
  have hs := skipPending_before h
  rcases p with ⟨input, base, position, pending, finished⟩
  obtain rfl : base = b := h.base_eq
  obtain ⟨input', hr, -⟩ := d.readRecord_cut h.delivers hp position
  refine ⟨⟨input', base, position, 0, false⟩, ?_⟩
  rw [nextCommand, if_neg (by rw [h.unfinished]; decide), hs]
  simp only [hr]

/-! ## Payloads -/

/-- Reading payload bytes takes them, if so many are to come, and fails if not. -/
theorem of_readLiteral (d : ByteReader.Delivery R) (h : R p.input bytes) {n : Nat}
    (hn : n ≤ p.pending) {answer : Except DeltaError ByteArray} {p' : PatchReader ρ}
    (hr : p.readLiteral n = (answer, p')) :
    (n ≤ bytes.length ∧ answer = .ok (packBytes (bytes.take n)) ∧ ∃ input,
      p' = ⟨input, p.base, p.position + n, p.pending - n, p.finished⟩ ∧ R input (bytes.drop n)) ∨
    (bytes.length < n ∧ answer = .error .unexpectedEndOfData) := by
  rcases p with ⟨input, base, position, pending, finished⟩
  simp only at hn
  rw [readLiteral, if_neg (by omega)] at hr
  by_cases hl : n ≤ bytes.length
  · obtain ⟨input', hx, hrest⟩ := d.readExact h hl
    rw [hx] at hr
    obtain ⟨rfl, rfl⟩ := Prod.mk.inj hr
    exact .inl ⟨hl, rfl, input', rfl, hrest⟩
  · obtain ⟨input', hx, -⟩ := d.readExact_short h (Nat.lt_of_not_le hl)
    rw [hx] at hr
    obtain ⟨rfl, -⟩ := Prod.mk.inj hr
    exact .inr ⟨Nat.lt_of_not_le hl, rfl⟩

theorem pieces_take {n : Nat} (h₀ : n ≠ 0) (hl : n ≤ bytes.length) : pieces (bytes.take n) =
    packBytes (bytes.take (min n pieceSize)) ::
      pieces ((bytes.drop (min n pieceSize)).take (n - pieceSize)) := by
  have hlen : (bytes.take n).length = n := List.length_take_of_le hl
  rw [pieces, if_neg (by omega), List.take_take, Nat.min_comm, List.drop_take]
  by_cases hn : n ≤ pieceSize
  · rw [Nat.sub_eq_zero_of_le hn, List.take_zero, List.take_zero]
  · rw [Nat.min_eq_right (by omega)]

/-- A payload is handed over in pieces, and behind it the reader stands in front of a record. -/
theorem passLiteral_eq (d : ByteReader.Delivery R) {n : Nat} (h : R p.input bytes)
    (hn : p.pending = n) (hl : n ≤ bytes.length) (hf : p.finished = false) (sink : κ) :
    ∃ p', p.passLiteral sink n = ((feed sink ((pieces (bytes.take n)).map .literal)).1, p',
        (feed sink ((pieces (bytes.take n)).map .literal)).2) ∧
      ((feed sink ((pieces (bytes.take n)).map .literal)).1 = .ok () →
        Before R p' p.base (bytes.drop n)) := by
  have hsize : 0 < pieceSize := by decide
  fun_induction passLiteral p sink n generalizing bytes with
  | case1 p sink =>
    rw [List.take_zero, pieces_nil]
    exact ⟨p, rfl, fun _ => ⟨by rwa [List.drop_zero], rfl, hn, hf⟩⟩
  | case2 p sink n h₀ e p₁ hr =>
    obtain ⟨-, ⟨⟩, -⟩ | ⟨hlt, -⟩ := of_readLiteral d h (by omega) hr
    omega
  | case3 p sink n h₀ piece p₁ hr e sink₁ ha =>
    obtain ⟨-, ⟨⟩, -⟩ | ⟨-, ⟨⟩⟩ := of_readLiteral d h (by omega) hr
    rw [pieces_take h₀ hl, List.map_cons, feed_cons, SinkStep.act, ha, andThen_error]
    refine ⟨p₁, rfl, fun hok => ?_⟩
    cases hok
  | case4 p sink n h₀ piece p₁ hr sink₁ ha ih =>
    obtain ⟨-, ⟨⟩, input, rfl, hrest⟩ | ⟨-, ⟨⟩⟩ := of_readLiteral d h (by omega) hr
    have hdrop : min n pieceSize + (n - pieceSize) = n := by omega
    rw [pieces_take h₀ hl, List.map_cons, feed_cons, SinkStep.act, ha, andThen_ok]
    obtain ⟨p', hp', hb⟩ := ih hrest (by dsimp only; omega) (by rw [List.length_drop]; omega) hf
    rw [List.drop_drop, hdrop] at hb
    exact ⟨p', hp', hb⟩

theorem fullPieces_eq_cons (h : pieceSize ≤ bytes.length) : fullPieces bytes =
    packBytes (bytes.take pieceSize) :: fullPieces (bytes.drop pieceSize) := by
  rw [fullPieces, if_neg (by omega)]

/-- Of a payload that is cut short the full pieces are handed over. -/
theorem passLiteral_short (d : ByteReader.Delivery R) {n : Nat} (h : R p.input bytes)
    (hn : p.pending = n) (hl : bytes.length < n) (sink : κ) :
    ∃ p', p.passLiteral sink n =
      ((andThen (feed sink ((fullPieces bytes).map .literal)) fun sink =>
          ((.error .unexpectedEndOfData : Except DeltaError Unit), sink)).1, p',
        (andThen (feed sink ((fullPieces bytes).map .literal)) fun sink =>
          ((.error .unexpectedEndOfData : Except DeltaError Unit), sink)).2) := by
  have hsize : 0 < pieceSize := by decide
  fun_induction passLiteral p sink n generalizing bytes with
  | case1 p sink => omega
  | case2 p sink n h₀ e p₁ hr =>
    obtain ⟨-, ⟨⟩, -⟩ | ⟨hlt, ⟨⟩⟩ := of_readLiteral d h (by omega) hr
    rw [fullPieces, if_pos (by omega)]
    exact ⟨p₁, rfl⟩
  | case3 p sink n h₀ piece p₁ hr e sink₁ ha =>
    obtain ⟨hle, ⟨⟩, -⟩ | ⟨-, ⟨⟩⟩ := of_readLiteral d h (by omega) hr
    rw [Nat.min_eq_right (by omega)] at ha
    rw [fullPieces_eq_cons (by omega), List.map_cons, feed_cons, SinkStep.act, ha, andThen_error]
    exact ⟨p₁, rfl⟩
  | case4 p sink n h₀ piece p₁ hr sink₁ ha ih =>
    obtain ⟨hle, ⟨⟩, input, rfl, hrest⟩ | ⟨-, ⟨⟩⟩ := of_readLiteral d h (by omega) hr
    have hmin : min n pieceSize = pieceSize := by omega
    rw [hmin] at ha hrest
    rw [fullPieces_eq_cons (by omega), List.map_cons, feed_cons, SinkStep.act, ha, andThen_ok]
    exact ih hrest (by dsimp only; omega) (by rw [List.length_drop]; omega)

/-! ## Whole patches -/

/-- A reader in front of a record conveys what the bytes to come spell. -/
theorem passOn_eq (d : ByteReader.Delivery R) (h : Before R p b bytes) (sink : κ) (total : Nat) :
    p.passOn sink total = (spell b bytes).convey sink total := by
  fun_induction spell b bytes generalizing p sink total with
  | case1 b bytes hp =>
    obtain ⟨p', hn⟩ := nextCommand_cut d h hp
    rw [passOn, hn]
    rfl
  | case2 b bytes rest hp =>
    obtain ⟨input, hn, -⟩ := nextCommand_of_parse d h hp
    rw [passOn, hn, Spelling.convey, Spelling.steps]
    simp only [accept, Spelling.ends, List.flatMap_nil, Ending.steps, List.append_nil, feed_nil,
      andThen_ok, Ending.error?, outputLength_nil, Nat.add_zero]
    rcases InstructionSink.close sink with ⟨_ | _, sink'⟩ <;> rfl
  | case3 b bytes length rest hp hl ih =>
    obtain ⟨input, hn, hrest⟩ := nextCommand_of_parse d h hp
    obtain ⟨p', hpass, hb⟩ :=
      passLiteral_eq d (p := (accept input b _ (.literal length)).2) hrest rfl hl rfl sink
    have hlen : (rest.take length).length = length := List.length_take_of_le hl
    rw [passOn, hn, Spelling.convey_behind, Instruction.steps, data_packBytes, List.toList_toArray,
      Instruction.outputLength, size_packBytes, hlen]
    simp only [accept] at hpass hb ⊢
    rw [hpass]
    rcases hf : feed sink ((pieces (rest.take length)).map .literal) with ⟨e | _, sink'⟩
    · rfl
    · rw [hf] at hb
      exact ih (hb rfl) sink' (total + length)
  | case4 b bytes length rest hp hl =>
    obtain ⟨input, hn, hrest⟩ := nextCommand_of_parse d h hp
    obtain ⟨p', hpass⟩ :=
      passLiteral_short d (p := (accept input b _ (.literal length)).2) hrest rfl
        (Nat.lt_of_not_le hl) sink
    rw [passOn, hn, Spelling.convey, Spelling.steps]
    simp only [accept, Spelling.ends, List.flatMap_nil, Ending.steps, List.nil_append,
      Ending.error?] at hpass ⊢
    rw [hpass]
    rcases feed sink ((fullPieces rest).map .literal) with ⟨e | _, sink'⟩ <;> rfl
  | case5 b bytes value length rest hp e b' hd =>
    obtain ⟨input, hn, -⟩ := nextCommand_of_parse d h hp
    rw [accept, hd] at hn
    rw [passOn, hn]
    rfl
  | case6 b bytes value length rest hp offset b' hd ih =>
    obtain ⟨input, hn, hrest⟩ := nextCommand_of_parse d h hp
    rw [accept, hd] at hn
    rw [passOn, hn, Spelling.convey_behind, Instruction.steps, feed_cons, SinkStep.act]
    simp only [feed_nil]
    rcases InstructionSink.addCopy sink offset length with ⟨e | _, sink'⟩
    · rfl
    · exact ih ⟨hrest, rfl, rfl, rfl⟩ sink' (total + length)

end PatchReader

theorem modeOfPreamble?_take (bytes : List UInt8) :
    modeOfPreamble? (bytes.take preambleLength) = modeOfPreamble? bytes := by
  have h : 4 < preambleLength := by decide
  rw [modeOfPreamble?, modeOfPreamble?, List.take_take, Nat.min_eq_left (by omega),
    List.getElem?_take_of_lt h]

/-- What is too short for a preamble has none. -/
theorem modeOfPreamble?_of_length_lt {bytes : List UInt8} (h : bytes.length < preambleLength) :
    modeOfPreamble? bytes = none := by
  have h₄ : bytes.length ≤ 4 := Nat.le_of_lt_succ h
  rw [modeOfPreamble?, List.getElem?_eq_none h₄, Option.bind_none, ite_self]

/-- The preamble names a mode where the bytes begin with it. -/
theorem modeOfPreamble?_eq_some_iff {bytes : List UInt8} {mode : Mode} :
    modeOfPreamble? bytes = some mode ↔ ∃ records, bytes = preamble mode ++ records := by
  constructor
  · intro h
    unfold modeOfPreamble? at h
    split at h
    · rename_i hmagic
      obtain ⟨flag, hflag, hmode⟩ := Option.bind_eq_some_iff.mp h
      have hf : flag = mode.flag := by
        unfold Mode.ofFlag? at hmode
        split at hmode
        · cases hmode
          assumption
        · split at hmode
          · cases hmode
            assumption
          · cases hmode
      refine ⟨bytes.drop 5, ?_⟩
      rw [preamble, ← hmagic, ← hf, List.append_assoc, List.singleton_append]
      obtain ⟨hlt, rfl⟩ := List.getElem?_eq_some_iff.mp hflag
      rw [← List.drop_eq_getElem_cons hlt, List.take_append_drop]
    · cases h
  · rintro ⟨records, rfl⟩
    cases mode <;> rfl

namespace ByteReader.Delivery

variable {ρ : Type} [ByteReader ρ] {R : ρ → List UInt8 → Prop} {bytes : List UInt8}

/-- Reading the preamble takes it off the bytes to come. -/
theorem readPreamble (d : Delivery R) {r : ρ} (h : R r bytes) {mode : Mode}
    (hm : modeOfPreamble? bytes = some mode) : ∃ r', BinaryDelta.readPreamble r = (.ok mode, r') ∧
      R r' (bytes.drop preambleLength) := by
  have hl : preambleLength ≤ bytes.length := by
    by_contra hlt
    rw [modeOfPreamble?_of_length_lt (Nat.lt_of_not_le hlt)] at hm
    cases hm
  obtain ⟨r', hr, hrest⟩ := d.readExact h hl
  refine ⟨r', ?_, hrest⟩
  rw [BinaryDelta.readPreamble, hr]
  simp only [data_packBytes, List.toList_toArray, modeOfPreamble?_take, hm]

theorem readPreamble_invalid (d : Delivery R) {r : ρ} (h : R r bytes)
    (hm : modeOfPreamble? bytes = none) :
    ∃ r' rest, BinaryDelta.readPreamble r = (.error .invalidMagic, r') ∧ R r' rest := by
  by_cases hl : preambleLength ≤ bytes.length
  · obtain ⟨r', hr, hrest⟩ := d.readExact h hl
    refine ⟨r', _, ?_, hrest⟩
    rw [BinaryDelta.readPreamble, hr]
    simp only [data_packBytes, List.toList_toArray, modeOfPreamble?_take, hm]
  · obtain ⟨r', hr, hend⟩ := d.readExact_short h (Nat.lt_of_not_le hl)
    exact ⟨r', [], by rw [BinaryDelta.readPreamble, hr], hend⟩

end ByteReader.Delivery

/-- What a whole patch spells; nothing if it has no preamble. -/
def spellPatch? (patch : List UInt8) : Option Spelling :=
  (modeOfPreamble? patch).map fun mode => spell { mode } (patch.drop preambleLength)

theorem spellPatch?_eq_some_iff {patch : List UInt8} {s : Spelling} :
    spellPatch? patch = some s ↔
      ∃ mode records, patch = preamble mode ++ records ∧ s = spell ⟨mode, 0⟩ records := by
  rw [spellPatch?, Option.map_eq_some_iff]
  constructor
  · rintro ⟨mode, hm, rfl⟩
    obtain ⟨records, rfl⟩ := modeOfPreamble?_eq_some_iff.mp hm
    exact ⟨mode, records, rfl, rfl⟩
  · rintro ⟨mode, records, rfl, rfl⟩
    exact ⟨mode, modeOfPreamble?_eq_some_iff.mpr ⟨records, rfl⟩, rfl⟩

/-- A sink is fed what a patch spells. -/
theorem convert_eq {ρ κ : Type} [ByteReader ρ] [InstructionSink κ] {r : ρ} {patch : List UInt8}
    (h : ByteReader.Delivers r patch) (sink : κ) :
    convert r sink =
      match spellPatch? patch with
      | none => (.error .invalidMagic, sink)
      | some s => s.convey sink 0 := by
  obtain ⟨R, d, hr⟩ := h
  rw [convert, PatchReader.ofReader, spellPatch?]
  cases hm : modeOfPreamble? patch with
  | none =>
    obtain ⟨r', rest, hp, -⟩ := d.readPreamble_invalid hr hm
    rw [hp]
    rfl
  | some mode =>
    obtain ⟨r', hp, hrest⟩ := d.readPreamble hr hm
    rw [hp]
    exact PatchReader.passOn_eq d ⟨hrest, rfl, rfl, rfl⟩ sink 0

/-- Up to an end marker, the sink is fed and closed, and the answer is the length described. -/
theorem convert_of_spell {ρ κ : Type} [ByteReader ρ] [InstructionSink κ] {r : ρ}
    {patch rest : List UInt8} {is : List Instruction} (h : ByteReader.Delivers r patch)
    (hs : spellPatch? patch = some ⟨is, .marker rest⟩) (sink : κ) :
    convert r sink = andThen (complete sink (is.flatMap Instruction.steps)) fun sink =>
      (.ok (outputLength is), sink) := by
  have hend : (⟨is, .marker rest⟩ : Spelling).ending = .marker rest := rfl
  rw [convert_eq h, hs]
  simp only
  rw [Spelling.convey_of_marker hend, Spelling.steps_of_marker hend, Nat.zero_add]

end BinaryDelta
