import BinaryDelta.Proofs.Patch.Accept
import BinaryDelta.Proofs.WireRoundTrip

/-!
# What is said of a source that is too short

A copy is read in pieces. If the source ends within it, the error is about the piece in which it
ends: its start, and how many of its bytes are missing. For a copy of a single piece these are the
numbers of the copy, and for a longer one they never are. That holds of every source that hands out
nothing but its bytes, also of one that may fail, and of every output.

* `behindEnd` counts the bytes of a range that lie behind the end of a source.

Results:
* `shortfall_eq_copy_iff`: when the numbers of the piece are those of the copy.
* `Rebuilder.of_feed_ended`: a source that ends too early does so at the first copy that reaches
  behind it.
* **`source_end_reported`**: what an end of the source tells of the patch, and when it tells the
  numbers of the copy.
-/

namespace BinaryDelta

/-! ## Pieces and copies -/

/-- How many bytes of a range lie at or behind the end of a source of this length. -/
def behindEnd (size offset length : Nat) : Nat :=
  (List.range' offset length).countP (size ≤ ·)

theorem behindEnd_eq (size offset length : Nat) :
    behindEnd size offset length = length - (size - offset) := by
  induction length with
  | zero => simp [behindEnd]
  | succ length ih =>
    rw [behindEnd, List.range'_1_concat, List.countP_append, ← behindEnd, ih,
      List.countP_singleton]
    by_cases h : size ≤ offset + length
    · rw [if_pos (decide_eq_true h)]
      omega
    · rw [if_neg (by simpa using h)]
      omega

/-- The numbers of the piece that comes up short are those of the copy if the copy is one piece, and
only then. -/
theorem shortfall_eq_copy_iff {size offset length position missing : Nat}
    (hout : ¬ (Instruction.copy offset length).InRange size)
    (h : DeltaError.unexpectedEndOfSource position missing = shortfall size offset length) :
    position = offset ∧ missing = behindEnd size offset length ↔ length ≤ pieceSize := by
  obtain ⟨h₀, hlt⟩ := not_or.mp hout
  have hpiece : 0 < pieceSize := by decide
  cases h
  rw [behindEnd_eq]
  by_cases hfirst : size - offset < pieceSize
  · -- the source ends within the first piece
    rw [Nat.div_eq_of_lt hfirst, Nat.mul_zero, Nat.add_zero, Nat.sub_zero, Nat.sub_zero]
    omega
  · -- the first piece is there, so the copy is longer and the piece in question a later one
    have hwhole : pieceSize ≤ pieceSize * ((size - offset) / pieceSize) :=
      Nat.le_mul_of_pos_right _ (Nat.div_pos (Nat.le_of_not_lt hfirst) hpiece)
    omega

/-! ## Feeding a rebuilder -/

namespace Rebuilder

variable {σ ω : Type} [Source σ] [ByteOutput ω] {H : σ → Prop} {source : List UInt8}
  {r r' : Rebuilder σ ω} {position missing : Nat}

/-- A copy that succeeds stays in the source. -/
theorem of_copyRange (k : Source.Serving H source) (h : H r.source) {offset length : Nat}
    (hc : r.copyRange offset length = (.ok (), r')) :
    H r'.source ∧ (Instruction.copy offset length).InRange source.length := by
  have hpiece : 0 < pieceSize := by decide
  induction length using Nat.strongRecOn generalizing r offset with
  | _ length ih =>
    rcases r with ⟨src, out⟩
    rw [copyRange, Overlap.catchUp_apart] at hc
    split at hc
    · rename_i h₀
      cases hc
      exact ⟨h, .inl h₀⟩
    · split at hc
      · cases hc
      · rename_i bytes src' hread
        obtain ⟨h', hin⟩ := k.of_readExactAt h hread
        split at hc
        · cases hc
        · obtain ⟨hr', htail⟩ := ih (length - pieceSize) (by omega) h' hc
          rw [Instruction.InRange] at htail
          exact ⟨hr', .inr (by omega)⟩

/-- A copy at which the source ends reaches behind it. -/
theorem of_copyRange_ended (k : Source.Serving H source) (h : H r.source) {offset length : Nat}
    (hc : r.copyRange offset length = (.error (.unexpectedEndOfSource position missing), r')) :
    ¬ (Instruction.copy offset length).InRange source.length ∧
      .unexpectedEndOfSource position missing = shortfall source.length offset length := by
  have hpiece : 0 < pieceSize := by decide
  induction length using Nat.strongRecOn generalizing r offset with
  | _ length ih =>
    rcases r with ⟨src, out⟩
    rw [copyRange, Overlap.catchUp_apart] at hc
    split at hc
    · cases hc
    · rename_i h₀
      split at hc
      · rename_i e src' hread
        cases hc
        obtain ⟨-, hlt, rfl, rfl⟩ := k.of_readExactAt_ended h hread
        exact ⟨by rw [Instruction.InRange]; omega, (shortfall_of_lt hlt).symm⟩
      · rename_i bytes src' hread
        obtain ⟨h', hin⟩ := k.of_readExactAt h hread
        split at hc
        · cases hc
        · obtain ⟨hout, he⟩ := ih (length - pieceSize) (by omega) h' hc
          rw [Instruction.InRange] at hout
          refine ⟨by rw [Instruction.InRange]; omega, ?_⟩
          rw [he, shortfall_of_le length (by omega)]

omit [Source σ] in
/-- Writing leaves the source alone. -/
theorem source_write (r : Rebuilder σ ω) (bytes : ByteArray) :
    (r.write bytes).2.source = r.source := by
  rcases r with ⟨src, out⟩
  rw [write]
  split <;> rfl

omit [Source σ] in
/-- Writing never runs out of the source. -/
theorem write_ne_ended (r : Rebuilder σ ω) (bytes : ByteArray) (position missing : Nat) :
    (r.write bytes).1 ≠ .error (.unexpectedEndOfSource position missing) := by
  rcases r with ⟨src, out⟩
  rw [write]
  split <;> rintro ⟨⟩

omit [Source σ] in
theorem flush_ne_ended (r : Rebuilder σ ω) :
    r.flush.1 ≠ .error (.unexpectedEndOfSource position missing) := by
  rcases r with ⟨src, out⟩
  rw [flush]
  split <;> rintro ⟨⟩

theorem source_feed_literals (r : Rebuilder σ ω) (parts : List ByteArray) :
    (feed r (parts.map .literal)).2.source = r.source := by
  induction parts generalizing r with
  | nil => rfl
  | cons part parts ih =>
    have hpart := source_write r part
    rw [List.map_cons, feed_cons]
    rcases hw : SinkStep.act r (.literal part) with ⟨e | _, r₁⟩
    · rwa [show r.write part = (.error e, r₁) from hw] at hpart
    · rw [show r.write part = (.ok (), r₁) from hw] at hpart
      exact (ih r₁).trans hpart

theorem feed_literals_ne_ended (r : Rebuilder σ ω) (parts : List ByteArray) :
    (feed r (parts.map .literal)).1 ≠ .error (.unexpectedEndOfSource position missing) := by
  induction parts generalizing r with
  | nil => rintro ⟨⟩
  | cons part parts ih =>
    have hpart := write_ne_ended r part position missing
    rw [List.map_cons, feed_cons]
    rcases hw : SinkStep.act r (.literal part) with ⟨e | _, r₁⟩
    · rwa [show r.write part = (.error e, r₁) from hw] at hpart
    · exact ih r₁

/-- Instructions that are carried out stay in range. -/
theorem of_feed (k : Source.Serving H source) (h : H r.source) {is : List Instruction}
    (hf : feed r (is.flatMap Instruction.steps) = (.ok (), r')) :
    H r'.source ∧ ∀ i ∈ is, i.InRange source.length := by
  induction is generalizing r with
  | nil =>
    cases hf
    exact ⟨h, List.forall_mem_nil _⟩
  | cons i is ih =>
    rw [List.flatMap_cons, feed_append] at hf
    rcases hi : feed r i.steps with ⟨e | _, r₁⟩
    · rw [hi] at hf
      cases hf
    · rw [hi, andThen_ok] at hf
      have hfirst : H r₁.source ∧ i.InRange source.length := by
        cases i with
        | copy offset length =>
          rw [Instruction.steps, feed_singleton] at hi
          exact of_copyRange k h hi
        | literal bytes =>
          have hsource := source_feed_literals r (pieces bytes.data.toList)
          rw [Instruction.steps] at hi
          rw [hi] at hsource
          exact ⟨hsource ▸ h, trivial⟩
      obtain ⟨hr', hrest⟩ := ih hfirst.1 hf
      exact ⟨hr', List.forall_mem_cons.mpr ⟨hfirst.2, hrest⟩⟩

/-- A source that ends too early does so at the first copy that reaches behind it. -/
theorem of_feed_ended (k : Source.Serving H source) (h : H r.source) {is : List Instruction}
    (hf : (feed r (is.flatMap Instruction.steps)).1 =
      .error (.unexpectedEndOfSource position missing)) :
    ∃ front offset length back, is = front ++ .copy offset length :: back ∧
      (∀ i ∈ front, i.InRange source.length) ∧
      ¬ (Instruction.copy offset length).InRange source.length ∧
      .unexpectedEndOfSource position missing = shortfall source.length offset length := by
  induction is generalizing r with
  | nil => cases hf
  | cons i is ih =>
    rw [List.flatMap_cons, feed_append] at hf
    rcases error_of_andThen hf with hi | ⟨r₁, hi, hrest⟩
    · cases i with
      | copy offset length =>
        rw [Instruction.steps, feed_singleton] at hi
        obtain ⟨hout, he⟩ := of_copyRange_ended k h (Prod.ext hi rfl)
        exact ⟨[], offset, length, is, rfl, List.forall_mem_nil _, hout, he⟩
      | literal bytes => exact absurd hi (feed_literals_ne_ended r _)
    · have hone : feed r ([i].flatMap Instruction.steps) = (.ok (), r₁) := by
        rwa [List.flatMap_singleton]
      obtain ⟨hr₁, hin⟩ := of_feed k h hone
      obtain ⟨front, offset, length, back, rfl, hfront, hout, he⟩ := ih hr₁ hrest
      exact ⟨i :: front, offset, length, back, rfl,
        List.forall_mem_cons.mpr ⟨hin i List.mem_cons_self, hfront⟩, hout, he⟩

/-- What is left at the ending never runs out of the source. -/
theorem feed_ending_ne_ended (ending : Ending) :
    (feed r ending.steps).1 ≠ .error (.unexpectedEndOfSource position missing) := by
  cases ending with
  | cutPayload available => exact feed_literals_ne_ended r (fullPieces available)
  | marker rest => rintro ⟨⟩
  | cutRecord => rintro ⟨⟩
  | unresolved e => rintro ⟨⟩

/-- Nothing but a copy runs out of the source, unless the ending itself says so. -/
theorem feed_ended_of_convey {s : Spelling} {total : Nat}
    (hs : s.ending.error? ≠ some (.unexpectedEndOfSource position missing))
    (h : (s.convey r total).1 = .error (.unexpectedEndOfSource position missing)) :
    (feed r (s.instructions.flatMap Instruction.steps)).1 =
      .error (.unexpectedEndOfSource position missing) := by
  rw [Spelling.convey, Spelling.steps, feed_append] at h
  rcases error_of_andThen h with hfeed | ⟨r₂, -, hlast⟩
  · rcases error_of_andThen hfeed with hfeed | ⟨r₁, -, hending⟩
    · exact hfeed
    · exact absurd hending (feed_ending_ne_ended s.ending)
  · cases he : s.ending.error? with
    | some e =>
      rw [he] at hlast
      cases hlast
      exact absurd he hs
    | none =>
      rw [he] at hlast
      rcases error_of_andThen hlast with hclose | ⟨r₃, -, hdone⟩
      · exact absurd hclose (flush_ne_ended r₂)
      · cases hdone

end Rebuilder

/-! ## Whole patches -/

theorem error?_ne_ended (b : OffsetBase) (bytes : List UInt8) {position missing : Nat} :
    (spell b bytes).ending.error? ≠ some (.unexpectedEndOfSource position missing) := by
  intro he
  cases hend : (spell b bytes).ending with
  | marker rest =>
    rw [hend] at he
    cases he
  | cutRecord =>
    rw [hend] at he
    cases he
  | cutPayload available =>
    rw [hend] at he
    cases he
  | unresolved e =>
    rw [hend] at he
    cases he
    obtain ⟨value, base, ⟨⟩, -⟩ := of_unresolved b bytes hend

/-- An end of the source tells of the first copy that reaches behind it. The numbers are those of
the copy, its start and how many of its bytes lie behind the end, if the copy is no longer than one
piece, and only then: of a longer copy they are those of the piece in which the source ends. -/
theorem source_end_reported {σ ρ ω : Type} [Source σ] [ByteReader ρ] [ByteOutput ω] {src : σ}
    {r : ρ} {out : ω} {patch source : List UInt8} (hs : Source.Serves src source)
    (hr : ByteReader.Delivers r patch) {position missing : Nat} {rebuilt : Rebuilder σ ω}
    (h : apply src r out = (.error (.unexpectedEndOfSource position missing), rebuilt)) :
    ∃ s front offset length back, spellPatch? patch = some s ∧
      s.instructions = front ++ .copy offset length :: back ∧
      (∀ i ∈ front, i.InRange source.length) ∧
      ¬ (Instruction.copy offset length).InRange source.length ∧
      .unexpectedEndOfSource position missing = shortfall source.length offset length ∧
      (position = offset ∧ missing = behindEnd source.length offset length ↔
        length ≤ pieceSize) := by
  obtain ⟨H, k, hH⟩ := hs
  rw [apply, convert_eq hr] at h
  cases hsp : spellPatch? patch with
  | none =>
    rw [hsp] at h
    cases h
  | some s =>
    have hending : s.ending.error? ≠ some (.unexpectedEndOfSource position missing) := by
      obtain ⟨mode, records, -, rfl⟩ := spellPatch?_eq_some_iff.mp hsp
      exact error?_ne_ended _ records
    rw [hsp] at h
    have hfeed := Rebuilder.feed_ended_of_convey hending (congrArg Prod.fst h)
    obtain ⟨front, offset, length, back, hi, hfront, hout, he⟩ :=
      Rebuilder.of_feed_ended k (r := ⟨src, out⟩) hH hfeed
    exact ⟨s, front, offset, length, back, rfl, hi, hfront, hout, he,
      shortfall_eq_copy_iff hout he⟩

/-- The second copy reaches behind the end by three bytes. -/
theorem source_end_reported_second :
    let instructions : List Instruction :=
      [.literal (packBytes [9]), .copy 1 2, .copy 2 5, .copy 0 4]
    let patch := packBytes (patchOf .differential instructions)
    let source := packBytes [1, 2, 3, 4]
    ∃ rebuilt : Rebuilder MemoryStream ByteArray,
      apply (⟨source, 0⟩ : MemoryStream) (⟨patch, 0⟩ : MemoryStream) ByteArray.empty =
        (.error (.unexpectedEndOfSource 2 3), rebuilt) ∧
      ∃ s front offset length back, spellPatch? patch.data.toList = some s ∧
        s.instructions = front ++ .copy offset length :: back ∧
        (∀ i ∈ front, i.InRange 4) ∧ ¬ (Instruction.copy offset length).InRange 4 ∧
        .unexpectedEndOfSource 2 3 = shortfall 4 offset length ∧
        (2 = offset ∧ 3 = behindEnd 4 offset length ↔ length ≤ pieceSize) := by
  intro instructions patch source
  have hspell : spellPatch? (patchOf .differential instructions ++ []) =
      some ⟨instructions, .marker []⟩ := spellPatch?_patchOf .differential (by decide) []
  rw [List.append_nil] at hspell
  have hsplit : instructions =
      [.literal (packBytes [9]), .copy 1 2] ++ .copy 2 5 :: [.copy 0 4] := rfl
  have hfront : ∀ i ∈ [.literal (packBytes [9]), Instruction.copy 1 2],
      i.InRange source.data.toList.length := by decide
  have hout : ¬ (Instruction.copy 2 5).InRange source.data.toList.length := by decide
  have hfails := Fails.copy hspell hsplit hfront hout
  rw [show source.data.toList.length = 4 from rfl] at hfails
  obtain ⟨rebuilt, happly⟩ := apply_of_fails (MemoryStream.holding_bytes source)
    ByteOutput.reliable_byteArray ⟨source, 0⟩ rfl _ (MemoryStream.delivers ⟨patch, 0⟩)
    ByteArray.empty rfl hfails
  obtain ⟨H, k, h⟩ := MemoryStream.holds ⟨source, 0⟩
  exact ⟨rebuilt, happly,
    source_end_reported ⟨H, k.serving, h⟩ (MemoryStream.delivers ⟨patch, 0⟩) happly⟩

/-- A copy of 140000 bytes over a source of 70000: it starts at 0 and 70000 of its bytes lie behind
the end, but what is told are the start of the second piece and what is missing of that. -/
theorem decode_long_copy :
    decode (packBytes (patchOf .normal [.copy 0 140000])) (zeroBytes 70000) =
        .error (.unexpectedEndOfSource 65536 61072) ∧
      behindEnd 70000 0 140000 = 70000 ∧ ¬ (65536 = 0 ∧ 61072 = behindEnd 70000 0 140000) := by
  refine ⟨decode_of_fails ?_, by rw [behindEnd_eq], nofun⟩
  have hspell : spellPatch? (patchOf .normal [.copy 0 140000] ++ []) =
      some ⟨[.copy 0 140000], .marker []⟩ := spellPatch?_patchOf .normal (by decide) []
  rw [List.append_nil] at hspell
  have hlength : (zeroBytes 70000).data.toList.length = 70000 := by
    rw [length_toList, size_zeroBytes]
  have hsplit : [Instruction.copy 0 140000] = [] ++ .copy 0 140000 :: [] := rfl
  have hout : ¬ (Instruction.copy 0 140000).InRange (zeroBytes 70000).data.toList.length := by
    rw [hlength]
    decide
  have hfails := Fails.copy hspell hsplit (List.forall_mem_nil _) hout
  rw [hlength] at hfails
  exact hfails

end BinaryDelta
