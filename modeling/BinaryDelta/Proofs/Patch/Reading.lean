import BinaryDelta.Proofs.Patch.Convert
import BinaryDelta.Proofs.Stream.Yielding

/-!
# What a patch reader answers

Three calls take a patch from its reader: for the next command, for the next instruction, and for
some bytes of the payload behind a command. Here is what each of them does to the reader, told by the
bytes to come: of a call that succeeded over any reader, and of any call over one that delivers.

* `ReaderCall` and `ReaderAnswer` are the calls and what they answer, `PatchReader.answers` makes
  them one after the other.
* `commandAt?` is the command that bytes begin with, the offset base behind it and the bytes from
  there on.
* `ReadAs` says of a patch which instructions its readers answer, up to the end marker.

Results:
* `PatchReader.of_nextCommand`, `PatchReader.exists_nextCommand`: the next command is the one at the
  end of the unread payload.
* `PatchReader.readLiteral_of_lt`, `PatchReader.readLiteral_ok`: payload bytes are the next ones, or
  refused if there are too few in the payload.
* `PatchReader.of_nextInstruction`: an instruction is a command and its payload.
* `readAs_of_spell`: a patch that is read to its end gives the instructions it spells.
-/

namespace BinaryDelta

/-- A call to a patch reader. -/
inductive ReaderCall where
  | command
  | instruction
  | payload (n : Nat)
  deriving Repr, DecidableEq

/-- What a call answers. -/
inductive ReaderAnswer where
  | command (command : Option Command)
  | instruction (instruction : Option Instruction)
  | payload (bytes : ByteArray)

/-- The command of an instruction. -/
def Instruction.command : Instruction → Command
  | copy offset length => .copy offset length
  | literal bytes => .literal bytes.size

/-- The length of the payload behind a command. -/
def payloadLength : Option Command → Nat
  | some (.literal length) => length
  | _ => 0

/-! ## The command that bytes begin with -/

/-- The command of a record behind the previous copy, none for the end marker, and the offset base
behind it; nothing if its offset cannot be made absolute. -/
def Record.command? (b : OffsetBase) : Record → Option (Option Command × OffsetBase)
  | eof => some (none, b)
  | literal length => some (some (.literal length), b)
  | copy value length =>
    match b.decode value with
    | (.error _, _) => none
    | (.ok offset, b) => some (some (.copy offset length), b)

/-- The command that bytes begin with, with the offset base and the bytes behind it. -/
def commandAt? (b : OffsetBase) (bytes : List UInt8) :
    Option (Option Command × OffsetBase × List UInt8) :=
  (Record.parse? b.mode bytes).bind fun (record, rest) =>
    (record.command? b).map fun (command, b) => (command, b, rest)

section CommandAt

variable {b b' : OffsetBase} {bytes rest : List UInt8} {command : Option Command}

theorem commandAt?_eq_some : commandAt? b bytes = some (command, b', rest) ↔
    ∃ record, Record.parse? b.mode bytes = some (record, rest) ∧
      record.command? b = some (command, b') := by
  unfold commandAt?
  constructor
  · intro h
    obtain ⟨⟨record, rest'⟩, hp, hr⟩ := Option.bind_eq_some_iff.mp h
    obtain ⟨⟨command', b''⟩, hc, he⟩ := Option.map_eq_some_iff.mp hr
    cases he
    exact ⟨record, hp, hc⟩
  · rintro ⟨record, hp, hc⟩
    simp only [hp, Option.bind_some, hc, Option.map_some]

/-- The bytes behind the command are some of the bytes. -/
theorem suffix_of_commandAt? (h : commandAt? b bytes = some (command, b', rest)) :
    rest <:+ bytes := by
  obtain ⟨record, hp, -⟩ := commandAt?_eq_some.mp h
  exact Record.suffix_of_parse? hp

theorem length_lt_of_commandAt? (h : commandAt? b bytes = some (command, b', rest)) :
    rest.length < bytes.length := by
  obtain ⟨record, hp, -⟩ := commandAt?_eq_some.mp h
  exact Record.length_lt_of_parse? hp

theorem spell_of_commandAt?_none (h : commandAt? b bytes = some (none, b', rest)) :
    spell b bytes = .ends (.marker rest) := by
  obtain ⟨record, hp, hc⟩ := commandAt?_eq_some.mp h
  cases record with
  | eof => exact spell_marker hp
  | literal length => cases hc
  | copy value length =>
    simp only [Record.command?] at hc
    split at hc
    · cases hc
    · cases hc

/-- A command whose payload is there spells an instruction. -/
theorem spell_of_commandAt?_some {c : Command} (h : commandAt? b bytes = some (some c, b', rest))
    (hl : payloadLength (some c) ≤ rest.length) : ∃ i,
      spell b bytes = (spell b' (rest.drop (payloadLength (some c)))).behind i := by
  obtain ⟨record, hp, hc⟩ := commandAt?_eq_some.mp h
  cases record with
  | eof => cases hc
  | literal length =>
    cases hc
    exact ⟨.literal (packBytes (rest.take length)), (spell_literal hp).trans (if_pos hl)⟩
  | copy value length =>
    simp only [Record.command?] at hc
    split at hc
    · cases hc
    · rename_i hd
      cases hc
      exact ⟨_, spell_copy hp hd⟩

/-- What ends within the payload of its first command spells nothing. -/
theorem spell_of_commandAt?_cut {c : Command} (h : commandAt? b bytes = some (some c, b', rest))
    (hl : rest.length < payloadLength (some c)) : spell b bytes = .ends (.cutPayload rest) := by
  obtain ⟨record, hp, hc⟩ := commandAt?_eq_some.mp h
  cases record with
  | eof => cases hc
  | literal length =>
    cases hc
    exact (spell_literal hp).trans (if_neg (Nat.not_le_of_lt hl))
  | copy value length =>
    simp only [Record.command?] at hc
    split at hc
    · cases hc
    · cases hc
      cases hl

end CommandAt

namespace PatchReader

variable {ρ : Type} [ByteReader ρ]

/-- Makes a call. -/
def answer (p : PatchReader ρ) : ReaderCall → Except DeltaError ReaderAnswer × PatchReader ρ
  | .command => (p.nextCommand.1.map .command, p.nextCommand.2)
  | .instruction => (p.nextInstruction.1.map .instruction, p.nextInstruction.2)
  | .payload n => ((p.readLiteral n).1.map .payload, (p.readLiteral n).2)

/-- Makes calls one after the other, whether or not they succeed. -/
def answers (p : PatchReader ρ) :
    List ReaderCall → List (Except DeltaError ReaderAnswer) × PatchReader ρ
  | [] => ([], p)
  | call :: calls =>
    let (answer, p) := p.answer call
    let (answers, p) := p.answers calls
    (answer :: answers, p)

theorem answers_cons {p p₁ p₂ : PatchReader ρ} {call : ReaderCall} {calls : List ReaderCall}
    {answer : Except DeltaError ReaderAnswer} {answers : List (Except DeltaError ReaderAnswer)}
    (h : p.answer call = (answer, p₁)) (hs : p₁.answers calls = (answers, p₂)) :
    p.answers (call :: calls) = (answer :: answers, p₂) := by
  simp only [PatchReader.answers, h, hs]

/-- Calls can be made in two goes. -/
theorem answers_append {p p₁ p₂ : PatchReader ρ} {calls calls' : List ReaderCall}
    {answers answers' : List (Except DeltaError ReaderAnswer)} (h : p.answers calls = (answers, p₁))
    (h' : p₁.answers calls' = (answers', p₂)) :
    p.answers (calls ++ calls') = (answers ++ answers', p₂) := by
  induction calls generalizing p answers with
  | nil =>
    cases h
    exact h'
  | cons call calls ih =>
    rcases ha : p.answer call with ⟨answer, q⟩
    rcases hs : q.answers calls with ⟨answers₁, q₁⟩
    simp only [PatchReader.answers, ha, hs] at h
    cases h
    exact answers_cons ha (ih hs)

omit [ByteReader ρ] in
/-- Accepting a record is taking its command. -/
theorem accept_eq_ok_iff {input : ρ} {b : OffsetBase} {position : Nat} {record : Record}
    {command : Option Command} {p : PatchReader ρ} :
    accept input b position record = (.ok command, p) ↔ ∃ b', record.command? b = some (command, b')
      ∧ p = ⟨input, b', position, payloadLength command, command.isNone⟩ := by
  cases record with
  | eof =>
    constructor
    · rintro ⟨⟩
      exact ⟨b, rfl, rfl⟩
    · rintro ⟨b', ⟨⟩, rfl⟩
      rfl
  | literal length =>
    constructor
    · rintro ⟨⟩
      exact ⟨b, rfl, rfl⟩
    · rintro ⟨b', ⟨⟩, rfl⟩
      rfl
  | copy value length =>
    rcases hd : b.decode value with ⟨e | offset, b₁⟩
    · constructor
      · intro h
        simp [accept, hd] at h
      · rintro ⟨b', h, -⟩
        simp [Record.command?, hd] at h
    · simp only [accept, Record.command?, hd]
      constructor
      · rintro ⟨⟩
        exact ⟨b₁, rfl, rfl⟩
      · rintro ⟨b', ⟨⟩, rfl⟩
        rfl

variable {R : ρ → List UInt8 → Prop} {p p' : PatchReader ρ} {bytes : List UInt8}
  {command : Option Command}

/-! ## Calls that succeed -/

/-- Skipping what is unread takes it off the bytes to come. -/
theorem of_skipPending (y : ByteReader.Yielding R) (h : R p.input bytes)
    (hs : p.skipPending = (.ok (), p')) : p.pending ≤ bytes.length ∧ ∃ input,
      p' = ⟨input, p.base, p.position + p.pending, 0, p.finished⟩ ∧
        R input (bytes.drop p.pending) := by
  rcases p with ⟨input, base, position, pending, finished⟩
  simp only [skipPending] at hs
  split at hs
  · cases hs
  · rename_i hu
    split at hs
    · cases hs
    · rename_i skipped input' hlt
      cases hs
      obtain ⟨hle, -, hrest⟩ := y.of_readUpTo h hu
      have hmost := ByteReader.size_le_of_readUpTo hu
      obtain rfl : skipped.size = pending := by omega
      exact ⟨hle, input', rfl, hrest⟩

/-- Behind the end there is no next command. -/
theorem nextCommand_finished (h : p.finished = true) : p.nextCommand = (.ok none, p) := by
  rw [nextCommand, if_pos h]

/-- Behind a command, its payload is unread. -/
theorem pending_of_nextCommand (hn : p.nextCommand = (.ok command, p')) :
    (p.finished = true ∧ command = none ∧ p' = p) ∨
      (p'.pending = payloadLength command ∧ p'.finished = command.isNone) := by
  by_cases hf : p.finished = true
  · rw [nextCommand_finished hf] at hn
    cases hn
    exact .inl ⟨hf, rfl, rfl⟩
  · rw [nextCommand, if_neg hf] at hn
    split at hn
    · cases hn
    · split at hn
      · cases hn
      · obtain ⟨b, -, rfl⟩ := accept_eq_ok_iff.mp hn
        exact .inr ⟨rfl, rfl⟩

/-- The next command is the one behind what is unread of the last payload. -/
theorem of_nextCommand (y : ByteReader.Yielding R) (h : R p.input bytes)
    (hf : p.finished = false) (hn : p.nextCommand = (.ok command, p')) :
    ∃ b rest input, p.pending ≤ bytes.length ∧
      commandAt? p.base (bytes.drop p.pending) = some (command, b, rest) ∧ R input rest ∧
        p' = ⟨input, b, p.position + (bytes.length - rest.length), payloadLength command,
          command.isNone⟩ := by
  rw [nextCommand, if_neg (by rw [hf]; decide)] at hn
  split at hn
  · cases hn
  · rename_i hs
    obtain ⟨hle, input, he, hinput⟩ := of_skipPending y h hs
    cases he
    split at hn
    · cases hn
    · rename_i hr
      obtain ⟨rest, hp, hrest, hlen⟩ := y.of_readRecord hinput hr
      obtain ⟨b, hc, rfl⟩ := accept_eq_ok_iff.mp hn
      rw [List.length_drop] at hlen
      refine ⟨b, rest, _, hle, commandAt?_eq_some.mpr ⟨_, hp, hc⟩, hrest, ?_⟩
      congr 1
      omega

/-- More than what is unread of the payload is refused. -/
theorem readLiteral_of_lt {n : Nat} (h : p.pending < n) :
    p.readLiteral n = (.error (.invalidConfig (.literalOverrun n p.pending)), p) := by
  rcases p with ⟨input, base, position, pending, finished⟩
  rw [readLiteral, if_pos h]

/-- Payload bytes that were read are the next ones. -/
theorem readLiteral_ok (y : ByteReader.Yielding R) (h : R p.input bytes) {n : Nat}
    {piece : ByteArray} (hr : p.readLiteral n = (.ok piece, p')) :
    n ≤ p.pending ∧ n ≤ bytes.length ∧ piece = packBytes (bytes.take n) ∧ ∃ input,
      p' = ⟨input, p.base, p.position + n, p.pending - n, p.finished⟩ ∧
        R input (bytes.drop n) := by
  rcases p with ⟨input, base, position, pending, finished⟩
  rw [readLiteral] at hr
  split at hr
  · cases hr
  · rename_i hle
    split at hr
    · cases hr
    · rename_i hx
      cases hr
      obtain ⟨hlen, rfl, hrest⟩ := y.of_readExact h hx
      exact ⟨Nat.le_of_not_lt hle, hlen, rfl, _, rfl, hrest⟩

/-- To read a whole payload is to ask for all of it. -/
theorem readLiteral_of_readPayload {piece : ByteArray} (h : p.readPayload = (.ok piece, p')) :
    piece.size = p.pending ∧ p.readLiteral p.pending = (.ok piece, p') := by
  rcases p with ⟨input, base, position, pending, finished⟩
  simp only [readPayload] at h
  split at h
  · cases h
  · rename_i hu
    split at h
    · cases h
    · rename_i hlt
      cases h
      have hmost := ByteReader.size_le_of_readUpTo hu
      have hsize : piece.size = pending := by omega
      refine ⟨hsize, ?_⟩
      simp only [readLiteral, if_neg (Nat.lt_irrefl _), ByteReader.readExact, hu, hsize]

/-- An instruction is a command and the payload behind it. -/
theorem of_nextInstruction {instruction : Option Instruction}
    (h : p.nextInstruction = (.ok instruction, p')) :
    (p.nextCommand = (.ok (instruction.map Instruction.command), p') ∧
      payloadLength (instruction.map Instruction.command) = 0) ∨
    ∃ piece p₁, instruction = some (.literal piece) ∧
      p.nextCommand = (.ok (some (.literal piece.size)), p₁) ∧
        p₁.readLiteral piece.size = (.ok piece, p') := by
  unfold nextInstruction at h
  split at h
  · cases h
  · rename_i hn
    cases h
    exact .inl ⟨hn, rfl⟩
  · rename_i hn
    cases h
    exact .inl ⟨hn, rfl⟩
  · rename_i length p₁ hn
    split at h
    · cases h
    · rename_i piece p₂ hp
      cases h
      obtain ⟨hsize, hr⟩ := readLiteral_of_readPayload hp
      obtain ⟨-, ⟨⟩, -⟩ | ⟨hpending, -⟩ := pending_of_nextCommand hn
      replace hpending : p₁.pending = length := hpending
      rw [hpending] at hsize hr
      rw [← hsize] at hn hr
      exact .inr ⟨piece, p₁, rfl, hn, hr⟩

/-- A new reader has read the preamble. -/
theorem of_ofReader (y : ByteReader.Yielding R) {r : ρ} {stream : List UInt8} (hr : R r stream)
    (h : ofReader r = .ok p) : ∃ mode records input, stream = preamble mode ++ records ∧
      p = { input, base := { mode } } ∧ R input records := by
  unfold ofReader readPreamble at h
  split at h
  · cases h
  · rename_i hp
    split at hp
    · cases hp
    · cases hp
    · rename_i hx
      obtain ⟨hle, rfl, hrest⟩ := y.of_readExact hr hx
      split at hp
      · cases hp
      · rename_i hm
        cases hp
        cases h
        rw [data_packBytes, List.toList_toArray, modeOfPreamble?_take] at hm
        obtain ⟨records, rfl⟩ := modeOfPreamble?_eq_some_iff.mp hm
        exact ⟨_, records, _, rfl, rfl, hrest⟩

/-! ## Calls over a reader that delivers -/

theorem skipPending_delivery (d : ByteReader.Delivery R) (h : R p.input bytes)
    (hl : p.pending ≤ bytes.length) : ∃ input,
      p.skipPending = (.ok (), ⟨input, p.base, p.position + p.pending, 0, p.finished⟩) ∧
        R input (bytes.drop p.pending) := by
  rcases p with ⟨input, base, position, pending, finished⟩
  obtain ⟨input', hu, hrest⟩ := d.readUpTo h pending
  have hlen : (packBytes (bytes.take pending)).size = pending := by
    rw [size_packBytes, List.length_take_of_le hl]
  refine ⟨input', ?_, hrest⟩
  simp only [skipPending, hu, hlen, if_neg (Nat.lt_irrefl _)]

/-- The command behind the unread payload is there to be read. -/
theorem exists_nextCommand (d : ByteReader.Delivery R) (h : R p.input bytes)
    (hf : p.finished = false) (hl : p.pending ≤ bytes.length) {b : OffsetBase} {rest : List UInt8}
    (hc : commandAt? p.base (bytes.drop p.pending) = some (command, b, rest)) : ∃ input,
      p.nextCommand = (.ok command, ⟨input, b, p.position + (bytes.length - rest.length),
        payloadLength command, command.isNone⟩) ∧ R input rest := by
  obtain ⟨record, hp, hcommand⟩ := commandAt?_eq_some.mp hc
  have hlen := Record.length_lt_of_parse? hp
  obtain ⟨input₁, hs, hrest₁⟩ := skipPending_delivery d h hl
  obtain ⟨input, hr, hrest⟩ := d.readRecord hrest₁ hp (p.position + p.pending)
  refine ⟨input, ?_, hrest⟩
  rw [nextCommand, if_neg (by rw [hf]; decide), hs]
  simp only [hr]
  rw [List.length_drop] at hlen ⊢
  refine accept_eq_ok_iff.mpr ⟨b, hcommand, ?_⟩
  congr 1
  omega

theorem exists_readPayload (d : ByteReader.Delivery R) (h : R p.input bytes)
    (hl : p.pending ≤ bytes.length) : ∃ input, p.readPayload =
      (.ok (packBytes (bytes.take p.pending)),
        ⟨input, p.base, p.position + p.pending, 0, p.finished⟩) ∧
          R input (bytes.drop p.pending) := by
  rcases p with ⟨input, base, position, pending, finished⟩
  obtain ⟨input', hu, hrest⟩ := d.readUpTo h pending
  have hlen : (packBytes (bytes.take pending)).size = pending := by
    rw [size_packBytes, List.length_take_of_le hl]
  refine ⟨input', ?_, hrest⟩
  simp only [readPayload, hu, hlen, if_neg (Nat.lt_irrefl _), Nat.sub_self]

/-- The instructions that are spelled up to an end marker are answered one after the other, and
there is none behind them. -/
theorem exists_instructions (d : ByteReader.Delivery R) {b : OffsetBase} (h : Before R p b bytes)
    {rest : List UInt8} (hs : (spell b bytes).ending = .marker rest) :
    ∃ p', p.answers (List.replicate ((spell b bytes).instructions.length + 1) .instruction) =
      ((spell b bytes).instructions.map (fun i => .ok (.instruction (some i))) ++
        [.ok (.instruction none)], p') := by
  fun_induction spell b bytes generalizing p with
  | case1 b bytes hp => cases hs
  | case2 b bytes rest' hp =>
    obtain ⟨input, hn, -⟩ := nextCommand_of_parse d h hp
    have ha : p.answer .instruction = (.ok (.instruction none), p.nextCommand.2) := by
      rw [answer, nextInstruction, hn]
      rfl
    exact ⟨_, answers_cons ha rfl⟩
  | case3 b bytes length rest' hp hl ih =>
    obtain ⟨input, hn, hrest⟩ := nextCommand_of_parse d h hp
    let q : PatchReader ρ := ⟨input, b, p.position + (bytes.length - rest'.length), length, false⟩
    obtain ⟨input', hr, hrest'⟩ := exists_readPayload (p := q) d hrest hl
    have ha : p.answer .instruction =
        (.ok (.instruction (some (.literal (packBytes (rest'.take length))))), q.readPayload.2) := by
      rw [answer, nextInstruction, hn]
      simp only [accept]
      rw [hr]
      rfl
    rw [hr] at ha
    obtain ⟨p', hp'⟩ := ih (p := ⟨input', b, q.position + length, 0, false⟩)
      ⟨hrest', rfl, rfl, rfl⟩ hs
    exact ⟨p', answers_cons ha hp'⟩
  | case4 b bytes length rest' hp hl => cases hs
  | case5 b bytes value length rest' hp e b' hd => cases hs
  | case6 b bytes value length rest' hp offset b' hd ih =>
    obtain ⟨input, hn, hrest⟩ := nextCommand_of_parse d h hp
    simp only [accept, hd] at hn
    have ha : p.answer .instruction =
        (.ok (.instruction (some (.copy offset length))), p.nextCommand.2) := by
      rw [answer, nextInstruction, hn]
      rfl
    rw [hn] at ha
    obtain ⟨p', hp'⟩ := ih (p := p.nextCommand.2) (by rw [hn]; exact ⟨hrest, rfl, rfl, rfl⟩) hs
    rw [hn] at hp'
    exact ⟨p', answers_cons ha hp'⟩

end PatchReader

theorem exists_ofReader {ρ : Type} [ByteReader ρ] {R : ρ → List UInt8 → Prop}
    (d : ByteReader.Delivery R) {r : ρ} {mode : Mode} {records : List UInt8}
    (h : R r (preamble mode ++ records)) : ∃ input,
      PatchReader.ofReader r = .ok { input, base := { mode } } ∧ R input records := by
  have hm : modeOfPreamble? (preamble mode ++ records) = some mode :=
    modeOfPreamble?_eq_some_iff.mpr ⟨records, rfl⟩
  obtain ⟨input, hp, hrest⟩ := d.readPreamble h hm
  exact ⟨input, by rw [PatchReader.ofReader, hp], hrest⟩

/-- Every reader that delivers the patch answers these instructions one after the other, and behind
them that there are no more. -/
def ReadAs (patch : List UInt8) (is : List Instruction) : Prop :=
  ∀ (ρ : Type) [ByteReader ρ] (r : ρ), ByteReader.Delivers r patch →
    ∃ p p', PatchReader.ofReader r = .ok p ∧
      p.answers (List.replicate (is.length + 1) .instruction) =
        (is.map (fun i => .ok (.instruction (some i))) ++ [.ok (.instruction none)], p')

/-- A patch that is read to its end gives the instructions it spells. -/
theorem readAs_of_spell {patch rest : List UInt8} {is : List Instruction}
    (hs : spellPatch? patch = some ⟨is, .marker rest⟩) : ReadAs patch is := by
  rintro ρ _ r ⟨R, d, hr⟩
  obtain ⟨mode, records, rfl, hspell⟩ := spellPatch?_eq_some_iff.mp hs
  obtain ⟨input, hp, hrest⟩ := exists_ofReader d hr
  have hend : (spell ⟨mode, 0⟩ records).ending = .marker rest := by rw [← hspell]
  have hall := PatchReader.exists_instructions d
    (p := { input, base := { mode } }) ⟨hrest, rfl, rfl, rfl⟩ hend
  rw [← hspell] at hall
  obtain ⟨p', hp'⟩ := hall
  exact ⟨_, p', hp, hp'⟩

end BinaryDelta
