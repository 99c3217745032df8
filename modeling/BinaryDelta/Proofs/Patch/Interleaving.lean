import BinaryDelta.Proofs.Patch.Reading
import Mathlib

/-!
# Reading payloads or skipping them

A patch reader can be asked for the next command, for the next instruction and for some bytes of a
payload, in any order. What is left of a payload when the next command is asked for is skipped. So
the commands do not depend on which payloads were read, and how: a reader that is only asked for
commands gets the same ones.

The two readers do not stand at the same place of the patch, but the next record is at the same
place for both of them. That is the invariant (`Abreast`), together with what a single reader knows
about its own place (`Behind`).

* `Granted` answers are all but failures of the stream: a request for more of a payload than is left
  is refused, and the reader can be used on.
* `told` are the commands among the answers, those of instructions included, and `unread` is what the
  answers leave of the last payload.
* `Answered` lists what a call with such an answer did, in terms of commands and payload bytes.

Results:
* `Behind.answered`, `Abreast.answered`: every call keeps the invariants.
* **`interleaving_invisible`**: so any calls in any order tell the commands that are told without
  reading payloads, and payload bytes from their place.
-/

namespace BinaryDelta

/-! ## Histories -/

/-- The call succeeded, or it asked for too many payload bytes. -/
inductive Granted : ReaderCall → Except DeltaError ReaderAnswer → Prop
  | success (call : ReaderCall) (answer : ReaderAnswer) : Granted call (.ok answer)
  | refused (n requested left : Nat) :
      Granted (.payload n) (.error (.invalidConfig (.literalOverrun requested left)))

/-- The command that an answer tells, if it tells one. -/
def toldBy : Except DeltaError ReaderAnswer → List (Option Command)
  | .ok (.command command) => [command]
  | .ok (.instruction instruction) => [instruction.map Instruction.command]
  | .ok (.payload _) => []
  | .error _ => []

/-- The commands that were told. -/
def told (answers : List (Except DeltaError ReaderAnswer)) : List (Option Command) :=
  answers.flatMap toldBy

/-- What an answer leaves of the payload of which this much was left. -/
def unreadAfter (left : Nat) : Except DeltaError ReaderAnswer → Nat
  | .ok (.command command) => payloadLength command
  | .ok (.instruction _) => 0
  | .ok (.payload bytes) => left - bytes.size
  | .error _ => left

/-- What is left of the last payload. -/
def unread (answers : List (Except DeltaError ReaderAnswer)) : Nat := answers.foldl unreadAfter 0

/-- The bytes that are spelled are not only those behind the end marker. -/
theorem length_lt_of_spell (b : OffsetBase) (bytes : List UInt8) {rest : List UInt8}
    (h : (spell b bytes).ending = .marker rest) : rest.length < bytes.length := by
  fun_induction spell b bytes with
  | case1 b bytes hp => cases h
  | case2 b bytes rest' hp =>
    cases h
    exact Record.length_lt_of_parse? hp
  | case3 b bytes length rest' hp hl ih =>
    have hlen := Record.length_lt_of_parse? hp
    have hle := ih h
    rw [List.length_drop] at hle
    omega
  | case4 b bytes length rest' hp hl => cases h
  | case5 b bytes value length rest' hp e b' hd => cases h
  | case6 b bytes value length rest' hp offset b' hd ih =>
    exact Nat.lt_trans (ih h) (Record.length_lt_of_parse? hp)

namespace PatchReader

variable {ρ ρ' : Type} [ByteReader ρ] [ByteReader ρ'] {p p' : PatchReader ρ}
  {command : Option Command} {answer : Except DeltaError ReaderAnswer}

/-! ## One call -/

/-- What a call with a granted answer did. -/
inductive Answered (p : PatchReader ρ) : Except DeltaError ReaderAnswer → PatchReader ρ → Prop
  | command {command : Option Command} {p' : PatchReader ρ}
      (h : p.nextCommand = (.ok command, p')) : Answered p (.ok (.command command)) p'
  | instruction {instruction : Option Instruction} {p' : PatchReader ρ}
      (h : p.nextCommand = (.ok (instruction.map Instruction.command), p'))
      (h₀ : payloadLength (instruction.map Instruction.command) = 0) :
      Answered p (.ok (.instruction instruction)) p'
  | literal {piece : ByteArray} {p₁ p' : PatchReader ρ}
      (h : p.nextCommand = (.ok (some (.literal piece.size)), p₁))
      (hr : p₁.readLiteral piece.size = (.ok piece, p')) :
      Answered p (.ok (.instruction (some (.literal piece)))) p'
  | payload {n : Nat} {piece : ByteArray} {p' : PatchReader ρ}
      (h : p.readLiteral n = (.ok piece, p')) : Answered p (.ok (.payload piece)) p'
  | refused (e : DeltaError) : Answered p (.error e) p

/-- A refused request changes nothing. -/
theorem eq_of_readLiteral_refused {n : Nat} {problem : ConfigProblem}
    (h : p.readLiteral n = (.error (.invalidConfig problem), p')) : p' = p := by
  by_cases hlt : p.pending < n
  · rw [readLiteral_of_lt hlt] at h
    exact (Prod.mk.inj h).2.symm
  · rcases p with ⟨input, base, position, pending, finished⟩
    rw [readLiteral, if_neg hlt] at h
    split at h
    · rename_i shortfall _ _
      cases shortfall with
      | ended => cases h
      | fault fault => cases h
    · cases h

theorem answered {call : ReaderCall} (h : p.answer call = (answer, p'))
    (hg : Granted call answer) : Answered p answer p' := by
  cases call with
  | command =>
    rcases hn : p.nextCommand with ⟨e | command, p₁⟩ <;> simp only [PatchReader.answer, hn] at h <;>
      cases h
    · cases hg
    · exact .command hn
  | instruction =>
    rcases hn : p.nextInstruction with ⟨e | instruction, p₁⟩ <;>
      simp only [PatchReader.answer, hn] at h <;> cases h
    · cases hg
    · obtain ⟨hc, h₀⟩ | ⟨piece, p₁, rfl, hc, hr⟩ := of_nextInstruction hn
      · exact .instruction hc h₀
      · exact .literal hc hr
  | payload n =>
    rcases hn : p.readLiteral n with ⟨e | piece, p₁⟩ <;> simp only [PatchReader.answer, hn] at h <;>
      cases h
    · cases hg
      rw [eq_of_readLiteral_refused hn]
      exact .refused _
    · exact .payload hn

/-! ## One reader -/

/-- Where the next record is. -/
def place (p : PatchReader ρ) : Nat := p.position + p.pending

/-- As many bytes of the stream are consumed as the position says. -/
structure Stands (R : ρ → List UInt8 → Prop) (stream : List UInt8) (p : PatchReader ρ) : Prop where
  position_le : p.position ≤ stream.length
  input : R p.input (stream.drop p.position)

variable {R : ρ → List UInt8 → Prop} {R' : ρ' → List UInt8 → Prop} {stream : List UInt8}

/-- The next command is the one at the place of the next record, and the reader then stands behind
it. -/
theorem Stands.nextCommand (y : ByteReader.Yielding R) (h : p.Stands R stream)
    (hf : p.finished = false) (hn : p.nextCommand = (.ok command, p')) :
    p.place ≤ stream.length ∧ p'.Stands R stream ∧
      commandAt? p.base (stream.drop p.place) =
        some (command, p'.base, stream.drop p'.position) ∧
      p'.pending = payloadLength command ∧ p'.finished = command.isNone := by
  obtain ⟨b, rest, input, hle, hc, hrest, rfl⟩ := of_nextCommand y h.input hf hn
  have hpos := h.position_le
  have hlen := length_lt_of_commandAt? hc
  have hsuffix := (suffix_of_commandAt? hc).trans
    ((List.drop_suffix _ _).trans (List.drop_suffix _ _))
  rw [List.drop_drop] at hc hlen
  rw [List.length_drop] at hle hlen
  have hposition : p.position + ((stream.drop p.position).length - rest.length) =
      stream.length - rest.length := by
    rw [List.length_drop]
    omega
  have hat : rest = stream.drop (stream.length - rest.length) := List.suffix_iff_eq_drop.mp hsuffix
  rw [hposition, ← hat]
  exact ⟨by unfold place; omega, ⟨by dsimp only; omega, by rwa [← hat]⟩, hc, rfl, rfl⟩

/-- Payload bytes are read from where the reader stands. -/
theorem Stands.readLiteral (y : ByteReader.Yielding R) (h : p.Stands R stream) {n : Nat}
    {piece : ByteArray} (hr : p.readLiteral n = (.ok piece, p')) :
    n ≤ p.pending ∧ piece.size = n ∧ piece.data.toList = (stream.drop p.position).take n ∧
      p'.Stands R stream ∧ p'.base = p.base ∧ p'.position = p.position + n ∧
      p'.pending = p.pending - n ∧ p'.finished = p.finished := by
  obtain ⟨hn, hle, rfl, input, rfl, hrest⟩ := readLiteral_ok y h.input hr
  have hpos := h.position_le
  rw [List.length_drop] at hle
  rw [List.drop_drop] at hrest
  refine ⟨hn, ?_, rfl, ⟨by dsimp only; omega, hrest⟩, rfl, rfl, rfl, rfl⟩
  rw [size_packBytes, List.length_take_of_le (by rw [List.length_drop]; exact hle)]

/-- The reader has told these commands and stands where they lead to, with so much of the last
payload left to read. -/
structure Behind (R : ρ → List UInt8 → Prop) (stream : List UInt8)
    (commands : List (Option Command)) (left : Nat) (p : PatchReader ρ) : Prop
    extends p.Stands R stream where
  pending : p.pending = left
  finished_iff : p.finished = true ↔ none ∈ commands
  nothing_left : p.finished = true → left = 0
  marked : p.finished = true → ∃ is, spellPatch? stream = some ⟨is, .marker (stream.drop p.position)⟩
  unmarked : p.finished = false → ∃ s, spellPatch? stream = some s ∧
    (p.place ≤ stream.length → ∃ is, s = (spell p.base (stream.drop p.place)).behindAll is) ∧
    (stream.length < p.place → ∀ rest, s.ending ≠ .marker rest)

variable {commands : List (Option Command)} {left : Nat}

/-- A new reader stands behind the preamble. -/
theorem behind_ofReader (y : ByteReader.Yielding R) {r : ρ} (hr : R r stream)
    (h : ofReader r = .ok p) : Behind R stream [] 0 p := by
  obtain ⟨mode, records, input, rfl, rfl, hrest⟩ := of_ofReader y hr h
  have hlen : (preamble mode ++ records).length = preambleLength + records.length := by
    rw [List.length_append]
    rfl
  have hplace : place (ρ := ρ) { input, base := { mode } } = preambleLength := rfl
  refine { position_le := by rw [hlen]; exact Nat.le_add_right _ _, input := hrest, pending := rfl,
           finished_iff := by simp, nothing_left := fun _ => rfl, marked := nofun,
           unmarked := fun _ => ?_ }
  refine ⟨_, spellPatch?_eq_some_iff.mpr ⟨mode, records, rfl, rfl⟩, fun _ => ⟨[], rfl⟩,
    fun hlt => ?_⟩
  omega

/-- A command is told at the place of the next record, and then its payload is left to read. -/
theorem Behind.nextCommand (y : ByteReader.Yielding R) (h : Behind R stream commands left p)
    (hn : p.nextCommand = (.ok command, p')) :
    Behind R stream (commands ++ [command]) (payloadLength command) p' := by
  by_cases hf : p.finished = true
  · rw [nextCommand_finished hf] at hn
    cases hn
    obtain rfl := h.nothing_left hf
    exact { h with finished_iff := by simp [hf], nothing_left := fun _ => rfl }
  · rw [Bool.not_eq_true] at hf
    obtain ⟨hle, hstands, hc, hpending, hfinished⟩ := h.toStands.nextCommand y hf hn
    obtain ⟨s, hs, hwithin, -⟩ := h.unmarked hf
    obtain ⟨is, rfl⟩ := hwithin hle
    have hnone : none ∉ commands := fun hm => by
      rw [h.finished_iff.mpr hm] at hf
      cases hf
    have hplace : p'.place = p'.position + payloadLength command := by rw [place, hpending]
    have hpos := hstands.position_le
    cases command with
    | none =>
      rw [spell_of_commandAt?_none hc] at hs
      refine { hstands with pending := hpending, finished_iff := by simp [hfinished],
                            nothing_left := fun _ => rfl, marked := fun _ => ⟨is, ?_⟩,
                            unmarked := fun hun => ?_ }
      · rw [hs, Spelling.behindAll, Spelling.ends, List.append_nil]
      · rw [hfinished] at hun
        cases hun
    | some c =>
      refine { hstands with pending := hpending, finished_iff := by simp [hfinished, hnone],
                            nothing_left := fun hfin => ?_, marked := fun hfin => ?_,
                            unmarked := fun _ => ⟨_, hs, fun hin => ?_, fun hout => ?_⟩ }
      · rw [hfinished] at hfin
        cases hfin
      · rw [hfinished] at hfin
        cases hfin
      · obtain ⟨i, hi⟩ := spell_of_commandAt?_some hc (by rw [List.length_drop]; omega)
        rw [hi, Spelling.behindAll_behind, List.drop_drop, ← hplace]
        exact ⟨_, rfl⟩
      · rw [spell_of_commandAt?_cut hc (by rw [List.length_drop]; omega)]
        intro rest hend
        cases hend

/-- Payload bytes are told from where the reader stands, up to the place of the next record. -/
theorem Behind.readLiteral (y : ByteReader.Yielding R) (h : Behind R stream commands left p)
    {n : Nat} {piece : ByteArray} (hr : p.readLiteral n = (.ok piece, p')) :
    Behind R stream commands (left - piece.size) p' := by
  obtain ⟨hn, hsize, -, hstands, hbase, hposition, hpending, hfinished⟩ :=
    h.toStands.readLiteral y hr
  have hleft := h.pending
  have hplace : p'.place = p.place := by
    unfold place
    omega
  refine { hstands with pending := by omega, finished_iff := by rw [hfinished, h.finished_iff],
                        nothing_left := fun hfin => ?_, marked := fun hfin => ?_,
                        unmarked := fun hun => ?_ }
  · have := h.nothing_left (hfinished ▸ hfin)
    omega
  · have := h.nothing_left (hfinished ▸ hfin)
    rw [hposition, show n = 0 by omega]
    exact h.marked (hfinished ▸ hfin)
  · rw [hplace, hbase]
    exact h.unmarked (hfinished ▸ hun)

omit [ByteReader ρ] in
/-- A reader that stands behind the end marker has read it. -/
theorem Behind.finished_of_marked (h : Behind R stream commands left p)
    (hm : ∃ is, spellPatch? stream = some ⟨is, .marker (stream.drop p.position)⟩) :
    p.finished = true := by
  by_contra hun
  obtain ⟨is, his⟩ := hm
  obtain ⟨s, hs, hwithin, hbeyond⟩ := h.unmarked (by simpa using hun)
  obtain rfl := Option.some.inj (hs.symm.trans his)
  by_cases hle : p.place ≤ stream.length
  · obtain ⟨is', hall⟩ := hwithin hle
    have hend := congrArg Spelling.ending hall
    have hlt := length_lt_of_spell p.base (stream.drop p.place) hend.symm
    rw [List.length_drop, List.length_drop, PatchReader.place] at hlt
    omega
  · exact hbeyond (Nat.lt_of_not_le hle) _ rfl

/-- Every call with a granted answer keeps that. -/
theorem Behind.answered (y : ByteReader.Yielding R) (h : Behind R stream commands left p)
    (ha : Answered p answer p') :
    Behind R stream (commands ++ toldBy answer) (unreadAfter left answer) p' := by
  cases ha with
  | command hn => exact h.nextCommand y hn
  | instruction hn h₀ =>
    have hf := h.nextCommand y hn
    rwa [h₀] at hf
  | @literal piece p₁ _ hn hr =>
    have hf := (h.nextCommand y hn).readLiteral y hr
    rwa [payloadLength, Nat.sub_self] at hf
  | payload hr =>
    rw [toldBy, List.append_nil]
    exact h.readLiteral y hr
  | refused e =>
    rw [toldBy, List.append_nil]
    exact h

theorem Behind.answers (y : ByteReader.Yielding R) (h : Behind R stream commands left p)
    {calls : List ReaderCall} {answers : List (Except DeltaError ReaderAnswer)}
    (ha : p.answers calls = (answers, p')) (hg : List.Forall₂ Granted calls answers) :
    Behind R stream (commands ++ told answers) (answers.foldl unreadAfter left) p' := by
  induction hg generalizing p commands left with
  | nil =>
    cases ha
    rwa [told, List.flatMap_nil, List.append_nil]
  | @cons call answer calls answers hg _ ih =>
    rcases hone : p.answer call with ⟨a, p₁⟩
    rcases hall : p₁.answers calls with ⟨as, p₂⟩
    simp only [PatchReader.answers, hone, hall] at ha
    cases ha
    have hf := ih (h.answered y (PatchReader.answered hone hg)) hall
    rwa [List.append_assoc] at hf

/-! ## Two readers -/

/-- The next record is the same one for both readers. -/
structure Abreast (p : PatchReader ρ) (q : PatchReader ρ') : Prop where
  base : q.base = p.base
  finished : q.finished = p.finished
  place : q.place = p.place

variable {q : PatchReader ρ'}

/-- What one reader was told, one that delivers tells, too. -/
theorem Abreast.nextCommand (y : ByteReader.Yielding R) (d : ByteReader.Delivery R')
    (hp : p.Stands R stream) (hq : q.Stands R' stream) (h : Abreast p q)
    (hn : p.nextCommand = (.ok command, p')) :
    ∃ q', q.nextCommand = (.ok command, q') ∧ q'.Stands R' stream ∧ Abreast p' q' := by
  by_cases hf : p.finished = true
  · rw [nextCommand_finished hf] at hn
    cases hn
    exact ⟨q, nextCommand_finished (h.finished.trans hf), hq, h⟩
  · rw [Bool.not_eq_true] at hf
    obtain ⟨hle, hstands, hc, hpending, hfinished⟩ := hp.nextCommand y hf hn
    have hplace := h.place
    have hqpos := hq.position_le
    rw [← h.base, ← hplace, PatchReader.place, ← List.drop_drop] at hc
    unfold PatchReader.place at hle hplace
    obtain ⟨input, hqn, hrest⟩ := exists_nextCommand d hq.input (h.finished.trans hf)
      (by rw [List.length_drop]; omega) hc
    obtain ⟨-, hqstands, -⟩ := hq.nextCommand d.yielding (h.finished.trans hf) hqn
    refine ⟨_, hqn, hqstands, rfl, hfinished.symm, ?_⟩
    have hppos := hstands.position_le
    have hlt := length_lt_of_commandAt? hc
    rw [List.length_drop, List.length_drop, List.length_drop] at hlt
    unfold PatchReader.place
    rw [hpending]
    dsimp only
    rw [List.length_drop, List.length_drop]
    omega

omit [ByteReader ρ'] in
theorem Abreast.readLiteral (y : ByteReader.Yielding R) (hp : p.Stands R stream) (h : Abreast p q)
    {n : Nat} {piece : ByteArray} (hr : p.readLiteral n = (.ok piece, p')) : Abreast p' q := by
  obtain ⟨hn, -, -, -, hbase, hposition, hpending, hfinished⟩ := hp.readLiteral y hr
  refine ⟨h.base.trans hbase.symm, h.finished.trans hfinished.symm, h.place.trans ?_⟩
  unfold PatchReader.place
  omega

/-- Commands alone, as answers. -/
def commandAnswers (commands : List (Option Command)) : List (Except DeltaError ReaderAnswer) :=
  commands.map fun command => .ok (.command command)

/-- New readers are abreast. -/
theorem exists_abreast (y : ByteReader.Yielding R) {r : ρ} (hr : R r stream)
    (hp : ofReader r = .ok p) {r' : ρ'} (d : ByteReader.Delivery R') (hr' : R' r' stream) :
    ∃ q, ofReader r' = .ok q ∧ q.Stands R' stream ∧ Abreast p q := by
  obtain ⟨mode, records, input, rfl, rfl, -⟩ := of_ofReader y hr hp
  obtain ⟨input', hq, hrest⟩ := exists_ofReader d hr'
  have hpos : preambleLength ≤ (preamble mode ++ records).length := by
    rw [List.length_append]
    exact Nat.le_add_right _ _
  exact ⟨_, hq, ⟨hpos, hrest⟩, rfl, rfl, rfl⟩

/-- Whatever call one reader gets, the other one keeps abreast by commands alone. -/
theorem Abreast.answered (y : ByteReader.Yielding R) (d : ByteReader.Delivery R')
    (hp : Behind R stream commands left p) (hq : q.Stands R' stream) (h : Abreast p q)
    (ha : Answered p answer p') :
    ∃ q', q.answers (List.replicate (toldBy answer).length .command) =
        (commandAnswers (toldBy answer), q') ∧ q'.Stands R' stream ∧ Abreast p' q' := by
  have hone : ∀ {command : Option Command} {p₁ : PatchReader ρ},
      p.nextCommand = (.ok command, p₁) → ∃ q',
        q.answers (List.replicate 1 .command) = (commandAnswers [command], q') ∧
          q'.Stands R' stream ∧ Abreast p₁ q' := by
    intro command p₁ hn
    obtain ⟨q', hqn, hqs, hq'⟩ := h.nextCommand y d hp.toStands hq hn
    have hanswer : q.answer .command = (.ok (.command command), q') := by
      rw [PatchReader.answer, hqn]
      rfl
    exact ⟨q', answers_cons hanswer rfl, hqs, hq'⟩
  cases ha with
  | command hn => exact hone hn
  | instruction hn h₀ => exact hone hn
  | literal hn hr =>
    obtain ⟨q', hqn, hqs, hq'⟩ := hone hn
    exact ⟨q', hqn, hqs, hq'.readLiteral y (hp.nextCommand y hn).toStands hr⟩
  | payload hr => exact ⟨q, rfl, hq, h.readLiteral y hp.toStands hr⟩
  | refused e => exact ⟨q, rfl, hq, h⟩

theorem Abreast.answers (y : ByteReader.Yielding R) (d : ByteReader.Delivery R')
    (hp : Behind R stream commands left p) (hq : q.Stands R' stream) (h : Abreast p q)
    {calls : List ReaderCall} {answers : List (Except DeltaError ReaderAnswer)}
    (ha : p.answers calls = (answers, p')) (hg : List.Forall₂ Granted calls answers) :
    ∃ q', q.answers (List.replicate (told answers).length .command) =
      (commandAnswers (told answers), q') := by
  induction hg generalizing p q commands left with
  | nil => exact ⟨q, rfl⟩
  | @cons call answer calls answers hg _ ih =>
    rcases hone : p.answer call with ⟨a, p₁⟩
    rcases hall : p₁.answers calls with ⟨as, p₂⟩
    simp only [PatchReader.answers, hone, hall] at ha
    cases ha
    have hdid := PatchReader.answered hone hg
    obtain ⟨q₁, hq₁, hqs, habreast⟩ := h.answered y d hp hq hdid
    obtain ⟨q₂, hq₂⟩ := ih (hp.answered y hdid) hqs habreast hall
    refine ⟨q₂, ?_⟩
    rw [told, List.flatMap_cons, List.length_append, ← List.replicate_append_replicate,
      commandAnswers, List.map_append]
    exact answers_append hq₁ hq₂

/-! ## Any order of calls -/

/-- **Reading payloads or skipping them leaves no trace.** Over any stream and any reader of it, as
long as the calls succeed or are refused: the position counts the bytes consumed; a reader that is
asked for commands alone tells the same ones; the reader is finished when it has told the end, which
is when it stands behind the end marker, and then stays there; what is left of the payload cannot be
exceeded; and payload bytes are those of the stream at their place. -/
theorem interleaving_invisible (y : ByteReader.Yielding R) {r : ρ} (hr : R r stream)
    (hp : ofReader r = .ok p) {calls : List ReaderCall}
    {answers : List (Except DeltaError ReaderAnswer)} (h : p.answers calls = (answers, p'))
    (hg : List.Forall₂ Granted calls answers) :
    (p'.position ≤ stream.length ∧ R p'.input (stream.drop p'.position)) ∧
    (∀ {ρ' : Type} [ByteReader ρ'] {r' : ρ'}, ByteReader.Delivers r' stream → ∃ q q',
      ofReader r' = .ok q ∧ q.answers (List.replicate (told answers).length .command) =
        ((told answers).map fun command => .ok (.command command), q')) ∧
    (p'.finished = true ↔ none ∈ told answers) ∧
    (p'.finished = true ↔
      ∃ is, spellPatch? stream = some ⟨is, .marker (stream.drop p'.position)⟩) ∧
    (p'.finished = true →
      p'.nextCommand = (.ok none, p') ∧ p'.nextInstruction = (.ok none, p')) ∧
    (∀ n, unread answers < n → p'.readLiteral n =
      (.error (.invalidConfig (.literalOverrun n (unread answers))), p')) ∧
    (∀ n bytes p'', p'.readLiteral n = (.ok bytes, p'') → n ≤ unread answers ∧ bytes.size = n ∧
      bytes.data.toList = (stream.drop p'.position).take n) ∧
    (∀ bytes p'', p'.nextInstruction = (.ok (some (.literal bytes)), p'') →
      bytes.data.toList = (stream.drop (p''.position - bytes.size)).take bytes.size) := by
  have hstart := behind_ofReader y hr hp
  have hf := hstart.answers y h hg
  rw [List.nil_append, ← unread] at hf
  refine ⟨⟨hf.position_le, hf.input⟩, fun hd => ?_, hf.finished_iff, ⟨hf.marked, ?_⟩,
    fun hfin => ?_, fun n hn => ?_, fun n bytes p'' hn => ?_, fun bytes p'' hn => ?_⟩
  · obtain ⟨R', d, hr'⟩ := hd
    obtain ⟨q, hq, hqs, habreast⟩ := exists_abreast y hr hp d hr'
    obtain ⟨q', hq'⟩ := habreast.answers y d hstart hqs h hg
    exact ⟨q, q', hq, hq'⟩
  · exact hf.finished_of_marked
  · have hnext := nextCommand_finished hfin
    exact ⟨hnext, by rw [nextInstruction, hnext]⟩
  · rw [← hf.pending] at hn ⊢
    exact readLiteral_of_lt hn
  · obtain ⟨hle, hsize, hbytes, -⟩ := hf.toStands.readLiteral y hn
    exact ⟨hf.pending ▸ hle, hsize, hbytes⟩
  · obtain ⟨-, h₀⟩ | ⟨piece, p₁, ⟨⟩, hc, hr⟩ := of_nextInstruction hn
    · replace h₀ : bytes.size = 0 := h₀
      rw [ByteArray.size_eq_zero_iff.mp h₀]
      rfl
    · obtain ⟨-, -, hbytes, -, -, hposition, -⟩ := (hf.nextCommand y hc).toStands.readLiteral y hr
      rw [hposition, Nat.add_sub_cancel, hbytes]

/-- A payload that is read in part and too far, one that comes with its instruction, and calls behind
the end: the commands are those of five calls for commands alone. -/
theorem interleaving_invisible_mixed :
    let stream : List UInt8 :=
      [0xd1, 0xff, 0xd1, 0xff, 4, 249, 1, 44, 7, 5, 10, 11, 12, 13, 14, 3, 1, 2, 3, 0, 9]
    let calls : List ReaderCall :=
      [.command, .command, .payload 2, .payload 9, .instruction, .payload 0, .command, .instruction]
    let answers : List (Except DeltaError ReaderAnswer) :=
      [.ok (.command (some (.copy 300 7))), .ok (.command (some (.literal 5))),
        .ok (.payload (packBytes [10, 11])), .error (.invalidConfig (.literalOverrun 9 3)),
        .ok (.instruction (some (.literal (packBytes [1, 2, 3])))),
        .ok (.payload ByteArray.empty), .ok (.command none), .ok (.instruction none)]
    let commands : List (Option Command) :=
      [some (.copy 300 7), some (.literal 5), some (.literal 3), none, none]
    ∃ p p' : PatchReader MemoryStream, ofReader { bytes := packBytes stream } = .ok p ∧
      p.answers calls = (answers, p') ∧
      (∀ {ρ' : Type} [ByteReader ρ'] {r' : ρ'}, ByteReader.Delivers r' stream → ∃ q q',
        ofReader r' = .ok q ∧ q.answers (List.replicate 5 .command) =
          (commands.map fun command => .ok (.command command), q')) ∧
      ∃ is, spellPatch? stream = some ⟨is, .marker [9]⟩ := by
  intro stream calls answers commands
  let p : PatchReader MemoryStream := ⟨⟨packBytes stream, 5⟩, { mode := .normal }, 5, 0, false⟩
  let p' : PatchReader MemoryStream := ⟨⟨packBytes stream, 20⟩, { mode := .normal }, 20, 0, true⟩
  have hp : ofReader ({ bytes := packBytes stream } : MemoryStream) = .ok p := by cbv
  have hanswers : p.answers calls = (answers, p') := by cbv
  have hgranted : List.Forall₂ Granted calls answers :=
    .cons (.success _ _) (.cons (.success _ _) (.cons (.success _ _) (.cons (.refused _ _ _)
      (.cons (.success _ _) (.cons (.success _ _) (.cons (.success _ _)
        (.cons (.success _ _) .nil)))))))
  obtain ⟨-, halone, -, hmark, -⟩ :=
    interleaving_invisible MemoryStream.delivery_toCome.yielding rfl hp hanswers hgranted
  exact ⟨p, p', hp, hanswers, halone, hmark.mp rfl⟩

end PatchReader

end BinaryDelta
