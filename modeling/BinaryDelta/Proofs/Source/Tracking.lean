import BinaryDelta.Proofs.Source.Seeking
import Mathlib.Control.Monad.Basic

/-!
# What a source remembers of its reader

A reader that can seek may fail at any call, and then it may stand anywhere. A source over such a
reader seeks relative to the position that it remembers, and not at all where it believes to be, so
one failure that it overlooked would make it hand out wrong bytes from then on. It overlooks none:
every call either moves the remembered position just as it moves the reader, or forgets it.

* `SeekableReader.Stands` says of readers that they read one byte string at the place where they
  stand, as long as they do not fail.
* `SeekingSource.Used` holds of what a source becomes by calls of any kind, failed ones included.
* `SeekingSource.Remembers` says that a remembered position is where the reader stands.

Results:
* `Remembers.moveTo`, `Remembers.read`: every call keeps that.
* `SeekingSource.serving_remembers`: what such a source delivers are the bytes at the position asked
  for.
* **`SeekingSource.used_faithful`**: so it is at any time, whatever failed before.
-/

namespace BinaryDelta

/-! ## Exact reads -/

namespace Source

variable {σ : Type} [Source σ] {I : σ → Prop}

/-- What every positioned read keeps is kept by repeated ones. -/
theorem kept_readSomeAt (hI : ∀ {s : σ} (position n : Nat), I s → I (readAt s position n).2) {s : σ}
    (h : I s) (position n : Nat) : I (readSomeAt s position n).2 := by
  fun_induction readSomeAt s position n with
  | case1 s piece s' hr =>
    have hkept := hI position n h
    rwa [hr] at hkept
  | case2 s fault s' hr =>
    have hkept := hI position n h
    rwa [hr] at hkept
  | case3 s s' hr ih =>
    have hkept := hI position n h
    rw [hr] at hkept
    exact ih hkept

theorem kept_readExactAtAfter
    (hI : ∀ {s : σ} (position n : Nat), I s → I (readAt s position n).2) {s : σ} (h : I s)
    (acc : ByteArray) (position n : Nat) : I (readExactAtAfter acc s position n).2 := by
  fun_induction readExactAtAfter acc s position n with
  | case1 => exact h
  | case2 acc s position n _ fault s' hr =>
    have hkept := kept_readSomeAt hI h position n
    rwa [hr] at hkept
  | case3 acc s position n _ piece s' hr =>
    have hkept := kept_readSomeAt hI h position n
    rwa [hr] at hkept
  | case4 acc s position n _ piece s' hr _ ih =>
    have hkept := kept_readSomeAt hI h position n
    rw [hr] at hkept
    exact ih hkept

/-- What every positioned read keeps is kept by exact ones. -/
theorem kept_readExactAt (hI : ∀ {s : σ} (position n : Nat), I s → I (readAt s position n).2)
    {s : σ} (h : I s) (position n : Nat) : I (readExactAt s position n).2 := by
  have hkept := kept_readExactAtAfter hI h ByteArray.empty position n
  unfold readExactAt
  split <;> rename_i hr <;> rwa [hr] at hkept

/-- An exact read that succeeds appends the bytes at its position, as many as were asked for. -/
theorem Serving.append_of_readExactAtAfter {bytes : List UInt8} (k : Serving I bytes) {s s' : σ}
    (h : I s) {acc whole : ByteArray} {position n : Nat}
    (hr : Source.readExactAtAfter acc s position n = (.ok (.inl whole), s')) :
    ∃ piece, whole = acc ++ piece ∧ piece.size = n ∧ piece.data.toList <+: bytes.drop position := by
  fun_induction Source.readExactAtAfter acc s position n with
  | case1 acc s position =>
    cases hr
    exact ⟨ByteArray.empty, ByteArray.append_empty.symm, rfl, List.nil_prefix⟩
  | case2 => cases hr
  | case3 => cases hr
  | case4 acc s position n _ front s₁ hd _ ih =>
    have hle := size_le_of_readSomeAt hd
    obtain ⟨h', ⟨rest, hb⟩, -⟩ := k.of_readSomeAt h hd
    obtain ⟨piece, rfl, hsize, rest', hrest⟩ := ih h' hr
    refine ⟨front ++ piece, ByteArray.append_assoc, ?_, rest', ?_⟩
    · rw [ByteArray.size_append]
      omega
    · rw [← List.drop_drop, hb, ← length_toList front, List.drop_left] at hrest
      rw [toList_append, List.append_assoc, hrest, hb]

/-- An exact read that succeeds delivers the bytes of its range. -/
theorem Serving.toList_of_readExactAt {bytes : List UInt8} (k : Serving I bytes) {s s' : σ}
    (h : I s) {piece : ByteArray} {position n : Nat}
    (hr : Source.readExactAt s position n = (.ok piece, s')) :
    piece.data.toList = (bytes.drop position).take n ∧ piece.size = n := by
  unfold Source.readExactAt at hr
  split at hr
  · cases hr
  · cases hr
  · rename_i hd
    cases hr
    obtain ⟨piece', rfl, hsize, hprefix⟩ := k.append_of_readExactAtAfter h hd
    rw [ByteArray.empty_append]
    refine ⟨?_, hsize⟩
    rw [List.prefix_iff_eq_take.mp hprefix, length_toList, hsize]

end Source

/-! ## Readers that may fail -/

/-- Readers of one byte string, each of which stands at some place of it. As long as a call
succeeds, a read delivers bytes from there on and moves behind them, none only at the end, and a
seek moves to its goal. After any other call the reader may stand anywhere. -/
structure SeekableReader.Stands {ρ : Type} [SeekableReader ρ] (I : ρ → Prop) (place : ρ → Nat)
    (bytes : List UInt8) : Prop where
  kept_read : ∀ {r : ρ} (n : Nat), I r → I (ByteReader.read r n).2
  kept_seek : ∀ {r : ρ} (goal : SeekTo), I r → I (SeekableReader.seek r goal).2
  kept_seekBy : ∀ {r : ρ} (offset : Int), I r → I (SeekableReader.seekBy r offset).2
  data : ∀ {r r' : ρ} {n : Nat} {piece : ByteArray}, I r →
    ByteReader.read r n = (.data piece, r') →
      place r' = place r + piece.size ∧ piece.data.toList <+: bytes.drop (place r) ∧
        (piece.size = 0 → n = 0 ∨ bytes.length ≤ place r)
  seek : ∀ {r r' : ρ} {goal : SeekTo} {reached : Nat}, I r →
    SeekableReader.seek r goal = (.reached reached, r') →
      goal.resolve bytes.length (place r) = some reached ∧ place r' = reached
  seekBy : ∀ {r r' : ρ} {offset : Int}, I r → SeekableReader.seekBy r offset = (.reached (), r') →
    (SeekTo.current offset).resolve bytes.length (place r) = some (place r')

namespace SeekingSource

variable {ρ : Type} [SeekableReader ρ] {I : ρ → Prop} {place : ρ → Nat} {bytes : List UInt8}

/-- What a source becomes by calls of any kind, those that fail included. -/
inductive Used (s₀ : SeekingSource ρ) : SeekingSource ρ → Prop where
  | new : Used s₀ s₀
  | seek {s : SeekingSource ρ} (goal : Nat) : Used s₀ s → Used s₀ (s.moveTo goal).2
  | read {s : SeekingSource ρ} (n : Nat) : Used s₀ s → Used s₀ (s.read n).2
  | readAt {s : SeekingSource ρ} (position n : Nat) : Used s₀ s →
    Used s₀ (Source.readAt s position n).2
  | readExactAt {s : SeekingSource ρ} (position n : Nat) : Used s₀ s →
    Used s₀ (Source.readExactAt s position n).2

/-- The measured length is that of the bytes, and a remembered position is where the reader
stands. -/
structure Remembers (I : ρ → Prop) (place : ρ → Nat) (bytes : List UInt8) (s : SeekingSource ρ) :
    Prop where
  reader : I s.input
  length_eq : s.span.length = bytes.length
  position_eq : ∀ p ∈ s.position, p = place s.input

omit [SeekableReader ρ] in
/-- A seek of the reader leaves the source right if it ends at its goal, is interrupted or fails. -/
theorem remembers_settle {α : Type} {span : Span} (hl : span.length = bytes.length) {goal : Nat}
    {answer : Moved α × ρ} (hi : I answer.2)
    (hgoal : ∀ {a : α} {r : ρ}, answer = (.reached a, r) → place r = goal) :
    (settle span goal answer).2.Remembers I place bytes := by
  rcases answer with ⟨a | _ | fault, r⟩
  · refine ⟨hi, hl, ?_⟩
    rintro p ⟨⟩
    exact (hgoal rfl).symm
  · exact ⟨hi, hl, nofun⟩
  · exact ⟨hi, hl, nofun⟩

theorem Remembers.moveTo (d : SeekableReader.Stands I place bytes) {s : SeekingSource ρ}
    (h : s.Remembers I place bytes) (goal : Nat) :
    (s.moveTo goal).2.Remembers I place bytes := by
  rcases s with ⟨input, span, position⟩
  obtain ⟨hi, hl, hp⟩ := h
  dsimp only at hi hl hp
  simp only [SeekingSource.moveTo]
  split
  · exact ⟨hi, hl, hp⟩
  · cases position with
    | none =>
      refine remembers_settle hl (d.kept_seek _ hi) fun hs => ?_
      obtain ⟨hgoal, hplace⟩ := d.seek hi hs
      exact hplace.trans (Option.some.inj hgoal).symm
    | some here =>
      dsimp only
      split
      · exact ⟨hi, hl, hp⟩
      · refine remembers_settle hl (d.kept_seekBy _ hi) fun hs => ?_
        -- the seek is relative to where the reader stands, since that is what is remembered
        have hgoal := d.seekBy hi hs
        rw [← hp here rfl, SeekTo.resolve, Int.add_comm, Int.sub_add_cancel] at hgoal
        exact (Option.some.inj hgoal).symm

/-- After a seek that succeeded the reader stands at the goal. -/
theorem position_of_moveTo {s s' : SeekingSource ρ} {goal : Nat}
    (h : s.moveTo goal = (.reached (), s')) : s'.position = some goal := by
  rcases s with ⟨input, span, position⟩
  have hsettle {α : Type} {answer : Moved α × ρ}
      (h : settle span goal answer = (.reached (), s')) : s'.position = some goal := by
    rcases answer with ⟨a | _ | fault, r⟩ <;> cases h
    rfl
  simp only [SeekingSource.moveTo] at h
  split at h
  · cases h
  · split at h
    · split at h
      · rename_i heq
        cases h
        rw [heq]
      · exact hsettle h
    · exact hsettle h

theorem Remembers.read (d : SeekableReader.Stands I place bytes) {s : SeekingSource ρ}
    (h : s.Remembers I place bytes) (n : Nat) : (s.read n).2.Remembers I place bytes := by
  rcases s with ⟨input, span, position⟩
  obtain ⟨hi, hl, hp⟩ := h
  have hkept := d.kept_read n hi
  simp only [SeekingSource.read]
  split
  · rename_i piece input' hr
    rw [hr] at hkept
    refine ⟨hkept, hl, fun p hpos => ?_⟩
    obtain ⟨q, hq, rfl⟩ := Option.map_eq_some_iff.mp hpos
    rw [hp q hq, (d.data hi hr).1]
  · rename_i input' hr
    rw [hr] at hkept
    exact ⟨hkept, hl, fun p hpos => absurd hpos (by simp)⟩
  · rename_i fault input' hr
    rw [hr] at hkept
    exact ⟨hkept, hl, fun p hpos => absurd hpos (by simp)⟩

theorem Remembers.readAt (d : SeekableReader.Stands I place bytes) {s : SeekingSource ρ}
    (position n : Nat) (h : s.Remembers I place bytes) :
    (Source.readAt s position n).2.Remembers I place bytes := by
  have hmoved := h.moveTo d position
  unfold Source.readAt
  split
  · exact h
  · split
    · rename_i hs
      replace hs : s.moveTo position = _ := hs
      rwa [hs] at hmoved
    · rename_i hs
      replace hs : s.moveTo position = _ := hs
      rwa [hs] at hmoved
    · rename_i hs
      replace hs : s.moveTo position = _ := hs
      rw [hs] at hmoved
      exact hmoved.read d n

/-- What such a source delivers are the bytes at the position asked for. -/
theorem serving_remembers (d : SeekableReader.Stands I place bytes) :
    Source.Serving (Remembers I place bytes) bytes where
  data := by
    intro s s' position n piece h hr
    have hkept := h.readAt d position n
    rw [hr] at hkept
    refine ⟨hkept, ?_⟩
    unfold Source.readAt at hr
    split at hr
    · rename_i hend
      cases hr
      replace hend : s.span.length ≤ position := hend
      rw [h.length_eq] at hend
      exact ⟨⟨_, rfl⟩, fun _ => .inr hend⟩
    · have hmoved := h.moveTo d position
      split at hr
      · cases hr
      · cases hr
      · rename_i s₁ hs
        replace hs : s.moveTo position = (.reached (), s₁) := hs
        have hplace := position_of_moveTo hs
        have hspan := span_moveTo s position
        rw [hs] at hmoved hspan
        obtain ⟨hreply, -⟩ := Prod.mk.inj hr
        rcases s₁ with ⟨input, span, position'⟩
        obtain ⟨hi, hl, hp⟩ := hmoved
        replace hreply : ((SeekingSource.read ⟨input, span, position'⟩ n).1).clip
            (span.extent - position) = .data piece := hreply
        simp only [SeekingSource.read] at hreply
        split at hreply
        · rename_i whole input' hd
          obtain ⟨-, ⟨rest, hrest⟩, hempty⟩ := d.data hi hd
          rw [← hp position hplace] at hrest hempty
          rw [Span.clip_data hl hrest.symm] at hreply
          cases hreply
          exact ⟨⟨rest, hrest.symm⟩, hempty⟩
        · cases hreply
        · cases hreply
  interrupted := by
    intro s s' position n h hr
    have hkept := h.readAt d position n
    rwa [hr] at hkept

/-- Measuring a reader leaves it at the start, which is remembered. -/
theorem remembers_of_ofReader (d : SeekableReader.Stands I place bytes) {r : ρ} (h : I r)
    {s : SeekingSource ρ} (hs : ofReader r = .ok s) : s.Remembers I place bytes := by
  have hend := d.kept_seek (.fromEnd 0) h
  unfold ofReader at hs
  rcases h₁ : SeekableReader.seek r (.fromEnd 0) with ⟨length | _ | fault, r₁⟩ <;>
    rw [h₁] at hend hs
  case reached =>
    have hstart := d.kept_seek (.start 0) hend
    obtain ⟨hlength, -⟩ := d.seek h h₁
    dsimp only [Moved.once] at hs
    rcases h₂ : SeekableReader.seek r₁ (.start 0) with ⟨reached | _ | fault, r₂⟩ <;>
      rw [h₂] at hstart hs
    case reached =>
      obtain ⟨hreached, hplace⟩ := d.seek hend h₂
      cases hs
      refine ⟨hstart, ?_, ?_⟩
      · rw [SeekTo.resolve, Int.add_zero] at hlength
        exact (Option.some.inj hlength).symm
      · rintro p ⟨⟩
        exact (Option.some.inj hreached).trans hplace.symm
    all_goals cases hs
  all_goals cases hs

theorem Used.remembers (d : SeekableReader.Stands I place bytes) {s₀ s : SeekingSource ρ}
    (h₀ : s₀.Remembers I place bytes) (h : Used s₀ s) : s.Remembers I place bytes := by
  induction h with
  | new => exact h₀
  | seek goal _ ih => exact ih.moveTo d goal
  | read n _ ih => exact ih.read d n
  | readAt position n _ ih => exact ih.readAt d position n
  | readExactAt position n _ ih => exact Source.kept_readExactAt (Remembers.readAt d) ih position n

/-- **A source over a reader that may fail is faithful at any time.** After any calls, failed ones
included, the position that it remembers is where its reader stands; a positioned read that succeeds
delivers bytes at its position, none only at the end; and an exact read that succeeds delivers all
the bytes of its range. -/
theorem used_faithful (d : SeekableReader.Stands I place bytes) {r : ρ} (h : I r)
    {s₀ s : SeekingSource ρ} (hs : ofReader r = .ok s₀) (hu : Used s₀ s) :
    (∀ p ∈ s.position, p = place s.input) ∧
      (∀ {position n : Nat} {piece : ByteArray} {s' : SeekingSource ρ},
        Source.readAt s position n = (.data piece, s') →
          piece.size ≤ n ∧ piece.data.toList <+: bytes.drop position ∧
            (piece.size = 0 → n = 0 ∨ bytes.length ≤ position)) ∧
      ∀ {position n : Nat} {piece : ByteArray} {s' : SeekingSource ρ},
        Source.readExactAt s position n = (.ok piece, s') →
          piece.data.toList = (bytes.drop position).take n ∧ piece.size = n := by
  have hr := hu.remembers d (remembers_of_ofReader d h hs)
  have k := serving_remembers d
  refine ⟨hr.position_eq, fun hread => ?_, fun hread => k.toList_of_readExactAt hr hread⟩
  obtain ⟨-, ⟨rest, hrest⟩, hempty⟩ := k.data hr hread
  exact ⟨Nat.le_trans (Source.size_le_of_readAt hread) (Nat.min_le_left _ _), ⟨rest, hrest.symm⟩,
    hempty⟩

end SeekingSource

namespace FaultyStream

theorem kept_seek (s : FaultyStream) (goal : SeekTo) :
    (s.seek goal).2.bytes = s.bytes ∧ (s.seek goal).2.chunk = s.chunk := by
  unfold seek
  dsimp only
  split
  · exact ⟨rfl, rfl⟩
  · split
    · exact ⟨rfl, rfl⟩
    · split
      · exact ⟨rfl, rfl⟩
      · exact ⟨rfl, rfl⟩

/-- A seek that succeeds ends at its goal. -/
theorem of_seek {s s' : FaultyStream} {goal : SeekTo} {reached : Nat}
    (h : s.seek goal = (.reached reached, s')) :
    goal.resolve s.bytes.size s.position = some reached ∧ s'.position = reached := by
  unfold seek at h
  dsimp only at h
  split at h
  · cases h
  · rename_i hgoal
    split at h
    · cases h
    · split at h
      · cases h
      · cases h
        exact ⟨hgoal, rfl⟩

/-- A stream that delivers pieces, interrupts and fails stands in its bytes all the same. -/
theorem stands (bytes : ByteArray) :
    SeekableReader.Stands (fun s : FaultyStream => s.bytes = bytes ∧ s.chunk ≠ some 0) (·.position)
      bytes.data.toList where
  kept_read := by
    rintro s n ⟨rfl, hchunk⟩
    show (s.read n).2.bytes = s.bytes ∧ (s.read n).2.chunk ≠ some 0
    unfold FaultyStream.read
    split
    · exact ⟨rfl, hchunk⟩
    · split
      · exact ⟨rfl, hchunk⟩
      · exact ⟨rfl, hchunk⟩
  kept_seek := by
    rintro s goal ⟨rfl, hchunk⟩
    obtain ⟨hbytes, hsame⟩ := kept_seek s goal
    exact ⟨hbytes, fun h => hchunk (hsame.symm.trans h)⟩
  kept_seekBy := by
    rintro s offset ⟨rfl, hchunk⟩
    obtain ⟨hbytes, hsame⟩ := kept_seek s (.current offset)
    show (forgetPosition (s.seek (.current offset))).2.bytes = s.bytes ∧
      (forgetPosition (s.seek (.current offset))).2.chunk ≠ some 0
    rw [snd_forgetPosition]
    exact ⟨hbytes, fun h => hchunk (hsame.symm.trans h)⟩
  data := by
    rintro s s' n piece ⟨rfl, hchunk⟩ hr
    obtain ⟨rfl, rfl⟩ := eq_of_read_data hr
    have hsize := s.size_extract_pieceSize n
    refine ⟨congrArg (s.position + ·) hsize.symm, ?_, fun hempty => ?_⟩
    · rw [toList_extract, List.drop_take, Nat.add_sub_cancel_left]
      exact List.take_prefix _ _
    · rw [length_toList]
      exact ended_of_read hchunk hr hempty
  seek := by
    rintro s s' goal reached ⟨rfl, -⟩ hs
    rw [length_toList]
    exact of_seek hs
  seekBy := by
    rintro s s' offset ⟨rfl, -⟩ hs
    replace hs : forgetPosition (s.seek (.current offset)) = (.reached (), s') := hs
    rw [length_toList]
    rcases hseek : s.seek (.current offset) with ⟨reached | _ | fault, s₁⟩ <;> rw [hseek] at hs <;>
      cases hs
    obtain ⟨hgoal, hplace⟩ := of_seek hseek
    rw [hgoal, hplace]

end FaultyStream

namespace SeekingSource

/-- A read is interrupted, a seek fails, a read fails, and one more is interrupted. Then no position
is remembered, and the next read begins with a seek from the start. An exact read goes on from there
through an interrupted read and an interrupted seek. -/
theorem used_faithful_recovered :
    let stream : FaultyStream :=
      { bytes := packBytes [1, 2, 3, 4, 5, 6, 7, 8, 9], chunk := some 2, failsFrom := some 8,
        interrupts := true, failsToSeek := some 4, interruptsSeekTo := some 7 }
    let source (place calls : Nat) (seeks : List SeekTo) (position : Option Nat) :
        SeekingSource FaultyStream :=
      ⟨{ stream with position := place, calls, seeks := seeks.toArray }, { length := 9 }, position⟩
    let new := source 0 0 [.fromEnd 0, .start 0] (some 0)
    let s := source 5 3 [.fromEnd 0, .start 0, .current 2, .start 4, .start 8, .start 5] none
    ofReader stream = .ok new ∧ Used new s ∧
      (packBytes [6, 7]).data.toList <+: [1, 2, 3, 4, 5, 6, 7, 8, 9].drop 5 ∧
      (Source.readExactAt s 5 3).2.input.seeks.toList = s.input.seeks.toList ++
        [.start 5, .start 7, .start 7] ∧
      (Source.readExactAt s 5 3).1 = .ok (packBytes [6, 7, 8]) ∧
      (packBytes [6, 7, 8]).data.toList = ([1, 2, 3, 4, 5, 6, 7, 8, 9].drop 5).take 3 := by
  intro stream source new s
  have hnew : ofReader stream = .ok new := rfl
  let s₁ := source 2 1 [.fromEnd 0, .start 0, .current 2] none
  let s₂ := source 2 1 [.fromEnd 0, .start 0, .current 2, .start 4] none
  let s₃ := source 8 2 [.fromEnd 0, .start 0, .current 2, .start 4, .start 8] none
  have h₁ : Source.readAt new 2 5 = (.interrupted, s₁) := rfl
  have h₂ : s₁.moveTo 4 = (.failed (.device "seek failed"), s₂) := rfl
  have h₃ : Source.readAt s₂ 8 1 = (.failed (.device "read failed"), s₃) := rfl
  have h₄ : Source.readAt s₃ 5 2 = (.interrupted, s) := by
    simp only [s₃, s, source, stream]
    rfl
  have hused : Used new s := by
    have hu₁ := (Used.new : Used new new).readAt 2 5
    rw [h₁] at hu₁
    have hu₂ := hu₁.seek 4
    rw [h₂] at hu₂
    have hu₃ := hu₂.readAt 8 1
    rw [h₃] at hu₃
    have hu₄ := hu₃.readAt 5 2
    rwa [h₄] at hu₄
  let last := source 7 4
    [.fromEnd 0, .start 0, .current 2, .start 4, .start 8, .start 5, .start 5] (some 7)
  have hread : Source.readAt s 5 3 = (.data (packBytes [6, 7]), last) := by
    simp only [s, last, source, stream]
    rfl
  have hseeks : (Source.readExactAt s 5 3).2.input.seeks.toList = s.input.seeks.toList ++
      [.start 5, .start 7, .start 7] := by
    decide +kernel
  have hexact : (Source.readExactAt s 5 3).1 = .ok (packBytes [6, 7, 8]) := by
    decide +kernel
  obtain ⟨-, hpiece, hwhole⟩ := used_faithful (FaultyStream.stands stream.bytes)
    ⟨rfl, by decide⟩ hnew hused
  exact ⟨hnew, hused, (hpiece hread).2.1, hseeks, hexact, (hwhole (Prod.ext hexact rfl)).1⟩

end SeekingSource

end BinaryDelta
