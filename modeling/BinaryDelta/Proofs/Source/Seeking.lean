import BinaryDelta.Proofs.Source.Holding
import BinaryDelta.Source.Seeking
import BinaryDelta.Stream.Faulty

/-!
# Repositionable readers that hold a byte string

A source over a reader that can seek remembers where the reader stands, and seeks relative to that.
So it hands out the right bytes only if what it remembers is true: a short read moves the reader by
what was delivered, and an interrupted read or seek may leave it anywhere, behind which the next
seek has to be absolute.

* `SeekableReader.Lands` says of the answer to a seek that the reader is at its goal now, unless the
  seek was interrupted.
* `SeekableReader.Standing` relates readers of a byte string to the positions where they stand.
* `SeekingSource.Tracks` says that the remembered position, if there is one, is where the reader
  stands.

Results:
* **`SeekingSource.holding_tracks`**: such a source holds the bytes, however short its reads are and
  wherever an interruption leaves the reader.
* `SeekingSource.holds_of_ofReader`: measuring such a reader makes such a source.
* `FaultyStream.standing`, `FaultyStream.delivers`: bytes in memory that are delivered in pieces and
  with interruptions.
* `FaultyStream.resuming`: a stream that fails from somewhere on loses none of its bytes.
-/

namespace BinaryDelta

/-- The reader has moved to its goal, or the move was interrupted and has left it anywhere. -/
inductive SeekableReader.Lands {ρ α : Type} (P : ρ → Nat → Prop) (goal : Nat) (place : α) :
    Moved α × ρ → Prop where
  | reached {r : ρ} (h : P r goal) : Lands P goal place (.reached place, r)
  | interrupted {r : ρ} {p : Nat} (h : P r p) : Lands P goal place (.interrupted, r)

theorem SeekableReader.Lands.forgetPosition {ρ : Type} {P : ρ → Nat → Prop} {goal place : Nat}
    {answer : Moved Nat × ρ} (h : Lands P goal place answer) :
    Lands P goal () (forgetPosition answer) := by
  cases h with
  | reached h => exact .reached h
  | interrupted h => exact .interrupted h

/-- A relation between readers and the positions where they stand in one byte string, kept by every
call. An interrupted call may leave the reader at any position. -/
structure SeekableReader.Standing {ρ : Type} [SeekableReader ρ] (P : ρ → Nat → Prop)
    (bytes : List UInt8) : Prop where
  data : ∀ {r r' : ρ} {p n : Nat} {piece : ByteArray}, P r p →
    ByteReader.read r n = (.data piece, r') →
      P r' (p + piece.size) ∧ (∃ rest, bytes.drop p = piece.data.toList ++ rest) ∧
        (piece.size = 0 → n = 0 ∨ bytes.length ≤ p)
  interrupted : ∀ {r r' : ρ} {p n : Nat}, P r p → ByteReader.read r n = (.interrupted, r') →
    ∃ p', P r' p'
  unfailing : ∀ {r r' : ρ} {p n : Nat} {fault : Fault}, P r p →
    ByteReader.read r n ≠ (.failed fault, r')
  seek : ∀ {r : ρ} {p goal : Nat}, P r p → goal ≤ bytes.length →
    SeekableReader.Lands P goal goal (SeekableReader.seek r (.start goal))
  seekBy : ∀ {r : ρ} {p goal : Nat}, P r p → goal ≤ bytes.length →
    SeekableReader.Lands P goal () (SeekableReader.seekBy r (goal - p))
  seekToEnd : ∀ {r : ρ} {p : Nat}, P r p →
    SeekableReader.Lands P bytes.length bytes.length (SeekableReader.seek r (.fromEnd 0))

/-- A piece that ends within the bytes is delivered whole. -/
theorem Span.clip_data {span : Span} {bytes : List UInt8} (hl : span.length = bytes.length)
    {position : Nat} {piece : ByteArray} {rest : List UInt8}
    (h : bytes.drop position = piece.data.toList ++ rest) :
    (Reply.data piece).clip (span.extent - position) = .data piece := by
  have hlen := congrArg List.length h
  rw [List.length_drop, List.length_append, length_toList] at hlen
  have hle := span.length_le_extent
  have hfit : piece.size ≤ span.extent - position := by omega
  rw [Reply.clip, if_pos hfit]

namespace SeekingSource

variable {ρ : Type} [SeekableReader ρ] {P : ρ → Nat → Prop} {bytes : List UInt8}

/-- The measured length is that of the bytes, and the reader stands where it is remembered to, or
anywhere if that is forgotten. -/
structure Tracks (P : ρ → Nat → Prop) (bytes : List UInt8) (s : SeekingSource ρ) : Prop where
  length_eq : s.span.length = bytes.length
  standing : ∃ p, P s.input p ∧ ∀ q ∈ s.position, q = p

omit [SeekableReader ρ] in
/-- Behind a seek of the reader, the source stands at the goal, or it knows that it does not. -/
theorem tracks_settle {α : Type} {span : Span} (hl : span.length = bytes.length) {goal : Nat}
    {place : α} {answer : Moved α × ρ} (h : SeekableReader.Lands P goal place answer) :
    (∃ input, settle span goal answer = (.reached (), ⟨input, span, some goal⟩) ∧ P input goal) ∨
      ∃ s', settle span goal answer = (.interrupted, s') ∧ s'.Tracks P bytes := by
  cases h with
  | reached h => exact .inl ⟨_, rfl, h⟩
  | interrupted h => exact .inr ⟨_, rfl, hl, _, h, nofun⟩

/-- A move to a position in the bytes succeeds unless it is interrupted, and the reader then stands
there. -/
theorem Tracks.moveTo (d : SeekableReader.Standing P bytes) {s : SeekingSource ρ}
    (h : s.Tracks P bytes) {goal : Nat} (hg : goal ≤ bytes.length) :
    (∃ input, s.moveTo goal = (.reached (), ⟨input, s.span, some goal⟩) ∧ P input goal) ∨
      ∃ s', s.moveTo goal = (.interrupted, s') ∧ s'.Tracks P bytes := by
  rcases s with ⟨input, span, position⟩
  obtain ⟨hl, p, hp, hq⟩ := h
  dsimp only at hl hp hq
  simp only [SeekingSource.moveTo, if_neg (show ¬ span.length < goal by omega)]
  cases position with
  | none => exact tracks_settle hl (d.seek hp hg)
  | some here =>
    obtain rfl : here = p := hq here rfl
    by_cases heq : here = goal
    · subst heq
      exact .inl ⟨input, if_pos rfl, hp⟩
    · simp only [if_neg heq]
      exact tracks_settle hl (d.seekBy hp hg)

/-- A positioned read behind the end answers at once, any other one reads where it moved to, unless
that is interrupted. -/
theorem Tracks.of_readAt (d : SeekableReader.Standing P bytes) {s s' : SeekingSource ρ}
    (h : s.Tracks P bytes) {position n : Nat} {reply : Reply}
    (hr : Source.readAt s position n = (reply, s')) :
    (bytes.length ≤ position ∧ reply = .data ByteArray.empty ∧ s' = s) ∨
      (reply = .interrupted ∧ s'.Tracks P bytes) ∨
      ∃ input, P input position ∧ position < bytes.length ∧
        Source.clipAnswer (s.span.extent - position)
          (SeekingSource.read ⟨input, s.span, some position⟩ n) = (reply, s') := by
  have hlength : Source.length s = bytes.length := h.length_eq
  unfold Source.readAt at hr
  rw [hlength] at hr
  split at hr
  · obtain ⟨rfl, rfl⟩ := Prod.mk.inj hr
    exact .inl ⟨by assumption, rfl, rfl⟩
  · have hle : position ≤ bytes.length := by omega
    rcases h.moveTo d hle with ⟨input, hmove, hp⟩ | ⟨s₁, hmove, h₁⟩
    · have hseek : Source.seek s position = (.reached (), ⟨input, s.span, some position⟩) := hmove
      rw [hseek] at hr
      exact .inr (.inr ⟨input, hp, by omega, hr⟩)
    · have hseek : Source.seek s position = (.interrupted, s₁) := hmove
      rw [hseek] at hr
      obtain ⟨rfl, rfl⟩ := Prod.mk.inj hr
      exact .inr (.inl ⟨rfl, h₁⟩)

/-- **A source over such a reader holds its bytes.** -/
theorem holding_tracks (d : SeekableReader.Standing P bytes) :
    Source.Holding (Tracks P bytes) bytes where
  length h := h.length_eq
  data := by
    intro s s' position n piece h hr
    rcases h.of_readAt d hr with ⟨hend, ⟨⟩, rfl⟩ | ⟨hno, -⟩ | ⟨input, hp, hlt, hclip⟩
    · refine ⟨h, ⟨[], ?_⟩, fun _ => .inr hend⟩
      rw [List.drop_eq_nil_of_le hend]
      rfl
    · cases hno
    · obtain ⟨hreply, rfl⟩ := Prod.mk.inj hclip
      simp only [SeekingSource.read] at hreply ⊢
      split at hreply
      · rename_i whole input' hd
        obtain ⟨hp', ⟨rest, hrest⟩, hempty⟩ := d.data hp hd
        rw [Span.clip_data h.length_eq hrest] at hreply
        cases hreply
        refine ⟨⟨h.length_eq, position + _, hp', ?_⟩, ⟨rest, hrest⟩, hempty⟩
        rintro q ⟨⟩
        rfl
      · cases hreply
      · cases hreply
  interrupted := by
    intro s s' position n h hr
    rcases h.of_readAt d hr with ⟨-, hdata, -⟩ | ⟨-, h'⟩ | ⟨input, hp, -, hclip⟩
    · cases hdata
    · exact h'
    · obtain ⟨hreply, rfl⟩ := Prod.mk.inj hclip
      simp only [SeekingSource.read] at hreply ⊢
      split at hreply
      · cases hreply
      · rename_i input' hi
        obtain ⟨p', hp'⟩ := d.interrupted hp hi
        refine ⟨h.length_eq, p', hp', ?_⟩
        rintro q ⟨⟩
      · cases hreply
  unfailing := by
    intro s s' position n fault h hr
    rcases h.of_readAt d hr with ⟨-, hdata, -⟩ | ⟨hno, -⟩ | ⟨input, hp, -, hclip⟩
    · cases hdata
    · cases hno
    · have hreply := (Prod.mk.inj hclip).1
      simp only [SeekingSource.read] at hreply
      split at hreply
      · cases hreply
      · cases hreply
      · rename_i hf
        exact d.unfailing hp hf

/-- Measuring such a reader makes a source that holds its bytes, unless that is interrupted. -/
theorem holds_of_ofReader (d : SeekableReader.Standing P bytes) {r : ρ} {p : Nat} (h : P r p)
    {s : SeekingSource ρ} (hs : ofReader r = .ok s) : Source.Holds s bytes := by
  have hend := d.seekToEnd h
  unfold ofReader at hs
  rcases h₁ : SeekableReader.seek r (.fromEnd 0) with ⟨answer, r₁⟩
  rw [h₁] at hend hs
  cases hend with
  | interrupted => cases hs
  | reached hp =>
    have hstart := d.seek hp (Nat.zero_le _)
    dsimp only [Moved.once] at hs
    rcases h₂ : SeekableReader.seek r₁ (.start 0) with ⟨answer, r₂⟩
    rw [h₂] at hstart hs
    cases hstart with
    | interrupted => cases hs
    | reached hp =>
      cases hs
      refine ⟨Tracks P bytes, holding_tracks d, rfl, 0, hp, ?_⟩
      rintro q ⟨⟩
      rfl

end SeekingSource

namespace FaultyStream

theorem size_extract_pieceSize (s : FaultyStream) (n : Nat) :
    (s.bytes.extract s.position (s.position + s.pieceSize n)).size = s.pieceSize n := by
  have := s.pieceSize_le_rest n
  rw [ByteArray.size_extract]
  omega

/-- A piece is empty only if nothing was asked for or nothing is left. -/
theorem ended_of_read {s s' : FaultyStream} {n : Nat} {piece : ByteArray}
    (hchunk : s.chunk ≠ some 0) (h : s.read n = (.data piece, s')) (hempty : piece.size = 0) :
    n = 0 ∨ s.bytes.size ≤ s.position := by
  obtain ⟨rfl, -⟩ := eq_of_read_data h
  rw [size_extract_pieceSize] at hempty
  rcases Nat.eq_zero_or_pos n with rfl | hpos
  · exact .inl rfl
  have hallowed : 0 < s.allowed n := by
    unfold allowed
    split
    · exact hpos
    · rename_i c hc
      have : c ≠ 0 := fun h₀ => hchunk (by rw [hc, h₀])
      omega
  have hfailing : ¬ s.isFailing = true := by
    intro hfails
    unfold read at h
    split at h
    · cases h
    · rw [hfails, decide_eq_true hpos, Bool.and_true, if_pos rfl] at h
      cases h
  have hreach : s.reachable ≤ s.position := by
    unfold pieceSize at hempty
    omega
  refine .inr ?_
  unfold isFailing at hfailing
  unfold reachable at hreach
  split at hreach
  · exact hreach
  · rename_i k hk
    rw [hk, decide_eq_true_eq] at hfailing
    omega

/-- The stream holds these bytes, neither reading nor seeking fails, and no piece is empty. -/
structure Standing (bytes : ByteArray) (s : FaultyStream) (position : Nat) : Prop where
  bytes_eq : s.bytes = bytes
  position_eq : s.position = position
  chunk_ne : s.chunk ≠ some 0
  failsFrom_eq : s.failsFrom = none
  failsToSeek_eq : s.failsToSeek = none

/-- A seek to a position that resolves leads there, unless it is interrupted. -/
theorem Standing.seek {bytes : ByteArray} {s : FaultyStream} {p : Nat} (h : s.Standing bytes p)
    {goal : SeekTo} {q : Nat} (hq : goal.resolve bytes.size p = some q) :
    SeekableReader.Lands (Standing bytes) q q (s.seek goal) := by
  obtain ⟨rfl, rfl, hchunk, hfails, hseek⟩ := h
  unfold FaultyStream.seek
  simp only [hq, hseek, reduceCtorEq, if_false]
  split
  · exact .interrupted ⟨rfl, rfl, hchunk, hfails, rfl⟩
  · exact .reached ⟨rfl, rfl, hchunk, hfails, rfl⟩

/-- Pieces and interruptions do not keep a stream from handing out its bytes. -/
theorem standing (bytes : ByteArray) :
    SeekableReader.Standing (Standing bytes) bytes.data.toList where
  data := by
    rintro s s' p n piece ⟨rfl, rfl, hchunk, hfails, hseek⟩ hr
    obtain ⟨rfl, rfl⟩ := eq_of_read_data hr
    have hsize := s.size_extract_pieceSize n
    refine ⟨⟨rfl, by rw [hsize], hchunk, hfails, hseek⟩,
      ⟨(s.bytes.data.toList.drop s.position).drop (s.pieceSize n), ?_⟩, fun h => ?_⟩
    · rw [toList_extract, List.drop_take, Nat.add_sub_cancel_left, List.take_append_drop]
    · rw [length_toList]
      exact ended_of_read hchunk hr h
  interrupted := by
    rintro s s' p n ⟨rfl, rfl, hchunk, hfails, hseek⟩ hr
    obtain ⟨-, rfl⟩ := eq_of_read_interrupted hr
    exact ⟨s.position, rfl, rfl, hchunk, hfails, hseek⟩
  unfailing := by
    rintro s s' p n fault ⟨rfl, rfl, hchunk, hfails, hseek⟩ hr
    replace hr : s.read n = (.failed fault, s') := hr
    simp [FaultyStream.read, isFailing, hfails] at hr
    split at hr <;> cases (Prod.mk.inj hr).1
  seek h hg := h.seek rfl
  seekBy := by
    intro s p goal h hg
    have hgoal : (SeekTo.current (goal - p)).resolve bytes.size p = some goal := by
      rw [SeekTo.resolve, Int.add_comm, Int.sub_add_cancel]
      rfl
    exact (h.seek hgoal).forgetPosition
  seekToEnd := by
    intro s p h
    rw [length_toList]
    exact h.seek (by simp only [SeekTo.resolve, Int.add_zero]; rfl)

/-- Nor do they keep it from delivering what is behind its position. -/
theorem delivers {bytes : ByteArray} {s : FaultyStream} {p : Nat} (h : s.Standing bytes p) :
    ByteReader.Delivers s (bytes.data.toList.drop p) := by
  refine ⟨fun s rest => ∃ p, s.Standing bytes p ∧ rest = bytes.data.toList.drop p, ?_, p, h, rfl⟩
  constructor
  case data =>
    rintro s s' _ n piece ⟨p, h, rfl⟩ hr
    obtain ⟨h', ⟨rest, hrest⟩, hempty⟩ := (standing bytes).data h hr
    refine ⟨rest, hrest, ⟨p + piece.size, h', ?_⟩, fun h₀ => ?_⟩
    · rw [← List.drop_drop, hrest, ← length_toList piece, List.drop_left]
    · exact (hempty h₀).imp_right List.drop_eq_nil_of_le
  case interrupted =>
    rintro s s' _ n ⟨p, ⟨rfl, rfl, hchunk, hfails, hseek⟩, rfl⟩ hr
    obtain ⟨-, rfl⟩ := eq_of_read_interrupted hr
    exact ⟨s.position, ⟨rfl, rfl, hchunk, hfails, hseek⟩, rfl⟩
  case unfailing =>
    rintro s s' _ n fault ⟨p, h, rfl⟩
    exact (standing bytes).unfailing h

/-- A stream that fails from somewhere on loses none of its bytes. -/
theorem resuming (bytes : ByteArray) :
    ByteReader.Resuming fun (s : FaultyStream) rest =>
      (s.bytes = bytes ∧ s.chunk ≠ some 0) ∧ rest = bytes.data.toList.drop s.position where
  data := by
    rintro s s' _ n piece ⟨⟨rfl, hchunk⟩, rfl⟩ hr
    obtain ⟨rfl, rfl⟩ := eq_of_read_data hr
    refine ⟨s.bytes.data.toList.drop (s.position + s.pieceSize n), ?_, ⟨⟨rfl, hchunk⟩, rfl⟩,
      fun h => ?_⟩
    · rw [toList_extract, List.drop_take, Nat.add_sub_cancel_left, ← List.drop_drop,
        List.take_append_drop]
    · rw [List.drop_eq_nil_iff, length_toList]
      exact ended_of_read hchunk hr h
  interrupted := by
    rintro s s' _ n ⟨hs, rfl⟩ hr
    obtain ⟨-, rfl⟩ := eq_of_read_interrupted hr
    exact ⟨hs, rfl⟩
  failed := by
    rintro s s' _ n fault ⟨hs, rfl⟩ hr
    obtain rfl := eq_of_read_failed hr
    exact ⟨hs, rfl⟩

end FaultyStream

end BinaryDelta
