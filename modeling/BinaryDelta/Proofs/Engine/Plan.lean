import BinaryDelta.Engine.Run
import BinaryDelta.Proofs.Engine.Compare
import BinaryDelta.Proofs.Sink.Feed

/-!
# What an engine decides

Which calls an engine makes depends on the bytes of the source and of the target alone.
`Search.plan` lists them, from two byte strings and with no reader, buffer or sink in sight; a run
is this plan, carried out on the sink. It is given up behind a copy whose end cannot be counted.

* `lengthAt`, `bestOf` and `hashOf` are the match at an offset, the best match of several and the
  hash of a block, on byte strings.
* `plan` is the calls for what is left of a target, `DeltaStats.count` adds a call to the
  statistics.
* `Countable` says that a match ends in the source or at a 64-bit number; `carryOut` makes calls in
  order and goes on as long as that holds.

Results:
* `longestOf_eq`: the search among offsets finds the best match.
* `next_rest`, `next_copy`, `next_byte`: each decision is the one of the plan.
* `exists_of_copy_mem_plan`: every planned copy is the best match at some place.
* `carryOut_eq_feed`, `carryOut_stuck`: what carrying out comes to if every end can be counted, and
  if one cannot.
* **`run_eq`**: a run carries out the plan on the sink, and counts it.
-/

namespace BinaryDelta

/-! ## Hashes of byte strings -/

namespace Checksum

/-- Adds bytes to the two sums. -/
def hashList (c : Checksum) (low high : UInt32) : List UInt8 → UInt32
  | [] => join low high
  | byte :: bytes =>
    let low := low + (c.word byte).toUInt32
    c.hashList low (high + low) bytes

theorem hashFrom_eq (c : Checksum) (bytes : ByteArray) (low high : UInt32) (start count : Nat) :
    c.hashFrom bytes low high start count =
      c.hashList low high ((bytes.data.toList.drop start).take count) := by
  induction count generalizing low high start with
  | zero => rfl
  | succ count ih =>
    rw [hashFrom]
    by_cases h : start < bytes.size
    · rw [dif_pos h, ih, drop_toList h, List.take_succ_cons, hashList]
    · rw [dif_neg h, List.drop_eq_nil_of_le (by rw [length_toList]; omega)]
      rfl

/-- The hash of a range is that of its bytes. -/
theorem hashRange_eq (c : Checksum) (bytes : ByteArray) (start count : Nat) :
    c.hashRange bytes start count =
      c.hash (packBytes ((bytes.data.toList.drop start).take count)) := by
  rw [hash, hashRange, hashRange, hashFrom_eq, hashFrom_eq, data_packBytes, List.toList_toArray,
    List.drop_zero, size_packBytes, List.take_length]

end Checksum

theorem BlockTable.hashRange_eq (t : BlockTable) (bytes : ByteArray) (start count : Nat) :
    t.hashRange bytes start count =
      t.hash (packBytes ((bytes.data.toList.drop start).take count)) := by
  rw [hash, hashRange, hashRange, Checksum.hashRange_eq, ← Checksum.hash]
  congr 2
  funext x
  rw [Checksum.hashRange_eq, ← Checksum.hash]

namespace Search

/-! ## The best match -/

/-- The length of the match at an offset. -/
def lengthAt (c : Search) (source left : List UInt8) (offset : Nat) : Nat :=
  if c.options.acceptHash then c.blockSize else matchLengthAt source left offset

/-- The best of a match and of those at the offsets of a list. -/
def bestOf (c : Search) (source left : List UInt8) (best : Option (Match c.blockSize))
    (offsets : List Nat) : Option (Match c.blockSize) :=
  offsets.foldl (fun best offset => Match.better best offset (c.lengthAt source left offset)) best

theorem bestOf_cons (c : Search) (source left : List UInt8) (best : Option (Match c.blockSize))
    (offset : Nat) (offsets : List Nat) : c.bestOf source left best (offset :: offsets) =
      c.bestOf source left (Match.better best offset (c.lengthAt source left offset)) offsets := rfl

theorem better_of_le {blockSize : Nat} {m : Match blockSize} {length : Nat} (h : length ≤ m.length)
    (offset : Nat) : Match.better (some m) offset length = some m := by
  unfold Match.better
  split
  · exact if_neg (by omega)
  · rfl

theorem lengthAt_le {c : Search} {m : Match c.blockSize} (h : longestMatch ≤ m.length)
    (source left : List UInt8) (offset : Nat) : c.lengthAt source left offset ≤ m.length := by
  unfold lengthAt
  split
  · exact m.le_length
  · exact Nat.le_trans (matchLengthAt_le source left offset) h

/-- A match as long as can be is the best. -/
theorem bestOf_of_longest {c : Search} {m : Match c.blockSize} (h : longestMatch ≤ m.length)
    (source left : List UInt8) (offsets : List Nat) :
    c.bestOf source left (some m) offsets = some m := by
  induction offsets with
  | nil => rfl
  | cons offset offsets ih => rw [bestOf_cons, better_of_le (lengthAt_le h source left offset), ih]

variable {σ ρ : Type} [Source σ] [ByteReader ρ] {H : σ → Prop} {R : ρ → List UInt8 → Prop}
  {source left : List UInt8} {position : Nat} {src : σ} {w : TargetWindow ρ}

/-- All of the match is read ahead. -/
def Covers {blockSize : Nat} (w : TargetWindow ρ) (best : Option (Match blockSize)) : Prop :=
  ∀ m ∈ best, m.length ≤ w.available

omit [ByteReader ρ] in
theorem covers_better {blockSize : Nat} {w w' : TargetWindow ρ} {best : Option (Match blockSize)}
    (h : Covers w best) (hw : w.available ≤ w'.available) {length : Nat}
    (hl : length ≤ w'.available) (offset : Nat) : Covers w' (Match.better best offset length) := by
  intro m hm
  unfold Match.better at hm
  split at hm
  · cases best with
    | none =>
      cases hm
      exact hl
    | some b =>
      simp only at hm
      split at hm
      · cases hm
        exact hl
      · cases hm
        exact Nat.le_trans (h _ rfl) hw
  · exact Nat.le_trans (h m hm) hw

/-- The match at one offset. -/
theorem matchLength_eq (k : Source.Holding H source) (d : ByteReader.Delivery R)
    (h : Sees H R left position src w) {c : Search} (hb : c.blockSize ≤ w.available)
    (offset : Nat) :
    ∃ w' src', c.matchLength src w offset = (.ok (c.lengthAt source left offset, w'), src') ∧
      Sees H R left position src' w' ∧ c.lengthAt source left offset ≤ w'.available := by
  by_cases ha : c.options.acceptHash = true
  · exact ⟨w, src, by rw [matchLength, if_pos ha, lengthAt, if_pos ha], h,
      by rwa [lengthAt, if_pos ha]⟩
  · obtain ⟨w', src', hm, h', hl⟩ := matchLengthFrom_eq k d h c.table.blockSize_pos
      (Nat.zero_le (matchLengthAt source left offset)) (Nat.zero_le _)
    exact ⟨w', src', by rw [matchLength, if_neg ha, lengthAt, if_neg ha]; exact hm, h',
      by rwa [lengthAt, if_neg ha]⟩

/-- The search among offsets finds the best match. -/
theorem longestOf_eq (k : Source.Holding H source) (d : ByteReader.Delivery R)
    (h : Sees H R left position src w) {c : Search} (hb : c.blockSize ≤ w.available)
    {best : Option (Match c.blockSize)} (hc : Covers w best) (offsets : List Nat) :
    ∃ w' src', c.longestOf src w best offsets =
        (.ok (c.bestOf source left best offsets, w'), src') ∧
      Sees H R left position src' w' ∧ w.available ≤ w'.available ∧
      Covers w' (c.bestOf source left best offsets) := by
  induction offsets generalizing src w best with
  | nil => exact ⟨w, src, rfl, h, Nat.le_refl _, hc⟩
  | cons offset offsets ih =>
    by_cases hl : best.any (longestMatch ≤ ·.length) = true
    · cases best with
      | none => cases hl
      | some m =>
        have hbest := bestOf_of_longest (of_decide_eq_true hl) source left (offset :: offsets)
        exact ⟨w, src, by rw [longestOf_of_longest hl, hbest], h, Nat.le_refl _, by rwa [hbest]⟩
    · obtain ⟨w₁, src₁, hm, h₁, hl₁⟩ := matchLength_eq k d h hb offset
      have hmono := (looksAhead_matchLength hm).available_le
      obtain ⟨w₂, src₂, h₂, hs₂, hmono₂, hc₂⟩ := ih h₁ (Nat.le_trans hb hmono)
        (covers_better hc hmono hl₁ offset)
      refine ⟨w₂, src₂, ?_, hs₂, Nat.le_trans hmono hmono₂, hc₂⟩
      rw [longestOf, if_neg hl, hm]
      exact h₂

/-! ## Hashes ahead -/

/-- The hash of the next block. -/
def hashOf (c : Search) (left : List UInt8) : WindowHash :=
  c.table.hash (packBytes (left.take c.blockSize))

/-- The hash of the block one byte further on, rolled from that of the next block. -/
def rolledAt (c : Search) (left : List UInt8) (hash : WindowHash) : Option WindowHash :=
  if c.blockSize < left.length then
    some (c.table.roll hash (left.getD 0 0) (left.getD c.blockSize 0))
  else none

omit [ByteReader ρ] in
theorem getD_eq_byteAt (h : w.Shows R left) {i : Nat} (hi : i < w.available) :
    left.getD i 0 = w.byteAt i := by
  rw [List.getD_eq_getElem?_getD, h.byteAt_eq hi]
  rfl

omit [ByteReader ρ] in
theorem currentHash_eq (h : w.Shows R left) {c : Search} (hb : c.blockSize ≤ w.available)
    (hash : Option WindowHash) : c.currentHash w hash = hash.getD (c.hashOf left) := by
  cases hash with
  | some hash => rfl
  | none =>
    rw [currentHash, BlockTable.hashRange_eq, Option.getD_none, hashOf, h.take_eq hb,
      TargetWindow.bytesAhead]

omit [ByteReader ρ] in
theorem rolledHash_eq (h : w.Shows R left) {c : Search} (hb : c.blockSize ≤ w.available)
    (hfull : c.blockSize + 1 ≤ w.available ∨ w.available = left.length) (hash : WindowHash) :
    c.rolledHash w hash = c.rolledAt left hash := by
  have hle := h.available_le
  have hpos := c.table.blockSize_pos
  rw [rolledHash, rolledAt]
  by_cases hlt : c.blockSize < w.available
  · rw [if_pos hlt, if_pos (by omega), getD_eq_byteAt h (Nat.lt_of_lt_of_le hpos hb),
      getD_eq_byteAt h hlt]
  · rw [if_neg hlt, if_neg (by omega)]

/-! ## Decisions -/

variable {c : Search} {hash : Option WindowHash} {continuation : Option Nat}

/-- Less than a block is the rest. -/
theorem next_rest (d : ByteReader.Delivery R) (h : Sees H R left position src w)
    (hl : left.length < c.blockSize) (hash : Option WindowHash) (continuation : Option Nat) :
    ∃ w', c.next src w hash continuation = (.ok (.rest, w'), src) ∧
      Sees H R left position src w' ∧ w'.available = left.length := by
  obtain ⟨w', hf, h', -, hfull⟩ := h.fill d c.blockSize
  have hle := h'.shows.available_le
  exact ⟨w', by rw [next, hf]; exact if_pos (by omega), h', by omega⟩

/-- With a block left, the search among the probes decides. -/
theorem exists_longest (k : Source.Holding H source) (d : ByteReader.Delivery R)
    (h : Sees H R left position src w) (hl : c.blockSize ≤ left.length) (hash : Option WindowHash)
    (continuation : Option Nat) :
    ∃ w₁ w' src', w.fill c.blockSize = (.ok (), w₁) ∧ ¬ w₁.available < c.blockSize ∧
      c.currentHash w₁ hash = hash.getD (c.hashOf left) ∧
      c.longest src w₁ (hash.getD (c.hashOf left)) continuation =
        (.ok (c.bestOf source left none
          (c.probes (hash.getD (c.hashOf left)) continuation position), w'), src') ∧
      Sees H R left position src' w' ∧ c.blockSize ≤ w'.available ∧
      Covers w' (c.bestOf source left none
        (c.probes (hash.getD (c.hashOf left)) continuation position)) := by
  obtain ⟨w₁, hf, h₁, -, hfull⟩ := h.fill d c.blockSize
  have hb : c.blockSize ≤ w₁.available := by omega
  have hnone : Covers w₁ (none : Option (Match c.blockSize)) := nofun
  obtain ⟨w', src', hlong, h', hmono, hc⟩ := longestOf_eq k d h₁ hb hnone
    (c.probes (hash.getD (c.hashOf left)) continuation position)
  refine ⟨w₁, w', src', hf, Nat.not_lt.mpr hb, currentHash_eq h₁.shows hb hash, ?_, h',
    Nat.le_trans hb hmono, hc⟩
  rw [longest_eq_longestOf, h₁.position_eq]
  exact hlong

/-- A match is a copy. -/
theorem next_copy (k : Source.Holding H source) (d : ByteReader.Delivery R)
    (h : Sees H R left position src w) (hl : c.blockSize ≤ left.length) {found : Match c.blockSize}
    (hbest : c.bestOf source left none
      (c.probes (hash.getD (c.hashOf left)) continuation position) = some found) :
    ∃ w' src', c.next src w hash continuation = (.ok (.copy found, w'), src') ∧
      Sees H R left position src' w' ∧ found.length ≤ w'.available := by
  obtain ⟨w₁, w', src', hf, hb, hh, hlong, h', -, hc⟩ := exists_longest k d h hl hash
    continuation
  rw [hbest] at hlong hc
  refine ⟨w', src', ?_, h', hc found rfl⟩
  rw [next, hf]
  simp only [if_neg hb, choose, hh, hlong]

/-- Without a match it is a literal byte. -/
theorem next_byte (k : Source.Holding H source) (d : ByteReader.Delivery R)
    (h : Sees H R left position src w) (hl : c.blockSize ≤ left.length)
    (hbest : c.bestOf source left none
      (c.probes (hash.getD (c.hashOf left)) continuation position) = none) :
    ∃ w' src', c.next src w hash continuation = (.ok (.byte (left.getD 0 0)
        (c.rolledAt left (hash.getD (c.hashOf left))), w'), src') ∧
      Sees H R left position src' w' ∧ 1 ≤ w'.available := by
  obtain ⟨w₁, w', src', hf, hb, hh, hlong, h', hb', -⟩ := exists_longest k d h hl hash
    continuation
  have hpos := c.table.blockSize_pos
  obtain ⟨w₂, hf₂, h₂, hmono, hfull⟩ := h'.fill d (c.blockSize + 1)
  have hb₂ := Nat.le_trans hb' hmono
  have h1 : 1 ≤ w₂.available := Nat.le_trans hpos hb₂
  rw [hbest] at hlong
  refine ⟨w₂, src', ?_, h₂, h1⟩
  rw [next, hf]
  simp only [if_neg hb, choose, hh, hlong, hf₂]
  rw [rolledHash_eq h₂.shows hb₂ hfull, getD_eq_byteAt h₂.shows h1]

end Search

/-! ## Runs -/

/-- Counts a call. -/
def DeltaStats.count (s : DeltaStats) : SinkStep → DeltaStats
  | .copy _ length => s.addCopy length
  | .byte _ => s.addLiteral 1
  | .literal bytes => s.addLiteral bytes.size
  | .flush => s

namespace Search

/-- The calls for what is left of a target. `continuation` is the end of the previous copy, if
nothing came after it. -/
def plan (c : Search) (source left : List UInt8) (hash : Option WindowHash)
    (continuation : Option Nat) (position : Nat) : List SinkStep :=
  if left.length < c.blockSize then
    if left.length = 0 then [] else [.literal (packBytes left)]
  else
    let block := hash.getD (c.hashOf left)
    match c.bestOf source left none (c.probes block continuation position) with
    | some found =>
      .copy (c.sourceOffset + found.offset) found.length ::
        c.plan source (left.drop found.length) none (some (found.offset + found.length))
          (position + found.length)
    | none =>
      .byte (left.getD 0 0) ::
        c.plan source (left.drop 1) (c.rolledAt left block) none (position + 1)
termination_by left.length
decreasing_by
  · have := c.table.blockSize_pos
    have : c.blockSize ≤ found.length := found.le_length
    rw [List.length_drop]
    simp only [blockSize] at *
    omega
  · have := c.table.blockSize_pos
    rw [List.length_drop]
    simp only [blockSize] at *
    omega

section Plan

variable {c : Search} {source left : List UInt8} {hash : Option WindowHash}
  {continuation : Option Nat} {position : Nat}

theorem plan_rest (h : left.length < c.blockSize) :
    c.plan source left hash continuation position =
      if left.length = 0 then [] else [.literal (packBytes left)] := by
  rw [plan, if_pos h]

theorem plan_copy (h : c.blockSize ≤ left.length) {found : Match c.blockSize}
    (hbest : c.bestOf source left none
      (c.probes (hash.getD (c.hashOf left)) continuation position) = some found) :
    c.plan source left hash continuation position =
      .copy (c.sourceOffset + found.offset) found.length ::
        c.plan source (left.drop found.length) none (some (found.offset + found.length))
          (position + found.length) := by
  rw [plan, if_neg (Nat.not_lt.mpr h)]
  simp only [hbest]

theorem plan_byte (h : c.blockSize ≤ left.length)
    (hbest : c.bestOf source left none
      (c.probes (hash.getD (c.hashOf left)) continuation position) = none) :
    c.plan source left hash continuation position =
      .byte (left.getD 0 0) ::
        c.plan source (left.drop 1) (c.rolledAt left (hash.getD (c.hashOf left))) none
          (position + 1) := by
  rw [plan, if_neg (Nat.not_lt.mpr h)]
  simp only [hbest]

/-- A plan flushes nothing. -/
theorem ne_flush_of_mem_plan (c : Search) (source left : List UInt8) (hash : Option WindowHash)
    (continuation : Option Nat) (position : Nat) :
    ∀ step ∈ c.plan source left hash continuation position, step ≠ .flush := by
  fun_induction plan c source left hash continuation position with
  | case1 => exact List.forall_mem_nil _
  | case2 => exact List.forall_mem_singleton.mpr nofun
  | case3 left hash continuation position _ block found _ ih =>
    exact List.forall_mem_cons.mpr ⟨nofun, ih⟩
  | case4 left hash continuation position _ block _ ih =>
    exact List.forall_mem_cons.mpr ⟨nofun, ih⟩

/-- A planned copy is the best match at some place in the target. -/
theorem exists_of_copy_mem_plan {offset length : Nat}
    (h : .copy offset length ∈ c.plan source left hash continuation position) :
    ∃ (left : List UInt8) (hash : WindowHash) (continuation : Option Nat) (position : Nat)
      (found : Match c.blockSize),
      c.bestOf source left none (c.probes hash continuation position) = some found ∧
        offset = c.sourceOffset + found.offset ∧ length = found.length := by
  fun_induction plan c source left hash continuation position with
  | case1 => cases h
  | case2 => cases List.mem_singleton.mp h
  | case3 left hash continuation position _ block found hbest ih =>
    rcases List.mem_cons.mp h with heq | h
    · cases heq
      exact ⟨left, block, continuation, position, found, hbest, rfl, rfl⟩
    · exact ih h
  | case4 left hash continuation position _ block _ ih =>
    rcases List.mem_cons.mp h with heq | h
    · cases heq
    · exact ih h

end Plan

variable {σ ρ κ : Type} [Source σ] [ByteReader ρ] [InstructionSink κ] {H : σ → Prop}
  {R : ρ → List UInt8 → Prop} {source left : List UInt8} {position : Nat} {src : σ}
  {w : TargetWindow ρ}

/-! ### Ends that can be counted -/

/-- The match ends in a source of this length, or at any rate at a 64-bit number. -/
def Countable (sourceLength offset length : Nat) : Prop :=
  offset + length ≤ sourceLength ∨ offset + length < 0x10000000000000000

instance (sourceLength offset length : Nat) : Decidable (Countable sourceLength offset length) :=
  inferInstanceAs (Decidable (_ ∨ _))

theorem stop_of_countable {blockSize sourceLength : Nat} {found : Match blockSize}
    (h : Countable sourceLength found.offset found.length) :
    found.stop sourceLength = .ok (found.offset + found.length) := by
  unfold Match.stop
  split
  · rfl
  · rename_i hbeyond
    exact checkedSum_of_lt (h.resolve_left hbeyond)

theorem stop_of_not_countable {blockSize sourceLength : Nat} {found : Match blockSize}
    (h : ¬ Countable sourceLength found.offset found.length) :
    found.stop sourceLength = .error (.overflow .sum) := by
  obtain ⟨hbeyond, hlarge⟩ := not_or.mp h
  rw [Match.stop, if_neg hbeyond, checkedSum_of_le (Nat.le_of_not_lt hlarge)]

/-- A search in a source of this length goes on behind the call. -/
def GoesOn (sourceOffset sourceLength : Nat) : SinkStep → Prop
  | .copy offset length => Countable sourceLength (offset - sourceOffset) length
  | _ => True

instance (sourceOffset sourceLength : Nat) : DecidablePred (GoesOn sourceOffset sourceLength) :=
  fun step => match step with
  | .copy offset length =>
    inferInstanceAs (Decidable (Countable sourceLength (offset - sourceOffset) length))
  | .byte _ | .literal _ | .flush => isTrue trivial

/-- Behind a copy at an offset in the source, a search goes on if the end can be counted. -/
theorem goesOn_copy {sourceOffset sourceLength offset length : Nat} :
    GoesOn sourceOffset sourceLength (.copy (sourceOffset + offset) length) ↔
      Countable sourceLength offset length := by
  rw [GoesOn, Nat.add_sub_cancel_left]

/-- Makes calls in order, up to the first that fails or behind which the search does not go on. -/
def carryOut (sourceOffset sourceLength : Nat) (sink : κ) :
    List SinkStep → Except DeltaError Unit × κ
  | [] => (.ok (), sink)
  | step :: steps => andThen (step.act sink) fun sink =>
    if GoesOn sourceOffset sourceLength step then carryOut sourceOffset sourceLength sink steps
    else (.error (.overflow .sum), sink)

section CarryOut

variable {sourceOffset sourceLength : Nat} {steps : List SinkStep}

theorem carryOut_cons (sourceOffset sourceLength : Nat) (sink : κ) (step : SinkStep)
    (steps : List SinkStep) : carryOut sourceOffset sourceLength sink (step :: steps) =
      andThen (step.act sink) fun sink =>
        if GoesOn sourceOffset sourceLength step then carryOut sourceOffset sourceLength sink steps
        else (.error (.overflow .sum), sink) := rfl

/-- If every end can be counted, the sink is fed. -/
theorem carryOut_eq_feed (h : ∀ step ∈ steps, GoesOn sourceOffset sourceLength step) (sink : κ) :
    carryOut sourceOffset sourceLength sink steps = feed sink steps := by
  induction steps generalizing sink with
  | nil => rfl
  | cons step steps ih =>
    obtain ⟨hstep, hsteps⟩ := List.forall_mem_cons.mp h
    simp only [carryOut_cons, feed_cons, if_pos hstep, ih hsteps]

/-- Calls can be carried out in two goes. -/
theorem carryOut_append (sourceOffset sourceLength : Nat) (sink : κ)
    (steps steps' : List SinkStep) : carryOut sourceOffset sourceLength sink (steps ++ steps') =
      andThen (carryOut sourceOffset sourceLength sink steps) fun sink =>
        carryOut sourceOffset sourceLength sink steps' := by
  induction steps generalizing sink with
  | nil => rfl
  | cons step steps ih =>
    rw [List.cons_append, carryOut_cons, carryOut_cons, andThen_assoc]
    congr
    funext sink
    split
    · exact ih sink
    · rfl

/-- The first end that cannot be counted is where it stops. -/
theorem carryOut_stuck {front back : List SinkStep} {step : SinkStep}
    (hfront : ∀ step ∈ front, GoesOn sourceOffset sourceLength step)
    (hstep : ¬ GoesOn sourceOffset sourceLength step) (sink : κ) :
    carryOut sourceOffset sourceLength sink (front ++ step :: back) =
      andThen (feed sink (front ++ [step])) fun sink => (.error (.overflow .sum), sink) := by
  rw [carryOut_append, carryOut_eq_feed hfront, feed_append, andThen_assoc]
  simp only [carryOut_cons, if_neg hstep, feed_singleton]

end CarryOut

/-- If every best match ends where that can be counted, the whole plan goes on. -/
theorem goesOn_plan {c : Search} {source : List UInt8}
    (h : ∀ {left : List UInt8} {hash : WindowHash} {continuation : Option Nat} {position : Nat}
      {found : Match c.blockSize},
      c.bestOf source left none (c.probes hash continuation position) = some found →
        Countable source.length found.offset found.length)
    {left : List UInt8} {hash : Option WindowHash} {continuation : Option Nat} {position : Nat} :
    ∀ step ∈ c.plan source left hash continuation position,
      GoesOn c.sourceOffset source.length step := by
  intro step hm
  cases step with
  | copy offset length =>
    obtain ⟨_, _, _, _, found, hbest, rfl, rfl⟩ := exists_of_copy_mem_plan hm
    exact goesOn_copy.mpr (h hbest)
  | byte value => trivial
  | literal bytes => trivial
  | flush => trivial

/-- A flush can always be made behind it. -/
theorem goesOn_flush {sourceOffset sourceLength : Nat} {steps : List SinkStep}
    (h : ∀ step ∈ steps, GoesOn sourceOffset sourceLength step) :
    ∀ step ∈ steps ++ [.flush], GoesOn sourceOffset sourceLength step :=
  List.forall_mem_append.mpr ⟨h, List.forall_mem_singleton.mpr trivial⟩

/-! ### Carrying out the plan -/

/-- What the run of a plan comes to: it was carried out on the sink, and the statistics are those of
the calls. -/
structure Carries (H : σ → Prop) (sourceOffset sourceLength : Nat) (outcome : RunOutcome σ κ)
    (sink : κ) (steps : List SinkStep) (stats : DeltaStats) (processed : Nat) : Prop where
  result : outcome.result = (carryOut sourceOffset sourceLength sink steps).1.map fun _ =>
    { steps.foldl DeltaStats.count stats with processed }
  sink_eq : outcome.sink = (carryOut sourceOffset sourceLength sink steps).2
  holds : H outcome.source

section Carries

variable {sourceOffset sourceLength : Nat} {outcome : RunOutcome σ κ} {sink sink' : κ}
  {steps : List SinkStep} {stats : DeltaStats} {processed : Nat}

omit [Source σ] in
theorem Carries.cons (step : SinkStep) (ha : step.act sink = (.ok (), sink'))
    (hg : GoesOn sourceOffset sourceLength step)
    (h : Carries H sourceOffset sourceLength outcome sink' steps (stats.count step) processed) :
    Carries H sourceOffset sourceLength outcome sink (step :: steps) stats processed := by
  refine ⟨?_, ?_, h.holds⟩ <;> rw [carryOut_cons, ha, andThen_ok, if_pos hg]
  · exact h.result
  · exact h.sink_eq

omit [Source σ] in
theorem carries_failed (step : SinkStep) {e : DeltaError} (ha : step.act sink = (.error e, sink'))
    (hs : H src) (reports : Array Progress) :
    Carries H sourceOffset sourceLength ⟨.error e, reports, src, sink'⟩ sink (step :: steps) stats
      processed := by
  refine ⟨?_, ?_, hs⟩ <;> rw [carryOut_cons, ha, andThen_error]
  rfl

omit [Source σ] in
theorem carries_stuck (step : SinkStep) (ha : step.act sink = (.ok (), sink'))
    (hg : ¬ GoesOn sourceOffset sourceLength step) (hs : H src) (reports : Array Progress) :
    Carries H sourceOffset sourceLength ⟨.error (.overflow .sum), reports, src, sink'⟩ sink
      (step :: steps) stats processed := by
  refine ⟨?_, ?_, hs⟩ <;> rw [carryOut_cons, ha, andThen_ok, if_neg hg]
  rfl

end Carries

omit [Source σ] [ByteReader ρ] in
/-- The rest of a target is one literal. -/
theorem finish_eq (sourceOffset sourceLength : Nat) (h : Sees H R left position src w)
    (ha : w.available = left.length) (sink : κ) (stats : DeltaStats) (reports : Array Progress) :
    Carries H sourceOffset sourceLength (finish w src sink stats reports) sink
      (if left.length = 0 then [] else [.literal (packBytes left)]) stats
      (position + left.length) := by
  have hrest : w.ahead w.available = packBytes left := by
    apply eq_of_toList_eq
    rw [h.shows.toList_ahead (Nat.le_refl _), ha, List.take_length, data_packBytes,
      List.toList_toArray]
  have hp := h.position_eq
  rw [finish, hrest, size_packBytes, hp]
  by_cases h₀ : left.length = 0
  · simp only [h₀, Nat.add_zero]
    exact ⟨rfl, rfl, h.holds⟩
  · rw [if_neg h₀, if_neg h₀]
    rcases hs : InstructionSink.addLiteral sink (packBytes left) with ⟨e | _, sink'⟩
    · exact carries_failed (.literal _) hs h.holds reports
    · refine Carries.cons (.literal _) hs trivial ⟨?_, rfl, h.holds⟩
      rw [DeltaStats.count, size_packBytes]
      rfl

/-- A run carries out the plan on the sink, and counts it. -/
theorem run_eq (k : Source.Holding H source) (d : ByteReader.Delivery R) (c : Search)
    (h : Sees H R left position src w) (sink : κ) (hash : Option WindowHash)
    (continuation : Option Nat) (stats : DeltaStats) (reports : Array Progress) :
    Carries H c.sourceOffset source.length (c.run src w sink hash continuation stats reports) sink
      (c.plan source left hash continuation position) stats (position + left.length) := by
  induction hn : left.length using Nat.strongRecOn
    generalizing left src w sink hash continuation position stats reports with
  | _ n ih =>
    subst hn
    by_cases hl : left.length < c.blockSize
    · obtain ⟨w', hnext, h', ha⟩ := next_rest d h hl hash continuation
      rw [plan_rest hl, run, Overlap.catchUp_apart, hnext]
      exact finish_eq c.sourceOffset source.length h' ha sink stats reports
    · have hge := Nat.le_of_not_lt hl
      have hpos : 0 < c.blockSize := c.table.blockSize_pos
      cases hbest : c.bestOf source left none
          (c.probes (hash.getD (c.hashOf left)) continuation position) with
      | some found =>
        obtain ⟨w', src', hnext, h', ha⟩ := next_copy k d h hge hbest
        have hfound := found.le_length
        have hle := Nat.le_trans ha h'.shows.available_le
        have hlength : Source.length src' = source.length := k.length h'.holds
        rw [plan_copy hge hbest, run, Overlap.catchUp_apart, hnext]
        simp only
        rcases hs : InstructionSink.addCopy sink (c.sourceOffset + found.offset) found.length with
          ⟨e | _, sink'⟩
        · exact carries_failed (.copy _ _) hs h'.holds reports
        · simp only [hlength]
          by_cases hcount : Countable source.length found.offset found.length
          · have hrest : (left.drop found.length).length = left.length - found.length :=
              List.length_drop
            have hend : position + left.length =
                position + found.length + (left.drop found.length).length := by omega
            rw [stop_of_countable hcount, hend]
            exact Carries.cons (.copy _ _) hs (goesOn_copy.mpr hcount)
              (ih _ (by omega) (h'.advance ha) sink' none _ _ _ rfl)
          · rw [stop_of_not_countable hcount]
            exact carries_stuck (.copy _ _) hs (mt goesOn_copy.mp hcount) h'.holds reports
      | none =>
        obtain ⟨w', src', hnext, h', ha⟩ := next_byte k d h hge hbest
        rw [plan_byte hge hbest, run, Overlap.catchUp_apart, hnext]
        simp only
        rcases hs : InstructionSink.addByte sink (left.getD 0 0) with ⟨e | _, sink'⟩
        · exact carries_failed (.byte _) hs h'.holds reports
        · have hrest : (left.drop 1).length = left.length - 1 := List.length_drop
          have hend : position + left.length = position + 1 + (left.drop 1).length := by omega
          rw [hend]
          exact Carries.cons (.byte _) hs trivial
            (ih _ (by omega) (h'.advance ha) sink' _ none _ _ rfl)

/-- Describing a target carries out the plan for all of it. -/
theorem describe_eq (k : Source.Holding H source) (d : ByteReader.Delivery R) (c : Search)
    (h : H src) {r : ρ} {target : List UInt8} (hr : R r target) (sink : κ) :
    Carries H c.sourceOffset source.length (c.describe src r sink) sink
      (c.plan source target none none 0) {} target.length := by
  have hshows := TargetWindow.shows_ofReader hr (TargetWindow.initialCapacity c.blockSize)
  have hsees : Sees H R target 0 src _ := ⟨h, hshows, rfl⟩
  have hrun := run_eq k d c hsees sink none none {} #[]
  rwa [Nat.zero_add] at hrun

end Search

end BinaryDelta
