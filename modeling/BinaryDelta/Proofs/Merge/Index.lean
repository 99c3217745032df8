import BinaryDelta.Proofs.Merge.Resolve

/-!
# What an index knows

An entry of an index marks a place in a patch: what is spelled from there on, with the offset base
of the entry, is what the whole patch spells, less as much output in front as the entry says. That
is all that resolving a range needs of an entry, wherever the entry lies in front of the range;
which records were kept only decides how far there is to read.

* `IndexEntry.Marks` holds of an entry that marks its place, `PatchIndex.Indexes` of an index that
  consists of such entries and begins with the start of the target.

Results:
* `PatchIndex.scanned_scanFrom`, `PatchIndex.built_build`: what scanning and indexing come to.
* `PatchIndex.exists_build`, `PatchIndex.of_build`: a patch that ends with its end marker is
  indexed, unless more entries would be kept than are wanted, and no other is.
* `PatchIndex.exists_entryFor`: the entry that a range is resolved from does not lie behind it.
* `PatchIndex.resolveInto_eq`: what is handed on for a range does not depend on the entry.
* `PatchIndex.resolveInto_of_near`, `PatchIndex.resolveInto_of_beginsBeyond`: a range is handed on
  altogether, unless it begins with a byte from behind the 64-bit range.
-/

namespace BinaryDelta

/-! ## Entries -/

/-- The entry marks a place in a patch that spells this. -/
def IndexEntry.Marks (patch : List UInt8) (mode : Mode) (s : Spelling) (e : IndexEntry) : Prop :=
  e.wireOffset ≤ patch.length ∧ ∃ front, outputLength front = e.targetOffset ∧
    s = (spell ⟨mode, e.baseOffset⟩ (patch.drop e.wireOffset)).behindAll front

namespace PatchIndex

/-- The index is one of a patch that spells this. -/
structure Indexes (patch : List UInt8) (s : Spelling) (index : PatchIndex) : Prop where
  marks : ∀ e ∈ index.entries, e.Marks patch index.mode s
  first : ∃ e, index.entries[0]? = some e ∧ e.targetOffset = 0
  targetLength : index.targetLength = outputLength s.instructions

/-- The entries kept so far: each marks its place, and the first is that of the first record. -/
structure Kept (patch : List UInt8) (mode : Mode) (s : Spelling) (number targetOffset : Nat)
    (entries : Array IndexEntry) : Prop where
  marks : ∀ e ∈ entries, e.Marks patch mode s
  first : (entries = #[] ∧ number = 0 ∧ targetOffset = 0) ∨
    ∃ e, entries[0]? = some e ∧ e.targetOffset = 0

/-- The entries behind a record. -/
def sampled (interval : Nat) (entries : Array IndexEntry) (number : Nat) (e : IndexEntry) :
    Array IndexEntry :=
  if isSample interval entries number e.targetOffset then entries.push e else entries

/-- One more record keeps what is known of the entries. -/
theorem Kept.sampled {patch : List UInt8} {mode : Mode} {s : Spelling} {number : Nat}
    {entries : Array IndexEntry} {e : IndexEntry}
    (h : Kept patch mode s number e.targetOffset entries) (he : e.Marks patch mode s)
    (interval targetOffset' : Nat) :
    Kept patch mode s (number + 1) targetOffset' (sampled interval entries number e) := by
  have hpush : ∀ a ∈ entries.push e, a.Marks patch mode s := by
    intro a ha
    rcases Array.mem_push.mp ha with ha | rfl
    · exact h.marks a ha
    · exact he
  unfold PatchIndex.sampled
  rcases h.first with ⟨rfl, rfl, h₀⟩ | ⟨a, ha, h₀⟩
  · have hs : isSample interval #[] 0 e.targetOffset = true := by simp [isSample]
    rw [if_pos hs]
    exact ⟨hpush, .inr ⟨e, rfl, h₀⟩⟩
  · split
    · obtain ⟨hlt, hget⟩ := Array.getElem?_eq_some_iff.mp ha
      exact ⟨hpush, .inr ⟨a, by rw [Array.getElem?_push_lt hlt, hget], h₀⟩⟩
    · exact ⟨h.marks, .inr ⟨a, ha, h₀⟩⟩

/-! ## Scanning -/

variable {σ : Type} [Source σ] {H : σ → Prop} {patch bytes : List UInt8} {c c' : SourceCursor σ}
  {b : OffsetBase}

theorem scanFrom_of_read {record : Record} {size : Nat}
    (hr : readRecord b.mode c c.position = (.ok (record, size), c')) (interval : Nat)
    (maxEntries : Option Nat) (number targetOffset : Nat) (entries : Array IndexEntry) :
    scanFrom interval maxEntries c b number targetOffset entries =
      let entries' := sampled interval entries number ⟨targetOffset, c.position, b.current⟩
      if isSample interval entries number targetOffset && maxEntries.any (· ≤ entries.size) then
        (.ok none, c'.source)
      else
        match record with
        | .eof => (.ok (some ⟨entries', interval, targetOffset, b.mode⟩), c'.source)
        | .literal length =>
          if Source.length c'.source < c'.position + length then
            (.error .unexpectedEndOfData, c'.source)
          else
            scanFrom interval maxEntries ⟨c'.source, c'.position + length⟩ b (number + 1)
              (targetOffset + length) entries'
        | .copy value length =>
          match b.decode value with
          | (.error e, _) => (.error e, c'.source)
          | (.ok _, b) =>
            scanFrom interval maxEntries c' b (number + 1) (targetOffset + length) entries' := by
  rw [scanFrom]
  split
  · rename_i hr'
    rw [hr] at hr'
    cases hr'
  · rename_i hr'
    rw [hr] at hr'
    cases hr'
    cases record with
    | eof => rfl
    | literal length => rfl
    | copy value length => rfl

theorem scanFrom_of_error {e : DeltaError} (hr : readRecord b.mode c c.position = (.error e, c'))
    (interval : Nat) (maxEntries : Option Nat) (number targetOffset : Nat)
    (entries : Array IndexEntry) :
    scanFrom interval maxEntries c b number targetOffset entries = (.error e, c'.source) := by
  rw [scanFrom]
  split
  · rename_i hr'
    rw [hr] at hr'
    cases hr'
    rfl
  · rename_i hr'
    rw [hr] at hr'
    cases hr'

omit [Source σ] in
/-- The entry of the record at hand marks its place. -/
theorem marks_at {mode : Mode} {s : Spelling} {front : List Instruction}
    (h : SourceCursor.At H patch c bytes) (hm : b.mode = mode)
    (hs : s = (spell b bytes).behindAll front) :
    IndexEntry.Marks patch mode s ⟨outputLength front, c.position, b.current⟩ := by
  subst hm
  refine ⟨h.position_le, front, rfl, ?_⟩
  rw [← h.rest_eq]
  exact hs

/-- What scanning a patch comes to: too many entries, an index if the patch ends with its end
marker, or the error that it ends with. -/
inductive Scanned (H : σ → Prop) (patch : List UInt8) (s : Spelling) (maxEntries : Option Nat) :
    Except DeltaError (Option PatchIndex) × σ → Prop
  | full {src : σ} : maxEntries ≠ none → H src → Scanned H patch s maxEntries (.ok none, src)
  | complete {index : PatchIndex} {rest : List UInt8} {src : σ} : s.ending = .marker rest →
      index.Indexes patch s → H src → Scanned H patch s maxEntries (.ok (some index), src)
  | failed {e : DeltaError} {src : σ} : s.ending.error? = some e →
      Scanned H patch s maxEntries (.error e, src)

omit [Source σ] in
/-- A record at which the entries are too many ends the scan. -/
theorem Scanned.of_read {s : Spelling} {maxEntries : Option Nat} {sample : Bool} {size : Nat}
    {src : σ} (h : H src) {next : Except DeltaError (Option PatchIndex) × σ}
    (hnext : Scanned H patch s maxEntries next) : Scanned H patch s maxEntries
      (if sample && maxEntries.any (· ≤ size) then (.ok none, src) else next) := by
  split
  · rename_i hfull
    refine .full ?_ h
    rintro rfl
    rw [Option.any_none, Bool.and_false] at hfull
    cases hfull
  · exact hnext

/-- Scanning on from a record completes the index, unless the entries get too many or the patch ends
with an error. -/
theorem scanned_scanFrom (k : Source.Holding H patch) {mode : Mode} {s : Spelling}
    (h : SourceCursor.At H patch c bytes) (hm : b.mode = mode) (front : List Instruction)
    (hs : s = (spell b bytes).behindAll front) (interval : Nat) (maxEntries : Option Nat)
    {number : Nat} {entries : Array IndexEntry}
    (hk : Kept patch mode s number (outputLength front) entries) :
    Scanned H patch s maxEntries
      (scanFrom interval maxEntries c b number (outputLength front) entries) := by
  have d := SourceCursor.delivery_at k
  have he := marks_at h hm hs
  have hend : s.ending = (spell b bytes).ending := by
    rw [hs]
    rfl
  fun_induction spell b bytes generalizing c number front entries with
  | case1 b bytes hp =>
    obtain ⟨c', hr, -⟩ := d.readRecord_cut h hp c.position
    rw [scanFrom_of_error hr]
    exact .failed (by rw [hend]; rfl)
  | case2 b bytes rest hp =>
    obtain ⟨c', hr, hrest⟩ := d.readRecord h hp c.position
    have hk' := hk.sampled he interval 0
    rw [scanFrom_of_read hr]
    have hfirst := hk'.first.resolve_left fun hnone => Nat.succ_ne_zero number hnone.2.1
    refine .of_read hrest.holds (.complete hend ⟨?_, hfirst, ?_⟩ hrest.holds)
    · rw [hm]
      exact hk'.marks
    · rw [hs]
      simp [Spelling.behindAll]
  | case3 b bytes length rest hp hl ih =>
    obtain ⟨c', hr, hrest⟩ := d.readRecord h hp c.position
    have hlen : outputLength front + length =
        outputLength (front ++ [.literal (packBytes (rest.take length))]) := by
      simp [Instruction.outputLength, hl]
    have hin := hrest.length_rest
    have hsrc := k.length hrest.holds
    have hs' := hs.trans (Spelling.behindAll_behind _ _ _)
    have hat := hrest.moved hrest.holds hl
    rw [scanFrom_of_read hr]
    refine .of_read hrest.holds ?_
    simp only
    rw [if_neg (by omega), hlen]
    exact ih hat hm _ hs' (hk.sampled he interval _) (marks_at hat hm hs') hend
  | case4 b bytes length rest hp hl =>
    obtain ⟨c', hr, hrest⟩ := d.readRecord h hp c.position
    have hin := hrest.length_rest
    have hsrc := k.length hrest.holds
    rw [scanFrom_of_read hr]
    refine .of_read hrest.holds ?_
    simp only
    rw [if_pos (by omega)]
    exact .failed (by rw [hend]; rfl)
  | case5 b bytes value length rest hp e b' hd =>
    obtain ⟨c', hr, hrest⟩ := d.readRecord h hp c.position
    rw [scanFrom_of_read hr]
    refine .of_read hrest.holds ?_
    simp only [hd]
    exact .failed (by rw [hend]; rfl)
  | case6 b bytes value length rest hp offset b' hd ih =>
    obtain ⟨c', hr, hrest⟩ := d.readRecord h hp c.position
    have hlen : outputLength front + length = outputLength (front ++ [.copy offset length]) := by
      simp [Instruction.outputLength]
    have hs' := hs.trans (Spelling.behindAll_behind _ _ _)
    have hm' := (OffsetBase.mode_of_decode hd).trans hm
    rw [scanFrom_of_read hr]
    refine .of_read hrest.holds ?_
    simp only [hd]
    rw [hlen]
    exact ih hrest hm' _ hs' (hk.sampled he interval _) (marks_at hrest hm' hs') hend

theorem scanned_scan (k : Source.Holding H patch) {src : σ} (h : H src) {s : Spelling}
    (hs : spellPatch? patch = some s) (interval : Nat) (maxEntries : Option Nat) :
    Scanned H patch s maxEntries (scan interval maxEntries src) := by
  obtain ⟨mode, hm, rfl⟩ := Option.map_eq_some_iff.mp hs
  have hstart : SourceCursor.At H patch ⟨src, 0⟩ patch := ⟨h, Nat.zero_le _, rfl⟩
  obtain ⟨c, hr, hc⟩ := (SourceCursor.delivery_at k).readPreamble hstart hm
  have hk : Kept patch mode (spell { mode } (patch.drop preambleLength)) 0 (outputLength []) #[] :=
    ⟨nofun, .inl ⟨rfl, rfl, rfl⟩⟩
  rw [scan, hr]
  exact scanned_scanFrom k hc (b := { mode }) rfl [] rfl interval maxEntries hk

/-- What has no preamble cannot be scanned. -/
theorem scan_of_none (k : Source.Holding H patch) {src : σ} (h : H src)
    (hs : spellPatch? patch = none) (interval : Nat) (maxEntries : Option Nat) :
    ∃ src', scan interval maxEntries src = (.error .invalidMagic, src') ∧ H src' := by
  have hstart : SourceCursor.At H patch ⟨src, 0⟩ patch := ⟨h, Nat.zero_le _, rfl⟩
  obtain ⟨c, rest, hr, hc⟩ :=
    (SourceCursor.delivery_at k).readPreamble_invalid hstart (Option.map_eq_none_iff.mp hs)
  refine ⟨c.source, ?_, hc.holds⟩
  rw [scan, hr]

/-! ## Indexing -/

/-- What several scans of a patch come to: each of them finds too many entries, or the last is
complete or fails. -/
inductive Built (H : σ → Prop) (patch : List UInt8) (s : Spelling) (maxEntries : Option Nat) :
    Except DeltaError PatchIndex × σ → Prop
  | exhausted {attempts interval : Nat} {src : σ} : maxEntries ≠ none →
      Built H patch s maxEntries (.error (.indexExhausted attempts interval), src)
  | complete {index : PatchIndex} {rest : List UInt8} {src : σ} : s.ending = .marker rest →
      index.Indexes patch s → H src → Built H patch s maxEntries (.ok index, src)
  | failed {e : DeltaError} {src : σ} : s.ending.error? = some e →
      Built H patch s maxEntries (.error e, src)

theorem built_buildFrom (k : Source.Holding H patch) {src : σ} (h : H src) {s : Spelling}
    (hs : spellPatch? patch = some s) (options : IndexOptions) (interval : Nat) {attempts : Nat}
    (ha : 0 < attempts) :
    Built H patch s options.maxEntries (buildFrom options interval src attempts) := by
  induction attempts generalizing interval src with
  | zero => exact absurd ha (Nat.lt_irrefl 0)
  | succ attempts ih =>
    have hscan := scanned_scan k h hs interval options.maxEntries
    rw [buildFrom]
    generalize scan interval options.maxEntries src = outcome at hscan
    cases hscan with
    | full hlimit h' =>
      by_cases h₀ : attempts = 0
      · simp only [if_pos h₀]
        exact .exhausted hlimit
      · simp only [if_neg h₀]
        exact ih h' _ (Nat.pos_of_ne_zero h₀)
    | complete hend hx h' => exact .complete hend hx h'
    | failed he => exact .failed he

theorem built_build (k : Source.Holding H patch) {src : σ} (h : H src) {s : Spelling}
    (hs : spellPatch? patch = some s) {options : IndexOptions} (hi : 0 < options.interval)
    (ha : 0 < options.maxAttempts) : Built H patch s options.maxEntries (build src options) := by
  rw [build, if_neg (by omega)]
  exact built_buildFrom k h hs options options.interval ha

/-- Indexing a patch succeeds, or every scan keeps more entries than are wanted. -/
theorem exists_build (k : Source.Holding H patch) {src : σ} (h : H src) {s : Spelling}
    (hs : spellPatch? patch = some s) {rest : List UInt8} (hend : s.ending = .marker rest)
    {options : IndexOptions} (hi : 0 < options.interval) (ha : 0 < options.maxAttempts) :
    (∃ index src', build src options = (.ok index, src') ∧ H src' ∧ index.Indexes patch s) ∨
      options.maxEntries ≠ none ∧ ∃ attempts interval src',
        build src options = (.error (.indexExhausted attempts interval), src') := by
  have hbuilt := built_build k h hs hi ha
  generalize build src options = outcome at hbuilt
  cases hbuilt with
  | exhausted hlimit => exact .inr ⟨hlimit, _, _, _, rfl⟩
  | complete _ hx h' => exact .inl ⟨_, _, rfl, h', hx⟩
  | failed he =>
    rw [hend] at he
    cases he

/-- Where there is no limit, the index does not get too long. -/
theorem build_ne_exhausted (k : Source.Holding H patch) (src : σ) (h : H src) {s : Spelling}
    (hs : spellPatch? patch = some s) {rest : List UInt8} (hend : s.ending = .marker rest)
    (options : IndexOptions) (hi : 0 < options.interval) (ha : 0 < options.maxAttempts)
    (hlimit : options.maxEntries = none) (attempts interval : Nat) :
    (build src options).1 ≠ .error (.indexExhausted attempts interval) := by
  rcases exists_build k h hs hend hi ha with ⟨index, src', hb, -⟩ | ⟨hne, -⟩
  · rw [hb]
    nofun
  · exact absurd hlimit hne

/-- An index is one of a patch that ends with its end marker. -/
theorem of_build (k : Source.Holding H patch) {src src' : σ} (h : H src) {options : IndexOptions}
    {index : PatchIndex} (hb : build src options = (.ok index, src')) :
    ∃ s rest, spellPatch? patch = some s ∧ s.ending = .marker rest ∧ index.Indexes patch s := by
  by_cases hopt : options.interval = 0 ∨ options.maxAttempts = 0
  · rw [build, if_pos hopt] at hb
    cases hb
  · obtain ⟨hi, ha⟩ := not_or.mp hopt
    cases hs : spellPatch? patch with
    | none =>
      obtain ⟨attempts, hattempts⟩ := Nat.exists_eq_add_one_of_ne_zero ha
      obtain ⟨src₁, hscan, -⟩ := scan_of_none k h hs options.interval options.maxEntries
      rw [build, if_neg hopt, hattempts, buildFrom, hscan] at hb
      cases hb
    | some s =>
      have hbuilt := built_build k h hs (Nat.pos_of_ne_zero hi) (Nat.pos_of_ne_zero ha)
      rw [hb] at hbuilt
      cases hbuilt with
      | complete hend hx => exact ⟨s, _, rfl, hend, hx⟩

/-! ## Looking up -/

theorem exists_firstBehind {entries : Array IndexEntry} {offset : Nat}
    (h₀ : ∃ e, entries[0]? = some e ∧ e.targetOffset ≤ offset) (first size : Nat)
    (hle : first + size ≤ entries.size) (hpos : 0 < first + size)
    (hf : 0 < first → ∃ e, entries[first - 1]? = some e ∧ e.targetOffset ≤ offset) :
    ∃ e, entries[firstBehind entries offset first size - 1]? = some e ∧
      e.targetOffset ≤ offset := by
  fun_induction firstBehind entries offset first size with
  | case1 first => exact hf hpos
  | case2 first size hs half hnone =>
    have := Array.getElem?_eq_none_iff.mp hnone
    omega
  | case3 first size hs half e he hbefore ih =>
    refine ih (by omega) (by omega) fun _ => ⟨e, ?_, hbefore⟩
    rw [Nat.add_sub_cancel]
    exact he
  | case4 first size hs half e he hbehind ih =>
    refine ih (by omega) ?_ hf
    -- the first entry is not behind the offset
    by_contra hzero
    obtain ⟨e₀, he₀, hle₀⟩ := h₀
    have hplace : first + half = 0 := by omega
    rw [hplace, he₀] at he
    cases he
    exact hbehind hle₀

/-- The entry that a range is resolved from does not lie behind it. -/
theorem exists_entryFor {s : Spelling} {index : PatchIndex} (hx : index.Indexes patch s)
    (offset : Nat) : ∃ e, index.entryFor? offset = some e ∧ e.targetOffset ≤ offset ∧
      e.Marks patch index.mode s := by
  obtain ⟨e₀, he₀, hzero⟩ := hx.first
  obtain ⟨hlt, -⟩ := Array.getElem?_eq_some_iff.mp he₀
  have hbefore : e₀.targetOffset ≤ offset := by omega
  obtain ⟨e, he, hle⟩ := exists_firstBehind ⟨e₀, he₀, hbefore⟩ 0 index.entries.size (by omega)
    (by omega) nofun
  exact ⟨e, he, hle, hx.marks e (Array.mem_of_getElem? he)⟩

/-- What an index marks is spelled behind instructions that end in front of the range. -/
theorem Indexes.exists_front {s : Spelling} {index : PatchIndex} (hx : index.Indexes patch s)
    (offset : Nat) : ∃ e front, index.entryFor? offset = some e ∧ e.wireOffset ≤ patch.length ∧
      outputLength front = e.targetOffset ∧ outputLength front ≤ offset ∧
      s = (spell ⟨index.mode, e.baseOffset⟩ (patch.drop e.wireOffset)).behindAll front := by
  obtain ⟨e, he, hle, hwire, front, hfront, hs⟩ := exists_entryFor hx offset
  exact ⟨e, front, he, hwire, hfront, hfront ▸ hle, hs⟩

/-- No call for a range is an empty copy or more than a record can hold. -/
theorem Indexes.short {s : Spelling} {index : PatchIndex} (hx : index.Indexes patch s)
    (offset stop : Nat) : ∀ step ∈ rangeSteps 0 offset stop s.instructions, step.Short := by
  obtain ⟨e, front, -, -, -, hle, hs⟩ := hx.exists_front offset
  rw [congrArg Spelling.instructions hs, Spelling.behindAll, rangeSteps_append (by omega)]
  exact short_rangeSteps (outputLength_lt_of_spell _ _) _ _ _

/-- A range that does not begin beyond has no call from there. -/
theorem Indexes.addressed {s : Spelling} {index : PatchIndex} (hx : index.Indexes patch s)
    {offset length : Nat} (hnear : ¬ BeginsBeyond s.instructions offset length) :
    ∀ step ∈ rangeSteps 0 offset (offset + length) s.instructions, step.Addressed := by
  obtain ⟨e, front, -, -, -, hle, hs⟩ := hx.exists_front offset
  rw [congrArg Spelling.instructions hs, Spelling.behindAll] at hnear ⊢
  rw [beginsBeyond_append hle] at hnear
  rw [rangeSteps_append (by omega), Nat.zero_add]
  refine addressed_rangeSteps (fun copy hcopy => (offset_lt_of_spell _ _ copy hcopy).1) fun _ => ?_
  rwa [Nat.add_sub_cancel_left]

section Range

variable {κ : Type} [InstructionSink κ] {s : Spelling} {index : PatchIndex} {offset length : Nat}

/-- For a range the calls for it are handed on, whichever entry they are resolved from. -/
theorem resolveInto_eq (k : Source.Holding H patch) {src : σ} (h : H src)
    (hx : index.Indexes patch s) {rest : List UInt8} (hend : s.ending = .marker rest)
    (hrange : offset + length ≤ outputLength s.instructions) (sink : κ) :
    ∃ src', index.resolveInto src offset length sink =
        ((handOn sink (rangeSteps 0 offset (offset + length) s.instructions)).1, src',
          (handOn sink (rangeSteps 0 offset (offset + length) s.instructions)).2) ∧ H src' := by
  have hlen := hx.targetLength
  by_cases h₀ : length = 0
  · subst h₀
    rw [resolveInto, if_neg (by omega), if_pos rfl, Nat.add_zero, rangeSteps_empty]
    exact ⟨src, rfl, h⟩
  · obtain ⟨e, front, he, hwire, hfront, hle, hs⟩ := hx.exists_front offset
    let is := (spell ⟨index.mode, e.baseOffset⟩ (patch.drop e.wireOffset)).instructions
    have his : s.instructions = front ++ is := congrArg Spelling.instructions hs
    rw [resolveInto, if_neg (by omega), if_neg h₀, he, his, rangeSteps_append (by omega),
      Nat.zero_add, hfront]
    rw [his, outputLength_append, hfront] at hrange
    exact resolveFrom_eq k ⟨h, hwire, rfl⟩ (hs ▸ hend) sink offset hrange

/-- A range that does not begin beyond is fed to the sink. -/
theorem resolveInto_of_near (k : Source.Holding H patch) {src : σ} (h : H src)
    (hx : index.Indexes patch s) {rest : List UInt8} (hend : s.ending = .marker rest)
    (hrange : offset + length ≤ outputLength s.instructions)
    (hnear : ¬ BeginsBeyond s.instructions offset length) (sink : κ) :
    ∃ src', index.resolveInto src offset length sink =
        ((feed sink (rangeSteps 0 offset (offset + length) s.instructions)).1, src',
          (feed sink (rangeSteps 0 offset (offset + length) s.instructions)).2) ∧ H src' := by
  rw [← handOn_eq_feed (hx.addressed hnear)]
  exact resolveInto_eq k h hx hend hrange sink

/-- A range that begins beyond is given up, and nothing of it is handed on. -/
theorem resolveInto_of_beginsBeyond (k : Source.Holding H patch) {src : σ} (h : H src)
    (hx : index.Indexes patch s) {rest : List UInt8} (hend : s.ending = .marker rest)
    (hrange : offset + length ≤ outputLength s.instructions)
    (hbeyond : BeginsBeyond s.instructions offset length) (sink : κ) :
    ∃ src', index.resolveInto src offset length sink =
        (.error (.overflow .sum), src', sink) ∧ H src' := by
  obtain ⟨src', hr, h'⟩ := resolveInto_eq k h hx hend hrange sink
  rw [handOn_of_beginsBeyond (Nat.zero_le _) (by rwa [Nat.sub_zero, Nat.add_sub_cancel_left])] at hr
  exact ⟨src', hr, h'⟩

/-- Outside the target nothing is handed on. -/
theorem resolveInto_of_lt (h : index.targetLength < offset + length) (src : σ) (sink : κ) :
    index.resolveInto src offset length sink =
      (.error (.rangeOutOfBounds offset length index.targetLength), src, sink) :=
  if_pos h

end Range

end PatchIndex

end BinaryDelta
