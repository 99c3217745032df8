import BinaryDelta.Proofs.Merge.Index
import BinaryDelta.Proofs.Patch.Accept
import Mathlib.Data.List.Destutter

/-!
# Which records an index keeps

An index is its sampling rule and nothing else. `recordEntries` lists an entry for every record of a
patch, the end marker included. Of these `samples` takes those whose numbers are multiples of the
interval, and of those again the ones that begin at another target offset than the one taken before:
records without output leave no second entry for a place.

The limit of entries never changes what is kept. A scan that finds too many gives up, and the next
one is made with twice the interval, so the index is the one of the first interval that is coarse
enough.

* `patchEntries` are the entries of a whole patch, `samples` those that an index keeps.
* `IndexOptions.intervalAt` is the interval of the scan with this number, `Within` says that so many
  entries are wanted.

Results:
* `getElem?_patchEntries`: what the entry of each record says.
* `pairwise_samples`: samples ascend in the patch and in the target.
* `PatchIndex.keepAll_eq_samples`: what a scan keeps one by one is what the rule takes.
* `PatchIndex.exists_scan`: a scan comes to the samples, or to nothing if these are too many.
* **`PatchIndex.build_eq_samples`**: indexing is sampling with the first interval that is coarse
  enough.
-/

namespace BinaryDelta

/-! ## The entries of all records -/

/-- The entries of the records from here on, up to the end marker, which counts as one. `size` is
the length of the whole patch and `target` that of the output in front. -/
def recordEntries (size : Nat) (b : OffsetBase) (target : Nat) (bytes : List UInt8) :
    List IndexEntry :=
  let e : IndexEntry := ⟨target, size - bytes.length, b.current⟩
  match _h : Record.parse? b.mode bytes with
  | none => []
  | some (.eof, _) => [e]
  | some (.literal length, rest) =>
    if length ≤ rest.length then
      e :: recordEntries size b (target + length) (rest.drop length)
    else [e]
  | some (.copy value length, rest) =>
    match b.decode value with
    | (.error _, _) => [e]
    | (.ok _, b) => e :: recordEntries size b (target + length) rest
termination_by bytes.length
decreasing_by
  · have := Record.length_lt_of_parse? _h
    rw [List.length_drop]
    omega
  · exact Record.length_lt_of_parse? _h

/-- The entries of all records behind the preamble of a patch. -/
def patchEntries (mode : Mode) (records : List UInt8) : List IndexEntry :=
  recordEntries (preambleLength + records.length) { mode } 0 records

section Step

variable {size target length : Nat} {b b' : OffsetBase} {bytes rest : List UInt8}

theorem recordEntries_marker (hp : Record.parse? b.mode bytes = some (.eof, rest)) :
    recordEntries size b target bytes = [⟨target, size - bytes.length, b.current⟩] := by
  rw [recordEntries, hp]

theorem recordEntries_literal (hp : Record.parse? b.mode bytes = some (.literal length, rest))
    (hl : length ≤ rest.length) :
    recordEntries size b target bytes = ⟨target, size - bytes.length, b.current⟩ ::
      recordEntries size b (target + length) (rest.drop length) := by
  rw [recordEntries, hp]
  simp only [if_pos hl]

theorem recordEntries_copy {value : Int} {offset : Nat}
    (hp : Record.parse? b.mode bytes = some (.copy value length, rest))
    (hd : b.decode value = (.ok offset, b')) :
    recordEntries size b target bytes = ⟨target, size - bytes.length, b.current⟩ ::
      recordEntries size b' (target + length) rest := by
  rw [recordEntries, hp]
  simp only [hd]

end Step

/-- Decoding an offset moves the base as the copy does. -/
theorem OffsetBase.past_of_decode {b b' : OffsetBase} {value : Int} {offset : Nat}
    (h : b.decode value = (.ok offset, b')) (length : Nat) : b.past (.copy offset length) = b' := by
  rcases b with ⟨mode, base⟩
  rcases of_decode_ok h with ⟨rfl, -, rfl⟩ | ⟨rfl, -, -, rfl⟩
  · rfl
  · rfl

/-- There is an entry for every instruction and one for the end marker. -/
theorem length_recordEntries {b : OffsetBase} {bytes rest : List UInt8}
    (hend : (spell b bytes).ending = .marker rest) (size target : Nat) :
    (recordEntries size b target bytes).length = (spell b bytes).instructions.length + 1 := by
  fun_induction spell b bytes generalizing target with
  | case1 b bytes hp => cases hend
  | case2 b bytes rest' hp =>
    rw [recordEntries_marker hp]
    rfl
  | case3 b bytes length rest' hp hl ih =>
    rw [recordEntries_literal hp hl, List.length_cons, ih hend]
    rfl
  | case4 b bytes length rest' hp hl => cases hend
  | case5 b bytes value length rest' hp e b' hd => cases hend
  | case6 b bytes value length rest' hp offset b' hd ih =>
    rw [recordEntries_copy hp hd, List.length_cons, ih hend]
    rfl

/-- The first entry is that of the record at hand. -/
theorem eq_of_mem_head?_recordEntries (size : Nat) (b : OffsetBase) (target : Nat)
    (bytes : List UInt8) : ∀ e ∈ (recordEntries size b target bytes).head?,
      e = ⟨target, size - bytes.length, b.current⟩ := by
  intro e he
  rw [recordEntries] at he
  split at he
  · cases he
  · cases he
    rfl
  · split at he <;> cases he <;> rfl
  · split at he <;> cases he <;> rfl

/-- The entry is that of a record of the patch with so many instructions in front of it. It says how
much these append and which offset base they leave, and the others are spelled with it from there
on. -/
structure IndexEntry.OfRecord (patch : List UInt8) (b : OffsetBase) (target : Nat) (s : Spelling)
    (number : Nat) (e : IndexEntry) : Prop where
  targetOffset : e.targetOffset = target + outputLength (s.instructions.take number)
  baseOffset : e.baseOffset = ((s.instructions.take number).foldl OffsetBase.past b).current
  spell_drop : spell ⟨b.mode, e.baseOffset⟩ (patch.drop e.wireOffset) =
    ⟨s.instructions.drop number, s.ending⟩

namespace IndexEntry.OfRecord

variable {patch bytes : List UInt8} {b : OffsetBase} {target number : Nat} {s : Spelling}
  {e e' : IndexEntry}

/-- The entry of the record at hand. -/
theorem first (b : OffsetBase) (target : Nat) (hs : bytes <:+ patch) :
    OfRecord patch b target (spell b bytes) 0
      ⟨target, patch.length - bytes.length, b.current⟩ where
  targetOffset := rfl
  baseOffset := rfl
  spell_drop := by
    rw [← List.suffix_iff_eq_drop.mp hs]
    rfl

/-- Behind another instruction records have higher numbers. -/
theorem behind {i : Instruction}
    (h : OfRecord patch (b.past i) (target + i.outputLength) s number e) :
    OfRecord patch b target (s.behind i) (number + 1) e where
  targetOffset := by
    rw [h.targetOffset, Spelling.instructions_behind, List.take_succ_cons, outputLength_cons,
      Nat.add_assoc]
  baseOffset := h.baseOffset
  spell_drop := by
    rw [← OffsetBase.mode_past b i]
    exact h.spell_drop

theorem of_cons (he : OfRecord patch b target s 0 e) {es : List IndexEntry}
    (hes : ∀ n, es[n]? = some e' → OfRecord patch b target s (n + 1) e')
    (h : (e :: es)[number]? = some e') : OfRecord patch b target s number e' := by
  cases number with
  | zero =>
    cases h
    exact he
  | succ n => exact hes n h

theorem of_singleton (he : OfRecord patch b target s 0 e) (h : [e][number]? = some e') :
    OfRecord patch b target s number e' := by
  refine he.of_cons (fun n hn => ?_) h
  rw [List.getElem?_nil] at hn
  cases hn

end IndexEntry.OfRecord

/-- The entries are those of the records, in order. -/
theorem ofRecord_recordEntries {patch : List UInt8} (b : OffsetBase) (target : Nat)
    {bytes : List UInt8} (hs : bytes <:+ patch) {number : Nat} {e : IndexEntry}
    (he : (recordEntries patch.length b target bytes)[number]? = some e) :
    e.OfRecord patch b target (spell b bytes) number := by
  have hfirst := IndexEntry.OfRecord.first b target hs
  fun_induction recordEntries patch.length b target bytes generalizing number with
  | case1 b target bytes hp => cases he
  | case2 b target bytes rest hp => exact hfirst.of_singleton he
  | case3 b target bytes e' length rest hp hl ih =>
    refine hfirst.of_cons (fun n hn => ?_) he
    have hrest := ((List.drop_suffix length rest).trans (Record.suffix_of_parse? hp)).trans hs
    have h := ih hrest hn (.first b _ hrest)
    rw [spell_literal hp, if_pos hl]
    refine .behind ?_
    rw [Instruction.outputLength, size_packBytes, List.length_take_of_le hl]
    exact h
  | case4 b target bytes e' length rest hp hl => exact hfirst.of_singleton he
  | case5 b target bytes e' value length rest hp e'' b' hd => exact hfirst.of_singleton he
  | case6 b target bytes e' value length rest hp offset b' hd ih =>
    refine hfirst.of_cons (fun n hn => ?_) he
    have hrest := (Record.suffix_of_parse? hp).trans hs
    have h := ih hrest hn (.first b' _ hrest)
    rw [← OffsetBase.past_of_decode hd length] at h
    rw [spell_copy hp hd, ← OffsetBase.past_of_decode hd length]
    exact h.behind

/-- The entries are in order: a later one is behind the other in the patch, and in the target it is
not in front of it. -/
def IndexEntry.Precedes (e e' : IndexEntry) : Prop :=
  e.targetOffset ≤ e'.targetOffset ∧ e.wireOffset < e'.wireOffset

/-- No entry is in front of the record at hand. -/
theorem le_of_mem_recordEntries (size : Nat) (b : OffsetBase) (target : Nat) (bytes : List UInt8) :
    ∀ e ∈ recordEntries size b target bytes,
      target ≤ e.targetOffset ∧ size - bytes.length ≤ e.wireOffset := by
  fun_induction recordEntries size b target bytes with
  | case1 b target bytes hp => exact List.forall_mem_nil _
  | case2 b target bytes rest hp =>
    exact List.forall_mem_singleton.mpr ⟨Nat.le_refl _, Nat.le_refl _⟩
  | case3 b target bytes e length rest hp hl ih =>
    have hlt := Record.length_lt_of_parse? hp
    rw [List.length_drop] at ih
    refine List.forall_mem_cons.mpr ⟨⟨Nat.le_refl _, Nat.le_refl _⟩, fun e he => ?_⟩
    have := ih e he
    omega
  | case4 b target bytes e length rest hp hl =>
    exact List.forall_mem_singleton.mpr ⟨Nat.le_refl _, Nat.le_refl _⟩
  | case5 b target bytes e value length rest hp e' b' hd =>
    exact List.forall_mem_singleton.mpr ⟨Nat.le_refl _, Nat.le_refl _⟩
  | case6 b target bytes e value length rest hp offset b' hd ih =>
    have hlt := Record.length_lt_of_parse? hp
    refine List.forall_mem_cons.mpr ⟨⟨Nat.le_refl _, Nat.le_refl _⟩, fun e he => ?_⟩
    have := ih e he
    omega

/-- The entries of all records are in order. -/
theorem pairwise_recordEntries {size : Nat} (b : OffsetBase) (target : Nat) {bytes : List UInt8}
    (hs : bytes.length ≤ size) :
    (recordEntries size b target bytes).Pairwise IndexEntry.Precedes := by
  fun_induction recordEntries size b target bytes with
  | case1 b target bytes hp => exact .nil
  | case2 b target bytes rest hp => exact List.pairwise_singleton _ _
  | case3 b target bytes e length rest hp hl ih =>
    have hlt := Record.length_lt_of_parse? hp
    have hle := le_of_mem_recordEntries size b (target + length) (rest.drop length)
    rw [List.length_drop] at ih hle
    refine .cons (fun e' he' => ?_) (ih (by omega))
    have := hle e' he'
    exact ⟨by dsimp only [e]; omega, by dsimp only [e]; omega⟩
  | case4 b target bytes e length rest hp hl => exact List.pairwise_singleton _ _
  | case5 b target bytes e value length rest hp e' b' hd => exact List.pairwise_singleton _ _
  | case6 b target bytes e value length rest hp offset b' hd ih =>
    have hlt := Record.length_lt_of_parse? hp
    refine .cons (fun e' he' => ?_) (ih (by omega))
    have := le_of_mem_recordEntries size b' (target + length) rest e' he'
    exact ⟨by dsimp only [e]; omega, by dsimp only [e]; omega⟩

section Patch

variable {mode : Mode} {records : List UInt8} {is : List Instruction}

theorem length_patchEntries (hr : Reads mode 0 records is) :
    (patchEntries mode records).length = is.length + 1 := by
  obtain ⟨rfl, rest, hend⟩ := reads_iff.mp hr
  exact length_recordEntries hend _ _

/-- The first record stands behind the preamble. -/
theorem head?_patchEntries (hr : Reads mode 0 records is) :
    (patchEntries mode records).head? = some ⟨0, preambleLength, 0⟩ := by
  have hlength := length_patchEntries hr
  have hhead := eq_of_mem_head?_recordEntries (preambleLength + records.length) { mode } 0 records
  rw [Nat.add_sub_cancel] at hhead
  cases hes : patchEntries mode records with
  | nil =>
    rw [hes] at hlength
    cases hlength
  | cons e es =>
    rw [patchEntries] at hes
    rw [hes] at hhead
    rw [List.head?_cons, hhead e rfl]

/-- The entry of each record says how much is appended in front of it and which offset base the
instructions in front of it leave, and the others are read with it from there on. -/
theorem getElem?_patchEntries (hr : Reads mode 0 records is) {number : Nat} {e : IndexEntry}
    (he : (patchEntries mode records)[number]? = some e) :
    e.targetOffset = outputLength (is.take number) ∧
      e.baseOffset = ((is.take number).foldl OffsetBase.past { mode }).current ∧
      Reads mode e.baseOffset ((preamble mode ++ records).drop e.wireOffset) (is.drop number) := by
  have hlen : (preamble mode ++ records).length = preambleLength + records.length :=
    List.length_append
  obtain ⟨rfl, rest, hend⟩ := reads_iff.mp hr
  rw [patchEntries, ← hlen] at he
  have hrecord := ofRecord_recordEntries { mode } 0 (List.suffix_append _ records) he
  refine ⟨?_, hrecord.baseOffset, reads_iff.mpr ⟨?_, rest, ?_⟩⟩
  · rw [hrecord.targetOffset, Nat.zero_add]
  · rw [hrecord.spell_drop]
  · rw [hrecord.spell_drop, hend]

end Patch

/-! ## The rule -/

/-- Those of the entries whose numbers are multiples of the interval, if the first has this one. -/
def multiples (interval number : Nat) (es : List IndexEntry) : List IndexEntry :=
  ((es.zipIdx number).filter fun p => p.2 % interval == 0).map Prod.fst

/-- Dropping repetitions keeps the first element. -/
theorem head?_destutter' {α : Type} (R : α → α → Prop) [DecidableRel R] (a : α) (l : List α) :
    (l.destutter' R a).head? = some a := by
  induction l with
  | nil => rfl
  | cons b l ih =>
    rw [List.destutter'_cons]
    split
    · rfl
    · exact ih

/-- The entries that an index with this interval keeps of all these. -/
def samples (interval : Nat) (es : List IndexEntry) : List IndexEntry :=
  (multiples interval 0 es).destutter fun e e' => e.targetOffset ≠ e'.targetOffset

theorem multiples_cons_of_dvd {interval number : Nat} (h : number % interval = 0) (e : IndexEntry)
    (es : List IndexEntry) :
    multiples interval number (e :: es) = e :: multiples interval (number + 1) es := by
  rw [multiples, List.zipIdx_cons, List.filter_cons, if_pos (beq_iff_eq.mpr h), List.map_cons,
    ← multiples]

theorem multiples_cons_of_not_dvd {interval number : Nat} (h : number % interval ≠ 0)
    (e : IndexEntry) (es : List IndexEntry) :
    multiples interval number (e :: es) = multiples interval (number + 1) es := by
  rw [multiples, List.zipIdx_cons, List.filter_cons, if_neg (fun hb => h (beq_iff_eq.mp hb)),
    ← multiples]

theorem multiples_sublist (interval number : Nat) (es : List IndexEntry) :
    (multiples interval number es).Sublist es := by
  induction es generalizing number with
  | nil => exact .slnil
  | cons e es ih =>
    by_cases h : number % interval = 0
    · rw [multiples_cons_of_dvd h]
      exact (ih _).cons_cons e
    · rw [multiples_cons_of_not_dvd h]
      exact (ih _).cons e

theorem samples_sublist (interval : Nat) (es : List IndexEntry) :
    (samples interval es).Sublist es :=
  (List.destutter_sublist _ _).trans (multiples_sublist interval 0 es)

/-- The first of the entries is always taken. -/
theorem head?_samples (interval : Nat) (es : List IndexEntry) :
    (samples interval es).head? = es.head? := by
  cases es with
  | nil => rfl
  | cons e es =>
    rw [samples, multiples_cons_of_dvd (Nat.zero_mod _), List.destutter_cons', head?_destutter']
    rfl

/-- Of entries in order the samples ascend in the target, too. -/
theorem pairwise_samples {es : List IndexEntry} (h : es.Pairwise IndexEntry.Precedes)
    (interval : Nat) : (samples interval es).Pairwise fun e e' =>
      e.targetOffset < e'.targetOffset ∧ e.wireOffset < e'.wireOffset := by
  have hle := h.sublist (samples_sublist interval es)
  have hne : (samples interval es).IsChain fun e e' => e.targetOffset ≠ e'.targetOffset :=
    List.isChain_destutter _ _
  have hlt : (samples interval es).IsChain fun e e' => e.targetOffset < e'.targetOffset :=
    List.isChain_iff_getElem.mpr fun i hi => Nat.lt_of_le_of_ne
      (List.pairwise_iff_getElem.mp hle i (i + 1) _ hi (Nat.lt_succ_self i)).1
      (List.isChain_iff_getElem.mp hne i hi)
  have htrans : IsTrans IndexEntry fun e e' => e.targetOffset < e'.targetOffset :=
    ⟨fun _ _ _ => Nat.lt_trans⟩
  exact hlt.pairwise.and (hle.imp And.right)

namespace PatchIndex

/-- What is kept of the records from this number on. -/
def keepAll (interval number : Nat) (entries : Array IndexEntry) :
    List IndexEntry → Array IndexEntry
  | [] => entries
  | e :: es => keepAll interval (number + 1) (sampled interval entries number e) es

/-- What is kept behind the last entry depends on that one only. -/
theorem toList_keepAll (interval : Nat) {number : Nat} {entries : Array IndexEntry}
    {front : List IndexEntry} {last : IndexEntry} (he : entries.toList = front ++ [last])
    (es : List IndexEntry) : (keepAll interval number entries es).toList = front ++
      (multiples interval number es).destutter'
        (fun e e' => e.targetOffset ≠ e'.targetOffset) last := by
  induction es generalizing number entries front last with
  | nil => exact he
  | cons e es ih =>
    have hback : entries.back? = some last := by
      rw [← Array.getLast?_toList, he, List.getLast?_append_cons, List.getLast?_singleton]
    have hsample : isSample interval entries number e.targetOffset =
        (number % interval == 0 && last.targetOffset != e.targetOffset) := by
      rw [isSample, hback]
      rfl
    rw [keepAll]
    by_cases hn : number % interval = 0
    · rw [multiples_cons_of_dvd hn]
      by_cases ht : last.targetOffset = e.targetOffset
      · rw [List.destutter'_cons_neg _ (by simpa using ht), sampled, hsample, if_neg (by simp [ht])]
        exact ih he
      · rw [List.destutter'_cons_pos _ ht, sampled, hsample, if_pos (by simp [hn, ht])]
        have he' : (entries.push e).toList = (front ++ [last]) ++ [e] := by
          rw [Array.toList_push, he]
        rw [ih he', List.append_assoc]
        rfl
    · rw [multiples_cons_of_not_dvd hn, sampled, hsample, if_neg (by simp [hn])]
      exact ih he

/-- What a scan keeps one by one are the samples. -/
theorem keepAll_eq_samples (interval : Nat) (es : List IndexEntry) :
    keepAll interval 0 #[] es = (samples interval es).toArray := by
  cases es with
  | nil => rfl
  | cons e es =>
    have hfirst : sampled interval #[] 0 e = #[e] := by simp [sampled, isSample]
    have hlast : (#[e] : Array IndexEntry).toList = [] ++ [e] := rfl
    rw [← Array.toList_inj, keepAll, hfirst, toList_keepAll interval hlast, samples,
      multiples_cons_of_dvd (Nat.zero_mod _), List.destutter_cons']
    rfl

theorem size_le_keepAll (interval number : Nat) (entries : Array IndexEntry)
    (es : List IndexEntry) : entries.size ≤ (keepAll interval number entries es).size := by
  induction es generalizing number entries with
  | nil => exact Nat.le_refl _
  | cons e es ih =>
    refine Nat.le_trans ?_ (ih _ _)
    unfold sampled
    split
    · rw [Array.size_push]
      exact Nat.le_succ _
    · exact Nat.le_refl _

/-! ## Scanning -/

variable {σ : Type} [Source σ] {H : σ → Prop} {patch bytes : List UInt8} {c : SourceCursor σ}
  {b : OffsetBase}

/-- Are so many entries wanted? -/
def Within (maxEntries : Option Nat) (count : Nat) : Prop := ∀ limit ∈ maxEntries, count ≤ limit

instance (maxEntries : Option Nat) (count : Nat) : Decidable (Within maxEntries count) :=
  inferInstanceAs (Decidable (∀ limit ∈ maxEntries, count ≤ limit))

/-- The index, unless it has more entries than are wanted. -/
def unlessFull (maxEntries : Option Nat) (index : PatchIndex) : Option PatchIndex :=
  if Within maxEntries index.entries.size then some index else none

/-- A scan gives up at a record if that makes too many entries. -/
theorem isSample_and_any_iff {maxEntries : Option Nat} {entries : Array IndexEntry}
    (hw : Within maxEntries entries.size) (interval number : Nat) (e : IndexEntry) :
    (isSample interval entries number e.targetOffset &&
      maxEntries.any (· ≤ entries.size)) = true ↔
      ¬ Within maxEntries (sampled interval entries number e).size := by
  cases maxEntries with
  | none => simp [Within]
  | some limit =>
    have hle : entries.size ≤ limit := hw limit rfl
    unfold sampled
    split
    · rename_i hs
      have hpush : entries.size + 1 ≤ limit ↔ ¬ limit ≤ entries.size := by omega
      simp only [Within, hs, Bool.true_and, Option.any_some, decide_eq_true_eq, Array.size_push,
        Option.mem_def, Option.some.injEq, forall_eq', hpush, not_not]
    · rename_i hs
      simp [Within, hs, hle]

omit [Source σ] in
/-- A scan goes on from a record, or stops because the entries that it has are too many already. -/
theorem exists_of_sample {maxEntries : Option Nat} {entries : Array IndexEntry}
    (hw : Within maxEntries entries.size) {interval number : Nat} (e : IndexEntry)
    {es : List IndexEntry} {index : PatchIndex}
    (hx : index.entries = keepAll interval number entries (e :: es)) {src : σ} (h : H src)
    {next : Except DeltaError (Option PatchIndex) × σ}
    (hnext : Within maxEntries (sampled interval entries number e).size →
      ∃ src', H src' ∧ next = (.ok (unlessFull maxEntries index), src')) :
    ∃ src', H src' ∧
      (if isSample interval entries number e.targetOffset && maxEntries.any (· ≤ entries.size) then
        (.ok none, src) else next) = (.ok (unlessFull maxEntries index), src') := by
  have hle : (sampled interval entries number e).size ≤ index.entries.size :=
    hx ▸ size_le_keepAll interval (number + 1) _ es
  by_cases hfull : Within maxEntries (sampled interval entries number e).size
  · rw [if_neg (fun hany => (isSample_and_any_iff hw interval number e).mp hany hfull)]
    exact hnext hfull
  · rw [if_pos ((isSample_and_any_iff hw interval number e).mpr hfull), unlessFull,
      if_neg (fun hall => hfull fun limit hl => Nat.le_trans hle (hall limit hl))]
    exact ⟨src, h, rfl⟩

/-- Scanning on from a record keeps the samples of the records from there on. -/
theorem exists_scanFrom (k : Source.Holding H patch) {rest : List UInt8}
    (hend : (spell b bytes).ending = .marker rest) (h : SourceCursor.At H patch c bytes)
    (interval : Nat) (maxEntries : Option Nat) (number target : Nat) {entries : Array IndexEntry}
    (hw : Within maxEntries entries.size) :
    ∃ src, H src ∧ scanFrom interval maxEntries c b number target entries =
      (.ok (unlessFull maxEntries
        ⟨keepAll interval number entries (recordEntries patch.length b target bytes), interval,
          target + outputLength (spell b bytes).instructions, b.mode⟩), src) := by
  have d := SourceCursor.delivery_at k
  have hpos : c.position = patch.length - bytes.length := by
    have := h.length_rest
    omega
  fun_induction spell b bytes generalizing c number target entries with
  | case1 b bytes hp => cases hend
  | case2 b bytes rest' hp =>
    obtain ⟨c', hr, hrest⟩ := d.readRecord h hp c.position
    rw [scanFrom_of_read hr, recordEntries_marker hp, ← hpos]
    refine exists_of_sample hw ⟨target, c.position, b.current⟩ rfl hrest.holds fun hw' => ?_
    rw [unlessFull, if_pos (by exact hw')]
    exact ⟨c'.source, hrest.holds, rfl⟩
  | case3 b bytes length rest' hp hl ih =>
    obtain ⟨c', hr, hrest⟩ := d.readRecord h hp c.position
    have hin := hrest.length_rest
    have hsrc := k.length hrest.holds
    have hat := hrest.moved hrest.holds hl
    have hpos' : c'.position + length = patch.length - (rest'.drop length).length := by
      rw [List.length_drop]
      omega
    have houtput : (Instruction.literal (packBytes (rest'.take length))).outputLength = length := by
      rw [Instruction.outputLength, size_packBytes, List.length_take_of_le hl]
    rw [scanFrom_of_read hr, recordEntries_literal hp hl, ← hpos]
    refine exists_of_sample hw ⟨target, c.position, b.current⟩ rfl hrest.holds fun hw' => ?_
    simp only
    rw [if_neg (by omega), Spelling.instructions_behind, outputLength_cons, houtput,
      ← Nat.add_assoc]
    exact ih hend hat (number + 1) (target + length) hw' hpos'
  | case4 b bytes length rest' hp hl => cases hend
  | case5 b bytes value length rest' hp e b' hd => cases hend
  | case6 b bytes value length rest' hp offset b' hd ih =>
    obtain ⟨c', hr, hrest⟩ := d.readRecord h hp c.position
    have hin := hrest.length_rest
    have hpos' : c'.position = patch.length - rest'.length := by omega
    rw [scanFrom_of_read hr, recordEntries_copy hp hd, ← hpos]
    refine exists_of_sample hw ⟨target, c.position, b.current⟩ rfl hrest.holds fun hw' => ?_
    simp only [hd]
    rw [← OffsetBase.mode_of_decode hd, Spelling.instructions_behind, outputLength_cons,
      Instruction.outputLength, ← Nat.add_assoc]
    exact ih hend hrest (number + 1) (target + length) hw' hpos'

end PatchIndex

/-! ## Indexing -/

/-- The interval of the scan with this number: it is doubled from one scan to the next, up to the
longest there is. -/
def IndexOptions.intervalAt (options : IndexOptions) (n : Nat) : Nat :=
  min (options.interval * 2 ^ n) PatchIndex.maxInterval

theorem IndexOptions.intervalAt_succ (options : IndexOptions) (n : Nat) :
    options.intervalAt (n + 1) = min (2 * options.intervalAt n) PatchIndex.maxInterval := by
  have hdouble : options.interval * 2 ^ (n + 1) = 2 * (options.interval * 2 ^ n) := by
    rw [Nat.pow_succ, Nat.mul_comm 2, Nat.mul_assoc]
  rw [intervalAt, intervalAt, hdouble]
  omega

namespace PatchIndex

section Build

variable {σ : Type} [Source σ] {H : σ → Prop} {mode : Mode} {records : List UInt8}
  {is : List Instruction}

/-- Scanning a patch keeps the samples of its records, unless these are too many. -/
theorem exists_scan (k : Source.Holding H (preamble mode ++ records)) (hr : Reads mode 0 records is)
    {src : σ} (h : H src) (interval : Nat) (maxEntries : Option Nat) :
    ∃ src', H src' ∧ scan interval maxEntries src = (.ok (unlessFull maxEntries
      ⟨(samples interval (patchEntries mode records)).toArray, interval, outputLength is, mode⟩),
      src') := by
  have hm : modeOfPreamble? (preamble mode ++ records) = some mode :=
    modeOfPreamble?_eq_some_iff.mpr ⟨records, rfl⟩
  have hstart : SourceCursor.At H (preamble mode ++ records) ⟨src, 0⟩ (preamble mode ++ records) :=
    ⟨h, Nat.zero_le _, rfl⟩
  obtain ⟨c, hp, hc⟩ := (SourceCursor.delivery_at k).readPreamble hstart hm
  have hlen : (preamble mode).length = preambleLength := rfl
  rw [List.drop_left' hlen] at hc
  obtain ⟨rfl, rest, hend⟩ := reads_iff.mp hr
  have hempty : Within maxEntries (#[] : Array IndexEntry).size := fun limit _ => Nat.zero_le limit
  have hscan := exists_scanFrom k hend hc interval maxEntries 0 0 hempty
  rw [keepAll_eq_samples, Nat.zero_add, List.length_append, hlen] at hscan
  rw [scan, hp]
  exact hscan

variable {options : IndexOptions}

/-- The scan with this number does not find too many entries. -/
def Suffices (options : IndexOptions) (es : List IndexEntry) (n : Nat) : Prop :=
  Within options.maxEntries (samples (options.intervalAt n) es).length

/-- The first scan that does not find too many entries completes the index. -/
theorem exists_buildFrom_of_suffices (k : Source.Holding H (preamble mode ++ records))
    (hr : Reads mode 0 records is) {src : σ} (h : H src) {n : Nat}
    (hn : Suffices options (patchEntries mode records) n) (attempts : Nat) :
    ∃ src', buildFrom options (options.intervalAt n) src (attempts + 1) =
      (.ok ⟨(samples (options.intervalAt n) (patchEntries mode records)).toArray,
        options.intervalAt n, outputLength is, mode⟩, src') := by
  obtain ⟨src', -, hscan⟩ := exists_scan k hr h (options.intervalAt n) options.maxEntries
  rw [unlessFull, if_pos (by exact hn)] at hscan
  refine ⟨src', ?_⟩
  rw [buildFrom, hscan]

/-- A scan that finds too many is followed by the next, unless it is the last. -/
theorem exists_buildFrom_of_not_suffices (k : Source.Holding H (preamble mode ++ records))
    (hr : Reads mode 0 records is) {src : σ} (h : H src) {n : Nat}
    (hn : ¬ Suffices options (patchEntries mode records) n) :
    ∃ src', H src' ∧
      (∀ attempts, buildFrom options (options.intervalAt n) src (attempts + 2) =
        buildFrom options (options.intervalAt (n + 1)) src' (attempts + 1)) ∧
      buildFrom options (options.intervalAt n) src 1 =
        (.error (.indexExhausted options.maxAttempts (options.intervalAt n)), src') := by
  obtain ⟨src', h', hscan⟩ := exists_scan k hr h (options.intervalAt n) options.maxEntries
  rw [unlessFull, if_neg (by exact hn)] at hscan
  refine ⟨src', h', fun attempts => ?_, ?_⟩
  · rw [buildFrom, hscan, options.intervalAt_succ]
    simp only [Nat.succ_ne_zero, if_false]
  · rw [buildFrom, hscan]
    simp only [if_true]

/-- As long as scans find too many, others follow. -/
theorem exists_buildFrom_of_forall_lt (k : Source.Holding H (preamble mode ++ records))
    (hr : Reads mode 0 records is) {src : σ} (h : H src) {n : Nat}
    (hn : ∀ j < n, ¬ Suffices options (patchEntries mode records) j) :
    ∃ src', H src' ∧ ∀ attempts,
      buildFrom options (options.intervalAt 0) src (n + attempts + 1) =
        buildFrom options (options.intervalAt n) src' (attempts + 1) := by
  induction n with
  | zero => exact ⟨src, h, fun attempts => by rw [Nat.zero_add]⟩
  | succ n ih =>
    obtain ⟨src₁, h₁, hfront⟩ := ih fun j hj => hn j (Nat.lt_succ_of_lt hj)
    obtain ⟨src₂, h₂, hnext, -⟩ := exists_buildFrom_of_not_suffices k hr h₁ (hn n n.lt_succ_self)
    refine ⟨src₂, h₂, fun attempts => ?_⟩
    rw [← hnext, Nat.add_right_comm n 1 attempts]
    exact hfront (attempts + 1)

/-- **Indexing is sampling.** Let the records of a patch be well formed and let its offsets resolve,
up to the end marker. Over any source of it, indexing makes scans with intervals that are doubled
from one to the next. The first that does not find too many entries completes the index: its
interval, the samples of all records with this interval, the length of the target and the mode. If
every scan finds too many, the error says how many there were and with which interval the last was
made. The samples ascend in target and patch and begin with the first record; and what they are
taken from are the entries of the records, in order, with the end marker as the last. -/
theorem build_eq_samples {src : σ} (h : Source.Holds src (preamble mode ++ records))
    (hr : Reads mode 0 records is) (options : IndexOptions) (hi : 0 < options.interval)
    (hmax : options.interval ≤ maxInterval) (ha : 0 < options.maxAttempts) :
    (∀ n < options.maxAttempts,
      (∀ j < n, ¬ Suffices options (patchEntries mode records) j) →
      Suffices options (patchEntries mode records) n →
      (build src options).1 = .ok
        ⟨(samples (options.intervalAt n) (patchEntries mode records)).toArray,
          options.intervalAt n, outputLength is, mode⟩) ∧
    ((∀ n < options.maxAttempts, ¬ Suffices options (patchEntries mode records) n) →
      (build src options).1 = .error
        (.indexExhausted options.maxAttempts (options.intervalAt (options.maxAttempts - 1)))) ∧
    (∀ interval, (samples interval (patchEntries mode records)).Pairwise (fun e e' =>
        e.targetOffset < e'.targetOffset ∧ e.wireOffset < e'.wireOffset) ∧
      (samples interval (patchEntries mode records)).head? = some ⟨0, preambleLength, 0⟩) ∧
    (patchEntries mode records).length = is.length + 1 ∧
    ∀ number e, (patchEntries mode records)[number]? = some e →
      e.targetOffset = outputLength (is.take number) ∧
      e.baseOffset = ((is.take number).foldl OffsetBase.past { mode }).current ∧
      Reads mode e.baseOffset ((preamble mode ++ records).drop e.wireOffset) (is.drop number) := by
  have k := Source.holding_holds (σ := σ) (preamble mode ++ records)
  have hstart : options.intervalAt 0 = options.interval := by
    rw [IndexOptions.intervalAt, Nat.pow_zero, Nat.mul_one, Nat.min_eq_left hmax]
  have hbuild : build src options =
      buildFrom options (options.intervalAt 0) src options.maxAttempts := by
    rw [build, if_neg (by omega), hstart]
  refine ⟨fun n hn hfull hs => ?_, fun hfull => ?_, fun interval => ⟨?_, ?_⟩,
    length_patchEntries hr, fun number e => getElem?_patchEntries hr⟩
  · obtain ⟨src₁, h₁, hskip⟩ := exists_buildFrom_of_forall_lt k hr h hfull
    obtain ⟨src₂, hok⟩ := exists_buildFrom_of_suffices k hr h₁ hs (options.maxAttempts - n - 1)
    have hattempts : options.maxAttempts = n + (options.maxAttempts - n - 1) + 1 := by omega
    rw [hbuild, hattempts, hskip, hok]
  · obtain ⟨n, hn⟩ := Nat.exists_eq_add_one_of_ne_zero (Nat.ne_of_gt ha)
    obtain ⟨src₁, h₁, hskip⟩ := exists_buildFrom_of_forall_lt k hr h (n := n)
      fun j hj => hfull j (by omega)
    obtain ⟨src₂, -, -, hlast⟩ := exists_buildFrom_of_not_suffices k hr h₁ (hfull n (by omega))
    have hskip := hskip 0
    rw [Nat.add_zero, ← hn] at hskip
    rw [hbuild, hskip, hlast, hn, Nat.add_sub_cancel]
  · exact pairwise_samples (pairwise_recordEntries _ _ (Nat.le_add_left _ _)) interval
  · rw [head?_samples, head?_patchEntries hr]

/-- Five records of which the third begins where the empty copy in front of it does. With every
record there are four entries and only three are wanted, so every other record is taken: the first
copy, the literal and the end marker. -/
theorem build_eq_samples_degraded :
    let records : List UInt8 := [244, 7, 4, 244, 93, 0, 3, 1, 2, 3, 244, 158, 5, 0]
    let patch := preamble .differential ++ records
    let src : MemoryStream := ⟨packBytes patch, 0⟩
    (build src { interval := 1, maxEntries := some 3 }).1 =
      .ok ⟨#[⟨0, 5, 0⟩, ⟨4, 11, 100⟩, ⟨12, 18, 2⟩], 2, 12, .differential⟩ := by
  intro records patch src
  let options : IndexOptions := { interval := 1, maxEntries := some 3 }
  have hbytes : (packBytes patch).data.toList = patch := by simp
  have h : Source.Holds src patch := hbytes ▸ MemoryStream.holds src
  have hp₀ : Record.parse? .differential records = some (.copy 7 4, records.drop 3) := by decide
  have hp₁ : Record.parse? .differential (records.drop 3) =
      some (.copy 93 0, records.drop 6) := by decide
  have hp₂ : Record.parse? .differential (records.drop 6) =
      some (.literal 3, [1, 2, 3] ++ records.drop 10) := by decide
  have hp₃ : Record.parse? .differential (records.drop 10) =
      some (.copy (-98) 5, records.drop 13) := by decide
  have hp₄ : Record.parse? .differential (records.drop 13) = some (.eof, []) := by decide
  have hr : Reads .differential 0 records
      [.copy 7 4, .copy 100 0, .literal (packBytes [1, 2, 3]), .copy 2 5] :=
    .relative rfl hp₀ rfl (by decide) (.relative rfl hp₁ rfl (by decide)
      (.literal hp₂ rfl (.relative rfl hp₃ rfl (by decide) (.marker hp₄))))
  have hes : patchEntries .differential records =
      [⟨0, 5, 0⟩, ⟨4, 8, 7⟩, ⟨4, 11, 100⟩, ⟨7, 15, 100⟩, ⟨12, 18, 2⟩] := by
    have hd₀ : OffsetBase.decode ⟨.differential, 0⟩ 7 = (.ok 7, ⟨.differential, 7⟩) := rfl
    have hd₁ : OffsetBase.decode ⟨.differential, 7⟩ 93 = (.ok 100, ⟨.differential, 100⟩) := rfl
    have hd₃ : OffsetBase.decode ⟨.differential, 100⟩ (-98) = (.ok 2, ⟨.differential, 2⟩) := rfl
    have hdrop : ([1, 2, 3] ++ records.drop 10).drop 3 = records.drop 10 := rfl
    rw [patchEntries, recordEntries_copy hp₀ hd₀, recordEntries_copy hp₁ hd₁,
      recordEntries_literal (b := ⟨.differential, 100⟩) hp₂ (by decide), hdrop,
      recordEntries_copy hp₃ hd₃, recordEntries_marker (b := ⟨.differential, 2⟩) hp₄]
    rfl
  have hfull : ¬ Suffices options (patchEntries .differential records) 0 := by
    rw [hes]
    unfold Suffices
    decide
  have hsecond : Suffices options (patchEntries .differential records) 1 := by
    rw [hes]
    unfold Suffices
    decide
  have hbuild := (build_eq_samples h hr options (by decide) (by decide) (by decide)).1 1
    (by decide) (fun j hj => by rwa [Nat.lt_one_iff.mp hj]) hsecond
  have hinterval : options.intervalAt 1 = 2 := by decide
  have hsamples : samples 2
      [⟨0, 5, 0⟩, ⟨4, 8, 7⟩, ⟨4, 11, 100⟩, ⟨7, 15, 100⟩, ⟨12, 18, 2⟩] =
      [⟨0, 5, 0⟩, ⟨4, 11, 100⟩, ⟨12, 18, 2⟩] := by decide
  rw [hes, hinterval, hsamples] at hbuild
  exact hbuild

end Build

end PatchIndex

end BinaryDelta
