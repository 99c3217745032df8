import BinaryDelta.Proofs.Sink.Writing
import BinaryDelta.Sink.Listing

/-!
# Sinks see coalesced instructions

A literal can reach a sink in any number of calls. A collector puts it together again; a patch writer
and a listing hold it back until it is over, the writer also cutting it where a chunk is full. So
what the two write is a function of what a collector holds after the same calls, as long as no flush
parts a literal.

* `listingOf` is the text of instructions.

Results:
* `Listing.Mirrors.act`: a listing has written what a collector holds, up to a literal that is not
  over.
* `Listing.exists_listing`, `PatchWriter.exists_segment_collected`: what is written, as a function
  of what is collected.
* **`written_of_collected`**: calls that are collected alike are written alike.
-/

namespace BinaryDelta

/-! ## Listings -/

/-- The text of an instruction. -/
def Instruction.text : Instruction → List UInt8
  | copy offset length => (Listing.copyText offset length).data.toList
  | literal bytes => (Listing.literalText bytes).data.toList

/-- The text of instructions. -/
def listingOf (is : List Instruction) : List UInt8 := is.flatMap Instruction.text

@[simp] theorem listingOf_nil : listingOf [] = [] := rfl

@[simp] theorem listingOf_append (is is' : List Instruction) :
    listingOf (is ++ is') = listingOf is ++ listingOf is' :=
  List.flatMap_append

theorem listingOf_singleton (i : Instruction) : listingOf [i] = i.text := List.append_nil _

/-- The literal that bytes held back will be, if there are any. -/
def heldLiteral (pending : ByteArray) : List Instruction :=
  if pending.size = 0 then [] else [.literal pending]

namespace Collector

theorem endsInLiteral_push_copy (front : Array Instruction) (offset length : Nat) :
    endsInLiteral (front.push (.copy offset length)) = false := by
  rw [endsInLiteral, Array.back?_push]

end Collector

namespace Listing

variable {ω : Type} [ByteOutput ω] {R : ω → List UInt8 → Prop} {front : List UInt8}

/-- The listing has written the instructions of the collector, up to a literal that it holds back. -/
structure Mirrors (R : ω → List UInt8 → Prop) (front : List UInt8) (l : Listing ω)
    (c : Collector) : Prop where
  output : ∃ done, R l.output (front ++ listingOf done) ∧
    c.instructions.toList = done ++ heldLiteral l.pending
  parted : l.pending.size = 0 → Collector.endsInLiteral c.instructions = false

variable {l : Listing ω} {c : Collector}

/-- What is held back is written as one literal. -/
theorem Mirrors.writePending (o : ByteOutput.Reliable R) (h : Mirrors R front l c) :
    ∃ out, l.writePending = (.ok (), ⟨out, ByteArray.empty⟩) ∧
      R out (front ++ listingOf c.instructions.toList) := by
  rcases l with ⟨output, pending⟩
  obtain ⟨done, hout, hdone⟩ := h.output
  by_cases h₀ : pending.size = 0
  · obtain rfl := ByteArray.size_eq_zero_iff.mp h₀
    rw [heldLiteral, if_pos h₀, List.append_nil] at hdone
    exact ⟨output, by rw [Listing.writePending, if_pos h₀], by rwa [hdone]⟩
  · obtain ⟨out, hw, hout'⟩ := o.write hout (literalText pending)
    rw [heldLiteral, if_neg h₀] at hdone
    refine ⟨out, by rw [Listing.writePending, if_neg h₀, hw], ?_⟩
    rwa [hdone, listingOf_append, listingOf_singleton, ← List.append_assoc]

/-- A copy is listed behind what is held back. -/
theorem Mirrors.addCopy (o : ByteOutput.Reliable R) (h : Mirrors R front l c)
    (offset length : Nat) :
    ∃ l', l.addCopy offset length = (.ok (), l') ∧ Mirrors R front l' (c.addCopy offset length) := by
  obtain ⟨out₁, h₁, hout₁⟩ := h.writePending o
  obtain ⟨out₂, h₂, hout₂⟩ := o.write hout₁ (copyText offset length)
  rcases c with ⟨instructions, closed⟩
  refine ⟨⟨out₂, ByteArray.empty⟩, by rw [Listing.addCopy, h₁]; simp only [h₂],
    ⟨instructions.toList ++ [.copy offset length], ?_, ?_⟩,
    fun _ => Collector.endsInLiteral_push_copy _ _ _⟩
  · rwa [listingOf_append, listingOf_singleton, ← List.append_assoc]
  · simp [Collector.addCopy, heldLiteral]

omit [ByteOutput ω] in
/-- Bytes are held back behind those of the same literal. -/
theorem Mirrors.addLiteral (h : Mirrors R front l c) (bytes : ByteArray) :
    Mirrors R front ⟨l.output, l.pending ++ bytes⟩ (c.addLiteral bytes) := by
  rcases l with ⟨output, pending⟩
  rcases c with ⟨instructions, closed⟩
  obtain ⟨done, hout, hdone⟩ := h.output
  by_cases hb : bytes.size = 0
  · rw [ByteArray.size_eq_zero_iff.mp hb, Collector.addLiteral_empty, ByteArray.append_empty]
    exact h
  · have hsize : (pending ++ bytes).size ≠ 0 := by rw [ByteArray.size_append]; omega
    refine ⟨⟨done, hout, ?_⟩, fun h₀ => absurd h₀ hsize⟩
    rw [heldLiteral, if_neg hsize]
    by_cases h₀ : pending.size = 0
    · rw [heldLiteral, if_pos h₀, List.append_nil] at hdone
      rw [Collector.addLiteral_of_not (h.parted h₀) hb, ByteArray.size_eq_zero_iff.mp h₀,
        ByteArray.empty_append, Array.toList_push, hdone]
    · rw [heldLiteral, if_neg h₀] at hdone
      obtain rfl : instructions = done.toArray.push (.literal pending) := by
        apply Array.toList_inj.mp
        rw [hdone, Array.toList_push]
      rw [Collector.addLiteral_push, Array.toList_push]

/-- Every call but a flush succeeds, and is mirrored. -/
theorem Mirrors.act (o : ByteOutput.Reliable R) (h : Mirrors R front l c) {step : SinkStep}
    (hstep : step ≠ .flush) :
    ∃ l', step.act l = (.ok (), l') ∧ Mirrors R front l' (c.addAll step.instructions) := by
  cases step with
  | copy offset length => exact h.addCopy o offset length
  | byte value =>
    have hpush : l.pending.push value = l.pending ++ packBytes [value] := by
      apply ByteArray.ext
      simp
    refine ⟨⟨l.output, l.pending.push value⟩, rfl, ?_⟩
    rw [hpush]
    exact h.addLiteral (packBytes [value])
  | literal bytes => exact ⟨_, rfl, h.addLiteral bytes⟩
  | flush => exact absurd rfl hstep

/-- What a listing has written when it is closed is the text of what a collector holds. -/
theorem exists_listing (o : ByteOutput.Reliable R) {out : ω} (ho : R out front)
    {steps : List SinkStep} (hs : ∀ step ∈ steps, step ≠ .flush) :
    ∃ l, complete ({ output := out } : Listing ω) steps = (.ok (), l) ∧
      R l.output (front ++ listingOf
        (({} : Collector).addAll (steps.flatMap SinkStep.instructions)).instructions.toList) := by
  have hstart : Mirrors R front { output := out } {} :=
    ⟨⟨[], by rwa [listingOf_nil, List.append_nil], rfl⟩, fun _ => rfl⟩
  obtain ⟨l, hl, hm⟩ := exists_feed (P := fun step => step ≠ .flush)
    (I := fun done l => Mirrors R front l
      (({} : Collector).addAll (done.flatMap SinkStep.instructions)))
    (fun {done l step} hi hstep => by
      obtain ⟨l', ha, hm⟩ := hi.act o hstep
      refine ⟨l', ha, ?_⟩
      rwa [List.flatMap_append, List.flatMap_singleton, Collector.addAll_append])
    [] hstart hs
  obtain ⟨out₁, h₁, hout₁⟩ := hm.writePending o
  obtain ⟨out₂, h₂, hout₂⟩ := o.flush hout₁
  refine ⟨⟨out₂, ByteArray.empty⟩, ?_, hout₂⟩
  rw [complete, hl, andThen_ok]
  show Listing.flush l = _
  rw [Listing.flush, h₁]
  simp only [h₂]

end Listing

/-! ## Patch writers -/

/-- What a patch writer has written when it is closed are the packed instructions that a collector
holds. -/
theorem PatchWriter.exists_segment_collected {ω : Type} [ByteOutput ω] {R : ω → List UInt8 → Prop}
    {front : List UInt8} (o : ByteOutput.Reliable R) {out : ω} (ho : R out front)
    (options : WriterOptions) (hz : options.zeroRuns = none) {steps : List SinkStep}
    (hs : ∀ step ∈ steps, step ≠ .flush) :
    ∃ w w', create out options = .ok w ∧ complete w steps = (.ok (), w') ∧
      R w'.output (front ++ options.segmentOf (packed (atoms
        (({} : Collector).addAll (steps.flatMap SinkStep.instructions)).instructions.toList))) := by
  have hatoms : atoms
      (({} : Collector).addAll (steps.flatMap SinkStep.instructions)).instructions.toList =
        steps.flatMap SinkStep.atoms := by
    rw [Collector.atoms_addAll, SinkStep.flatMap_atoms_of_no_flush hs]
    rfl
  rw [hatoms]
  exact exists_segment o ho options hz steps

/-! ## Calls that are collected alike -/

/-- **Output depends on the coalesced instructions.** Calls without a flush that leave two collectors
equal make two patch writers without zero runs put out the same bytes, and two listings the same
text, over any outputs that do not fail. -/
theorem written_of_collected {ω ω' : Type} [ByteOutput ω] [ByteOutput ω']
    {R : ω → List UInt8 → Prop} {R' : ω' → List UInt8 → Prop} (o : ByteOutput.Reliable R)
    (o' : ByteOutput.Reliable R') {out : ω} {out' : ω'} {taken taken' : List UInt8}
    (ho : R out taken) (ho' : R' out' taken') (options : WriterOptions)
    (hz : options.zeroRuns = none) {steps steps' : List SinkStep}
    (hs : ∀ step ∈ steps, step ≠ .flush) (hs' : ∀ step ∈ steps', step ≠ .flush)
    (h : feed ({} : Collector) steps = feed ({} : Collector) steps') :
    (∃ bytes w₀ w w₀' w', PatchWriter.create out options = .ok w₀ ∧
      PatchWriter.create out' options = .ok w₀' ∧
      complete w₀ steps = (.ok (), w) ∧ complete w₀' steps' = (.ok (), w') ∧
      R w.output (taken ++ bytes) ∧ R' w'.output (taken' ++ bytes)) ∧
    ∃ text l l', complete ({ output := out } : Listing ω) steps = (.ok (), l) ∧
      complete ({ output := out' } : Listing ω') steps' = (.ok (), l') ∧
      R l.output (taken ++ text) ∧ R' l'.output (taken' ++ text) := by
  rw [Collector.feed_collector, Collector.feed_collector] at h
  have hcollected := (Prod.mk.inj h).2
  obtain ⟨w₀, w, hw₀, hw, hbytes⟩ :=
    PatchWriter.exists_segment_collected o ho options hz hs
  obtain ⟨w₀', w', hw₀', hw', hbytes'⟩ :=
    PatchWriter.exists_segment_collected o' ho' options hz hs'
  obtain ⟨l, hl, htext⟩ := Listing.exists_listing o ho hs
  obtain ⟨l', hl', htext'⟩ := Listing.exists_listing o' ho' hs'
  rw [← hcollected] at hbytes' htext'
  exact ⟨⟨_, w₀, w, w₀', w', hw₀, hw₀', hw, hw', hbytes, hbytes'⟩,
    ⟨_, l, l', hl, hl', htext, htext'⟩⟩

/-- A literal longer than a chunk, in one go and cut across the end of the chunk, in front of an
empty copy. -/
theorem written_of_collected_chunk :
    let steps : List SinkStep :=
      [.literal (zeroBytes 32766 ++ packBytes [0] ++ zeroBytes 7233), .copy 5 0, .byte 7]
    let steps' : List SinkStep := [.literal (zeroBytes 32766), .byte 0, .literal (zeroBytes 7233),
      .copy 5 0, .literal ByteArray.empty, .literal (packBytes [7])]
    ∃ bytes w₀ w w', PatchWriter.create ByteArray.empty {} = .ok w₀ ∧
      complete w₀ steps = (.ok (), w) ∧ complete w₀ steps' = (.ok (), w') ∧
      w.output.data.toList = [] ++ bytes ∧ w'.output.data.toList = [] ++ bytes := by
  have hcut : ∀ a b : ByteArray, feed ({} : Collector)
      [.literal (a ++ packBytes [0] ++ b), .copy 5 0, .byte 7] = feed ({} : Collector)
        [.literal a, .byte 0, .literal b, .copy 5 0, .literal ByteArray.empty,
          .literal (packBytes [7])] := by
    intro a b
    simp only [Collector.feed_collector, List.flatMap_cons, List.flatMap_nil, List.append_nil,
      List.singleton_append, SinkStep.instructions, Collector.addAll_cons, Collector.addAll_nil,
      Collector.add, Collector.addLiteral_addLiteral, Collector.addLiteral_empty]
  have hempty : ByteArray.empty.data.toList = [] := rfl
  obtain ⟨⟨bytes, w₀, w, w₀', w', hw₀, hw₀', hw, hw', hbytes, hbytes'⟩, -⟩ :=
    written_of_collected ByteOutput.reliable_byteArray ByteOutput.reliable_byteArray hempty hempty {}
      rfl (by simp) (by simp) (hcut (zeroBytes 32766) (zeroBytes 7233))
  obtain rfl := Except.ok.inj (hw₀.symm.trans hw₀')
  exact ⟨bytes, w₀, w, w', hw₀, hw, hw', hbytes, hbytes'⟩

end BinaryDelta
