import BinaryDelta.Proofs.Patch.Reading
import BinaryDelta.Proofs.Sink.Writing
import BinaryDelta.Proofs.WireRoundTrip

/-!
# What zero runs lose

With zero runs switched on, a writer decides for each literal that it writes whether the bytes are
worth keeping. Whatever it decides, the patch around them is the one that a writer without zero runs
makes of the same calls: it is read without a failure, record by record, and only the bytes of long
literals differ.

Results:
* `command_of_masked`, `writable_of_masked`: a literal of zeros stands for the command that its
  bytes stood for, and is as writable.
* `literal_of_masked`: short literals keep their bytes, and long ones keep them or are zeros.
* `exists_literals_lost`: the two patches of the same calls differ by that alone.
-/

namespace BinaryDelta

/-! ## Literals of zeros -/

section Masked

variable {zeroRuns : Option ZeroRuns} {i j : Instruction} {is js : List Instruction}

theorem command_of_masked (h : Masked zeroRuns i j) : j.command = i.command := by
  cases h with
  | same i => rfl
  | @zeros _ bytes _ _ => simp [Instruction.command]

theorem writable_of_masked (h : Masked zeroRuns i j) (hi : i.Writable) : j.Writable := by
  cases h with
  | same i => exact hi
  | zeros _ _ => simpa [Instruction.Writable] using hi

/-- The commands are the same, one by one. -/
theorem map_command_of_masked (h : List.Forall₂ (Masked zeroRuns) is js) :
    js.map Instruction.command = is.map Instruction.command := by
  induction h with
  | nil => rfl
  | cons hi _ ih => rw [List.map_cons, List.map_cons, command_of_masked hi, ih]

theorem forall_writable_of_masked (h : List.Forall₂ (Masked zeroRuns) is js)
    (hi : ∀ i ∈ is, i.Writable) : ∀ j ∈ js, j.Writable := by
  induction h with
  | nil => exact hi
  | cons hm _ ih =>
    obtain ⟨hfirst, hrest⟩ := List.forall_mem_cons.mp hi
    exact List.forall_mem_cons.mpr ⟨writable_of_masked hm hfirst, ih hrest⟩

/-- A literal keeps its bytes unless it is long enough to be zeros. -/
theorem literal_of_masked {z : ZeroRuns} (h : List.Forall₂ (Masked (some z)) is js) {n : Nat}
    {bytes : ByteArray} (hn : is[n]? = some (.literal bytes)) :
    js[n]? = some (.literal bytes) ∨
      z.minBlock ≤ bytes.size ∧ js[n]? = some (.literal (zeroBytes bytes.size)) := by
  induction h generalizing n with
  | nil => cases hn
  | cons hm _ ih =>
    cases n with
    | succ n => exact ih hn
    | zero =>
      obtain rfl := Option.some.inj hn
      cases hm with
      | same i => exact .inl rfl
      | zeros hz hlong =>
        cases hz
        exact .inr ⟨hlong, rfl⟩

end Masked

/-! ## The patch -/

theorem readAs_patchOf (mode : Mode) {is : List Instruction} (hi : ∀ i ∈ is, i.Writable) :
    ReadAs (patchOf mode is) is := by
  have hs := spellPatch?_patchOf mode hi []
  rw [List.append_nil] at hs
  exact readAs_of_spell hs

namespace PatchWriter

variable {ω ω' : Type} [ByteOutput ω] [ByteOutput ω'] {R : ω → List UInt8 → Prop}
  {R' : ω' → List UInt8 → Prop} {front front' : List UInt8}

/-- A writer that skips nothing makes a patch of any calls in the range of the format, and reading
it gives the records that their atoms are packed into, with zeros in the place of some literals. -/
theorem exists_masked_patch (o : ByteOutput.Reliable R) {out : ω} (ho : R out front)
    (options : WriterOptions) (hproblem : options.problem? = none)
    (hp : options.skipPreamble = false) (he : options.skipEof = false) {steps : List SinkStep}
    (hs : ∀ step ∈ steps, step.Writable) :
    ∃ w w' patch is, create out options = .ok w ∧ complete w steps = (.ok (), w') ∧
      R w'.output (front ++ patch) ∧ ReadAs patch is ∧
      List.Forall₂ (Masked options.zeroRuns) (packed (steps.flatMap SinkStep.atoms)) is := by
  obtain ⟨w, w', is, hw, h', his, hout⟩ := exists_masked_segment o ho options hproblem steps
  have hwritable := forall_writable_of_masked his (writable_packed_atoms hs)
  rw [WriterOptions.segmentOf_eq_patchOf hp he] at hout
  exact ⟨w, w', _, is, hw, h', hout, readAs_patchOf _ hwritable, his⟩

/-- **Zero runs lose the bytes of long literals, and nothing else.** Given the same calls, a writer
with zero runs and one without both make a patch. Reading these gives the same copies in the same
order, and between them literals of the same lengths. A literal of the one patch is that of the
other or, if it is long enough, zeros. -/
theorem exists_literals_lost (differential : Bool) {z : ZeroRuns}
    (hz : ({ differential, zeroRuns := some z } : WriterOptions).problem? = none)
    {steps : List SinkStep} (hs : ∀ step ∈ steps, step.Writable) (o : ByteOutput.Reliable R)
    {out : ω} (ho : R out front) (o' : ByteOutput.Reliable R') {out' : ω'} (ho' : R' out' front') :
    ∃ w w₁ patch is w' w₁' patch' js,
      create out { differential } = .ok w ∧ complete w steps = (.ok (), w₁) ∧
      R w₁.output (front ++ patch) ∧ ReadAs patch is ∧
      create out' { differential, zeroRuns := some z } = .ok w' ∧
      complete w' steps = (.ok (), w₁') ∧
      R' w₁'.output (front' ++ patch') ∧ ReadAs patch' js ∧
      js.map Instruction.command = is.map Instruction.command ∧
      ∀ (n : Nat) (bytes : ByteArray), is[n]? = some (.literal bytes) →
        js[n]? = some (.literal bytes) ∨
          z.minBlock ≤ bytes.size ∧ js[n]? = some (.literal (zeroBytes bytes.size)) := by
  obtain ⟨w, w₁, patch, is, hw, h₁, hR, hread, his⟩ :=
    exists_masked_patch o ho { differential } rfl rfl rfl hs
  obtain ⟨w', w₁', patch', js, hw', h₁', hR', hread', hjs⟩ :=
    exists_masked_patch o' ho' { differential, zeroRuns := some z } hz rfl rfl hs
  obtain rfl := eq_of_masked_none his
  exact ⟨w, w₁, patch, _, w', w₁', patch', js, hw, h₁, hR, hread, hw', h₁', hR', hread',
    map_command_of_masked hjs, fun _ _ hn => literal_of_masked hjs hn⟩

/-- Any share of copies is enough here, so that it is the length of a literal alone that decides: of
four bytes and of one. -/
theorem exists_literals_lost_any_ratio :
    let z : ZeroRuns := { minBlock := 4, ratio := 0, window := 100 }
    let steps : List SinkStep :=
      [.copy 7 5, .literal (packBytes [1, 2, 3, 4]), .copy 2 90, .byte 6, .flush]
    ∃ w w₁ patch is w' w₁' patch' js,
      create ByteArray.empty { differential := true } = .ok w ∧
      complete w steps = (.ok (), w₁) ∧ w₁.output.data.toList = patch ∧ ReadAs patch is ∧
      create ByteArray.empty { differential := true, zeroRuns := some z } = .ok w' ∧
      complete w' steps = (.ok (), w₁') ∧ w₁'.output.data.toList = patch' ∧ ReadAs patch' js ∧
      js.map Instruction.command = is.map Instruction.command ∧
      ∀ (n : Nat) (bytes : ByteArray), is[n]? = some (.literal bytes) →
        js[n]? = some (.literal bytes) ∨
          z.minBlock ≤ bytes.size ∧ js[n]? = some (.literal (zeroBytes bytes.size)) :=
  exists_literals_lost true (by decide +kernel) (by decide) ByteOutput.reliable_byteArray
    (rfl : ByteArray.empty.data.toList = []) ByteOutput.reliable_byteArray
    (rfl : ByteArray.empty.data.toList = [])

end PatchWriter

end BinaryDelta
