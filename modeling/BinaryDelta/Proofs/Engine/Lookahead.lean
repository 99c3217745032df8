import BinaryDelta.Proofs.Engine.Window
import BinaryDelta.Proofs.Source.Seeking
import Mathlib.Logic.Relation

/-!
# Looking ahead through short reads and faults

A window is filled and moved on in any order. A filling may fail half-way, with bytes that it has
read already, and whoever asked for it may go on with the window all the same.

Three things could go wrong. Bytes that are moved to the front of the buffer, or into a larger one,
could be lost or shifted. Bytes read before a fault could be read again or be passed over. And a
reader that is asked to read into no room at all answers with no bytes, which would be taken for the
end of the target.

* `TargetWindow.Used r capacity` are the windows that a new one over `r` becomes, whatever calls are
  made and whether they fail.
* `TargetWindow.Exact target` says that what a window shows is the target from its position on, and
  that it has found the end only if it has read everything.
* `ByteReader.Asked` is one call with room for a byte, whatever it answers. That a reader came to
  where it is by such calls alone says that there was no other call, since among all readers there
  are those that keep a record.

Sizes are natural numbers here: the memory for the buffer is there whenever it is asked for.

Results:
* `Used.stands`: each call keeps the window in step with its reader.
* **`lookahead_exact`**: a used window is exact, its reader was never asked for nothing, a filling
  that succeeds brings what was wanted or all that is left, and one that fails was failed by the
  reader.
-/

namespace BinaryDelta

/-! ## Calls with room -/

namespace ByteReader

variable {ρ : Type} [ByteReader ρ]

/-- One call that asks for a byte at least, whatever it answers. -/
def Asked (r r' : ρ) : Prop := ∃ n, 0 < n ∧ (read r n).2 = r'

/-- Repeating a call asks each time for as many bytes. -/
theorem asked_readSome {r r' : ρ} {n : Nat} (hn : 0 < n) {answer : Except Fault ByteArray}
    (h : readSome r n = (answer, r')) : Relation.ReflTransGen Asked r r' := by
  fun_induction readSome r n with
  | case1 r bytes r₁ hr =>
    cases h
    exact .single ⟨n, hn, congrArg Prod.snd hr⟩
  | case2 r fault r₁ hr =>
    cases h
    exact .single ⟨n, hn, congrArg Prod.snd hr⟩
  | case3 r r₁ hr ih => exact .head ⟨n, hn, congrArg Prod.snd hr⟩ (ih h)

/-- A repeated call fails where one of the calls does. -/
theorem exists_failed_of_readSome {r r' : ρ} {n : Nat} (hn : 0 < n) {fault : Fault}
    (h : readSome r n = (.error fault, r')) :
    ∃ r₁ : ρ, Relation.ReflTransGen Asked r r₁ ∧ read r₁ n = (.failed fault, r') := by
  fun_induction readSome r n with
  | case1 r bytes r₁ hr => cases h
  | case2 r fault r₁ hr =>
    cases h
    exact ⟨r, .refl, hr⟩
  | case3 r r₁ hr ih =>
    obtain ⟨r₂, hasked, hread⟩ := ih h
    exact ⟨r₂, .head ⟨n, hn, congrArg Prod.snd hr⟩ hasked, hread⟩

end ByteReader

namespace TargetWindow

open Relation (ReflTransGen)
open ByteReader (Asked)

variable {ρ : Type} [ByteReader ρ] {w w' : TargetWindow ρ} {want : Nat}

theorem asked_readMore (hroom : w.buffer.size < w.capacity) {answer : Except Fault Unit}
    (h : w.readMore = (answer, w')) : ReflTransGen Asked w.input w'.input := by
  have hpos : 0 < w.capacity - w.buffer.size := by omega
  cases answer with
  | error fault => exact ByteReader.asked_readSome hpos (of_readMore_error h).1
  | ok =>
    obtain ⟨bytes, hread, -⟩ := of_readMore h
    exact ByteReader.asked_readSome hpos hread

/-- Filling never asks the reader for nothing, and fails only if the reader does. -/
theorem asked_fill {answer : Except Fault Unit} (h : w.fill want = (answer, w')) :
    ReflTransGen Asked w.input w'.input ∧
      ∀ fault, answer = .error fault →
        ∃ (r : ρ) (n : Nat), ReflTransGen Asked w.input r ∧ 0 < n ∧
          ByteReader.read r n = (.failed fault, w'.input) := by
  fun_induction TargetWindow.fill w want with
  | case1 w hdone =>
    cases h
    exact ⟨.refl, fun fault hf => by cases hf⟩
  | case2 w hmore fault w₁ hr =>
    cases h
    have hroom := size_lt_makeRoom hmore
    have hasked := asked_readMore hroom hr
    rw [(rearranges_makeRoom w want).input_eq] at hasked
    refine ⟨hasked, fun fault hf => ?_⟩
    cases hf
    -- the call that failed is the last one, and it had the room that was made
    have hpos := Nat.sub_pos_of_lt hroom
    obtain ⟨r, hcalls, hread⟩ := ByteReader.exists_failed_of_readSome hpos (of_readMore_error hr).1
    rw [(rearranges_makeRoom w want).input_eq] at hcalls
    exact ⟨r, _, hcalls, hpos, hread⟩
  | case3 w hmore w₁ hr ih =>
    have hasked := asked_readMore (size_lt_makeRoom hmore) hr
    rw [(rearranges_makeRoom w want).input_eq] at hasked
    obtain ⟨hrest, hfails⟩ := ih h
    refine ⟨hasked.trans hrest, fun fault hf => ?_⟩
    obtain ⟨r, n, hcalls, hread⟩ := hfails fault hf
    exact ⟨r, n, hasked.trans hcalls, hread⟩

/-! ## Used windows -/

/-- What a new window over a reader becomes by filling it and moving on, whether a filling succeeds
or not. -/
inductive Used (r : ρ) (capacity : Nat) : TargetWindow ρ → Prop where
  | new : Used r capacity (ofReader r capacity)
  | fill {w : TargetWindow ρ} (want : Nat) : Used r capacity w → Used r capacity (w.fill want).2
  | advance {w : TargetWindow ρ} {n : Nat} (hn : n ≤ w.available) :
    Used r capacity w → Used r capacity (w.advance n)

theorem Used.of_fill {r : ρ} {capacity : Nat} (h : Used r capacity w) {answer : Except Fault Unit}
    (hf : w.fill want = (answer, w')) : Used r capacity w' := by
  have hfilled := h.fill want
  rwa [hf] at hfilled

/-- The window shows the target from its position on, and has ended only where the target does. -/
structure Exact (target : List UInt8) (w : TargetWindow ρ) : Prop where
  le_length : w.position + w.available ≤ target.length
  ahead_eq : ∀ n ≤ w.available, w.ahead n = packBytes ((target.drop w.position).take n)
  byteAt_eq : ∀ i < w.available, target[w.position + i]? = some (w.byteAt i)
  of_ended : w.ended = true → w.position + w.available = target.length

variable {R : ρ → List UInt8 → Prop} {target : List UInt8}

omit [ByteReader ρ] in
theorem Shows.exact (h : Shows R w (target.drop w.position)) (hp : w.position ≤ target.length) :
    w.Exact target where
  le_length := by
    have hle := h.available_le
    rw [List.length_drop] at hle
    omega
  ahead_eq n hn := by
    apply eq_of_toList_eq
    rw [h.toList_ahead hn, data_packBytes, List.toList_toArray]
  byteAt_eq i hi := by
    rw [← List.getElem?_drop]
    exact h.byteAt_eq hi
  of_ended hended := by
    obtain ⟨rest, hleft, -, he⟩ := h
    rw [he hended, List.append_nil] at hleft
    have hl := congrArg List.length hleft
    rw [List.length_drop, length_bytesAhead] at hl
    omega

/-- The window is in step with its reader: it shows what is left of the target behind its position,
and the reader was never asked for nothing. -/
structure Stands (R : ρ → List UInt8 → Prop) (target : List UInt8) (r : ρ) (w : TargetWindow ρ) :
    Prop where
  shows : Shows R w (target.drop w.position)
  position_le : w.position ≤ target.length
  asked : ReflTransGen Asked r w.input

variable {r : ρ} {capacity : Nat}

theorem Stands.fill (k : ByteReader.Resuming R) (h : Stands R target r w) (want : Nat) :
    Stands R target r (w.fill want).2 := by
  rcases hf : w.fill want with ⟨answer, w'⟩
  obtain ⟨hshows, hposition, -⟩ := h.shows.of_fill k hf
  exact ⟨hposition ▸ hshows, hposition ▸ h.position_le, h.asked.trans (asked_fill hf).1⟩

theorem Stands.advance (h : Stands R target r w) {n : Nat} (hn : n ≤ w.available) :
    Stands R target r (w.advance n) := by
  have hle := h.shows.available_le
  have hp := h.position_le
  rw [List.length_drop] at hle
  refine ⟨?_, ?_, h.asked⟩
  · rw [position_advance w hn, ← List.drop_drop]
    exact h.shows.advance hn
  · rw [position_advance w hn]
    omega

/-- Each call keeps the window in step with its reader. -/
theorem Used.stands (k : ByteReader.Resuming R) (hr : R r target) (h : Used r capacity w) :
    Stands R target r w := by
  induction h with
  | new => exact ⟨shows_ofReader hr capacity, Nat.zero_le _, .refl⟩
  | fill want _ ih => exact ih.fill k want
  | advance hn _ ih => exact ih.advance hn

/-- **Looking ahead is exact.** However a window over a target was used, and however its reader cut
the target into pieces, interrupted and failed in between, the window shows the target from its
position on, and its reader was never asked to read into no room. A filling keeps the position. If
it succeeds, then what was wanted is there or all that is left; if it fails, then because a call of
the reader did. -/
theorem lookahead_exact (hr : ByteReader.Resumes r target) (h : Used r capacity w) :
    w.Exact target ∧ ReflTransGen Asked r w.input ∧
      ∀ (want : Nat) (w' : TargetWindow ρ),
        (w.fill want = (.ok (), w') → w'.position = w.position ∧
          (want ≤ w'.available ∨ w'.position + w'.available = target.length)) ∧
        ∀ fault, w.fill want = (.error fault, w') → w'.position = w.position ∧
          ∃ (r' : ρ) (n : Nat), ReflTransGen Asked w.input r' ∧ 0 < n ∧
            ByteReader.read r' n = (.failed fault, w'.input) := by
  obtain ⟨R, k, hr⟩ := hr
  obtain ⟨hshows, hp, hasked⟩ := h.stands k hr
  refine ⟨hshows.exact hp, hasked, fun want w' => ⟨fun hf => ?_, fun fault hf => ?_⟩⟩
  · obtain ⟨-, hposition, hfull⟩ := hshows.of_fill k hf
    refine ⟨hposition, (hfull rfl).imp_right fun hall => ?_⟩
    rw [hposition, hall, List.length_drop]
    omega
  · obtain ⟨-, hposition, -⟩ := hshows.of_fill k hf
    exact ⟨hposition, (asked_fill hf).2 fault rfl⟩

/-- A stream in pieces of up to three bytes, interrupted at every other call, fails behind seven of
nine bytes. The filling that fails has moved two bytes to the front of a larger buffer, and three
more are behind them. -/
theorem lookahead_exact_failing :
    let stream : FaultyStream :=
      { bytes := packBytes [1, 2, 3, 4, 5, 6, 7, 8, 9], chunk := some 3, failsFrom := some 7,
        interrupts := true }
    let begun := ((ofReader stream 4).fill 4).2.advance 2
    let failed := begun.fill 7
    Used stream 4 failed.2 ∧ failed.2.Exact [1, 2, 3, 4, 5, 6, 7, 8, 9] ∧
      failed.2.ahead 5 = packBytes [3, 4, 5, 6, 7] ∧ ReflTransGen Asked stream failed.2.input ∧
      ∃ fault, failed.1 = .error fault := by
  intro stream begun failed
  have hbegun : Used stream 4 begun := (Used.new.fill 4).advance (by decide +kernel)
  have hused : Used stream 4 failed.2 := hbegun.fill 7
  have hposition : failed.2.position = 2 := by decide +kernel
  have havailable : failed.2.available = 5 := by decide +kernel
  have hresumes : ByteReader.Resumes stream [1, 2, 3, 4, 5, 6, 7, 8, 9] :=
    ⟨_, FaultyStream.resuming stream.bytes, ⟨rfl, by decide⟩, rfl⟩
  obtain ⟨hexact, hasked, -⟩ := lookahead_exact hresumes hused
  obtain ⟨-, -, hfill⟩ := lookahead_exact hresumes hbegun
  have hahead := hexact.ahead_eq 5 (Nat.le_of_eq havailable.symm)
  rw [hposition] at hahead
  refine ⟨hused, hexact, hahead, hasked, ?_⟩
  cases hanswer : failed.1 with
  | error fault => exact ⟨fault, rfl⟩
  | ok =>
    obtain ⟨-, hfull⟩ := (hfill 7 failed.2).1 (Prod.ext hanswer rfl)
    simp only [List.length_cons, List.length_nil] at hfull
    omega

end TargetWindow

end BinaryDelta
