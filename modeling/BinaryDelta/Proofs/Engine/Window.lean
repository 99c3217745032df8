import BinaryDelta.Engine.Window
import BinaryDelta.Proofs.Stream.Delivery

/-!
# What a target window shows

A window over a reader of a byte string shows what is left of it: the bytes read ahead are the front
of that, and the reader hands out the others. Where the bytes lie in the buffer makes no difference,
a read moves the boundary between the two, and one that fails moves nothing.

Results:
* `Shows.of_rearranges`, `Shows.of_readMore`, `Shows.of_readMore_error`: making room, reading and
  failing to read each leave what is shown as it is.
* `Shows.of_fill`: so does filling, and if it succeeds, then as many bytes are there as were wanted,
  or all that are left.
* `Shows.fill`: over a reader that does not fail, filling succeeds.
* `Shows.advance`: moving on drops bytes from the front.
* `Shows.toList_ahead`, `Shows.byteAt_eq`: what is looked at ahead are bytes that are left.
-/

namespace BinaryDelta.TargetWindow

variable {ρ : Type} {R : ρ → List UInt8 → Prop}

/-- The bytes read ahead. -/
def bytesAhead (w : TargetWindow ρ) : List UInt8 := w.buffer.data.toList.drop w.cursor

theorem length_bytesAhead (w : TargetWindow ρ) : w.bytesAhead.length = w.available := by
  rw [bytesAhead, List.length_drop, length_toList, available]

/-- These bytes of the target are left. -/
def Shows (R : ρ → List UInt8 → Prop) (w : TargetWindow ρ) (left : List UInt8) : Prop :=
  ∃ rest, left = w.bytesAhead ++ rest ∧ R w.input rest ∧ (w.ended = true → rest = [])

/-- A new window shows all that its reader hands out. -/
theorem shows_ofReader {r : ρ} {target : List UInt8} (hr : R r target) (capacity : Nat) :
    Shows R (ofReader r capacity) target := ⟨target, rfl, hr, nofun⟩

variable {w : TargetWindow ρ} {left : List UInt8}

theorem Shows.available_le (h : Shows R w left) : w.available ≤ left.length := by
  obtain ⟨rest, rfl, -⟩ := h
  rw [List.length_append, length_bytesAhead]
  exact Nat.le_add_right _ _

theorem Shows.take_eq (h : Shows R w left) {n : Nat} (hn : n ≤ w.available) :
    left.take n = w.bytesAhead.take n := by
  obtain ⟨rest, rfl, -⟩ := h
  rw [List.take_append_of_le_length (by rwa [length_bytesAhead])]

/-- The bytes ahead are the next that are left. -/
theorem Shows.toList_ahead (h : Shows R w left) {n : Nat} (hn : n ≤ w.available) :
    (w.ahead n).data.toList = left.take n := by
  rw [h.take_eq hn, ahead, toList_extract, List.drop_take, Nat.add_sub_cancel_left, bytesAhead]

theorem Shows.byteAt_eq (h : Shows R w left) {i : Nat} (hi : i < w.available) :
    left[i]? = some (w.byteAt i) := by
  have hlt : w.cursor + i < w.buffer.size := by
    unfold available at hi
    omega
  obtain ⟨rest, rfl, -⟩ := h
  rw [List.getElem?_append_left (by rwa [length_bytesAhead]), bytesAhead, List.getElem?_drop,
    byteAt, dif_pos hlt, List.getElem?_eq_getElem (by rwa [length_toList])]
  rfl

/-! ## Moving on -/

theorem position_advance (w : TargetWindow ρ) {n : Nat} (hn : n ≤ w.available) :
    (w.advance n).position = w.position + n := by
  rcases w with ⟨input, buffer, capacity, cursor, ended, position, hc, hs⟩
  simp only [available] at hn
  simp only [advance, Nat.min_eq_left hn]

/-- Moving on drops bytes from the front. -/
theorem Shows.advance (h : Shows R w left) {n : Nat} (hn : n ≤ w.available) :
    Shows R (w.advance n) (left.drop n) := by
  obtain ⟨rest, rfl, hr, he⟩ := h
  refine ⟨rest, ?_, ?_, ?_⟩
  · rw [List.drop_append_of_le_length (by rwa [length_bytesAhead])]
    rcases w with ⟨input, buffer, capacity, cursor, ended, position, hc, hs⟩
    simp only [available] at hn
    simp only [bytesAhead, TargetWindow.advance, Nat.min_eq_left hn, List.drop_drop]
  · exact hr
  · exact he

/-! ## Reading ahead -/

theorem toList_ahead_available (w : TargetWindow ρ) :
    (w.ahead w.available).data.toList = w.bytesAhead := by
  rw [ahead, toList_extract, List.drop_take, Nat.add_sub_cancel_left, ← bytesAhead,
    ← length_bytesAhead, List.take_length]

/-- Where the bytes lie makes no difference. -/
theorem Shows.of_rearranges (h : Shows R w left) {w' : TargetWindow ρ} (hr : Rearranges w w') :
    Shows R w' left := by
  obtain ⟨rest, rfl, hrest, he⟩ := h
  refine ⟨rest, ?_, hr.input_eq ▸ hrest, fun hended => he (hr.ended_eq ▸ hended)⟩
  rw [← toList_ahead_available, ← toList_ahead_available, hr.ahead_eq]

variable [ByteReader ρ] {w' : TargetWindow ρ} {want : Nat}

/-- A read with room for a byte moves bytes from the reader behind the others, and finds the end
only where it is. -/
theorem Shows.of_readMore (k : ByteReader.Resuming R) (h : Shows R w left)
    (hroom : w.buffer.size < w.capacity) (hr : w.readMore = (.ok (), w')) : Shows R w' left := by
  obtain ⟨rest, rfl, hrest, he⟩ := h
  obtain ⟨bytes, hread, hb, hc, -, hended⟩ := of_readMore hr
  obtain ⟨rest', rfl, hrest', hempty⟩ := k.of_readSome hrest hread
  have hcursor : w.cursor ≤ w.buffer.data.toList.length := by
    rw [length_toList]
    exact w.cursor_le
  refine ⟨rest', ?_, hrest', ?_⟩
  · rw [bytesAhead, bytesAhead, hb, hc, toList_append, List.drop_append_of_le_length hcursor,
      List.append_assoc]
  · rw [hended, Bool.or_eq_true, beq_iff_eq]
    rintro (hend | hzero)
    · exact (List.append_eq_nil_iff.mp (he hend)).2
    · exact (List.append_eq_nil_iff.mp ((hempty hzero).resolve_left (by omega))).2

/-- A read that fails changes nothing. -/
theorem Shows.of_readMore_error (k : ByteReader.Resuming R) (h : Shows R w left) {fault : Fault}
    (hr : w.readMore = (.error fault, w')) : Shows R w' left := by
  obtain ⟨rest, rfl, hrest, he⟩ := h
  obtain ⟨hread, hb, hc, -, hended⟩ := TargetWindow.of_readMore_error hr
  refine ⟨rest, ?_, k.of_readSome_error hrest hread, fun hend => he (hended ▸ hend)⟩
  rw [bytesAhead, bytesAhead, hb, hc]

/-- Filling shows the same bytes, whether it succeeds or fails. If it succeeds, then what was wanted
is there, or all that is left. -/
theorem Shows.of_fill (k : ByteReader.Resuming R) (h : Shows R w left)
    {answer : Except Fault Unit} (hf : w.fill want = (answer, w')) :
    Shows R w' left ∧ w'.position = w.position ∧
      (answer = .ok () → want ≤ w'.available ∨ w'.available = left.length) := by
  fun_induction TargetWindow.fill w want with
  | case1 w hdone =>
    cases hf
    refine ⟨h, rfl, fun _ => ?_⟩
    rcases Bool.or_eq_true_iff.mp hdone with hw | hended
    · exact .inl (of_decide_eq_true hw)
    · obtain ⟨rest, rfl, -, he⟩ := h
      rw [he hended, List.append_nil, length_bytesAhead]
      exact .inr rfl
  | case2 w hmore fault w₁ hr =>
    cases hf
    have hroom := h.of_rearranges (rearranges_makeRoom w want)
    have hposition := (TargetWindow.of_readMore_error hr).2.2.2.1
    exact ⟨hroom.of_readMore_error k hr,
      hposition.trans (rearranges_makeRoom w want).position_eq, fun hok => by cases hok⟩
  | case3 w hmore w₁ hr ih =>
    have hroom := h.of_rearranges (rearranges_makeRoom w want)
    have hposition := (looksAhead_readMore hr).position_eq
    obtain ⟨hshows, hp, hfull⟩ := ih (hroom.of_readMore k (size_lt_makeRoom hmore) hr) hf
    exact ⟨hshows, (hp.trans hposition).trans (rearranges_makeRoom w want).position_eq, hfull⟩

/-- A reader that does not fail makes no filling fail. -/
theorem Shows.fill_ne_error (d : ByteReader.Delivery R) (h : Shows R w left) {fault : Fault} :
    w.fill want ≠ (.error fault, w') := by
  intro hf
  fun_induction TargetWindow.fill w want with
  | case1 w hdone => cases hf
  | case2 w hmore fault w₁ hr =>
    obtain ⟨rest, -, hrest, -⟩ := h.of_rearranges (rearranges_makeRoom w want)
    obtain ⟨piece, rest', ⟨⟩, -⟩ := d.of_readSome hrest (TargetWindow.of_readMore_error hr).1
  | case3 w hmore w₁ hr ih =>
    have hroom := h.of_rearranges (rearranges_makeRoom w want)
    exact ih (hroom.of_readMore d.resuming (size_lt_makeRoom hmore) hr) hf

/-- Filling succeeds, and then what was wanted is there, or all that is left. -/
theorem Shows.fill (d : ByteReader.Delivery R) (h : Shows R w left) (want : Nat) :
    ∃ w', w.fill want = (.ok (), w') ∧ Shows R w' left ∧ w'.position = w.position ∧
      (want ≤ w'.available ∨ w'.available = left.length) := by
  rcases hf : w.fill want with ⟨⟨⟩ | ⟨⟩, w'⟩
  · exact absurd hf (h.fill_ne_error d)
  · obtain ⟨hshows, hposition, hfull⟩ := h.of_fill d.resuming hf
    exact ⟨w', rfl, hshows, hposition, hfull rfl⟩

end BinaryDelta.TargetWindow
