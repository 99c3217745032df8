import BinaryDelta.Proofs.Stream.Delivery
import BinaryDelta.Source.Cursor
import BinaryDelta.Source.Memory

/-!
# Sources that hold a byte string

A source may answer a positioned read with fewer bytes than were asked for, or with an interruption.
A `Holding` is a property of sources that every positioned read keeps, and under which a read at
some position delivers bytes of one and the same string from there on: none only where none are
asked for or none are left, and never a failure. `Holds s bytes` says that `s` has such a property.

A source may also fail, at any read, and hand out nothing but these bytes until then. That is a
`Serving`, and `Serves s bytes` says that `s` has such a property.

Results:
* `Serving.of_readSomeAt`: what a repeated read delivers, if it delivers anything, are the bytes at
  its position.
* `Serving.of_readExactAt`, `Serving.of_readExactAt_ended`: what an exact read that did not fail says
  of its range.
* `Holding.readExactAt`, `Holding.readExactAt_short`: what an exact read answers depends on the
  bytes held alone.
* `SourceCursor.delivery_at`: a cursor over such a source delivers the bytes behind it.
* `MemoryStream.holds`: bytes in memory are held.
-/

namespace BinaryDelta

namespace Source

variable {σ : Type} [Source σ]

/-- A property of sources that hold these bytes, kept by every positioned read. -/
structure Holding (H : σ → Prop) (bytes : List UInt8) : Prop where
  length : ∀ {s : σ}, H s → Source.length s = bytes.length
  data : ∀ {s s' : σ} {position n : Nat} {piece : ByteArray}, H s →
    readAt s position n = (.data piece, s') →
      H s' ∧ (∃ rest, bytes.drop position = piece.data.toList ++ rest) ∧
        (piece.size = 0 → n = 0 ∨ bytes.length ≤ position)
  interrupted : ∀ {s s' : σ} {position n : Nat}, H s → readAt s position n = (.interrupted, s') →
    H s'
  unfailing : ∀ {s s' : σ} {position n : Nat} {fault : Fault}, H s →
    readAt s position n ≠ (.failed fault, s')

/-- A property of sources that hand out these bytes, for as long as they do not fail. -/
structure Serving (H : σ → Prop) (bytes : List UInt8) : Prop where
  data : ∀ {s s' : σ} {position n : Nat} {piece : ByteArray}, H s →
    readAt s position n = (.data piece, s') →
      H s' ∧ (∃ rest, bytes.drop position = piece.data.toList ++ rest) ∧
        (piece.size = 0 → n = 0 ∨ bytes.length ≤ position)
  interrupted : ∀ {s s' : σ} {position n : Nat}, H s → readAt s position n = (.interrupted, s') →
    H s'

/-- The source hands out these bytes, for as long as it does not fail. -/
def Serves (s : σ) (bytes : List UInt8) : Prop := ∃ H, Serving H bytes ∧ H s

/-- What a repeated read delivers are the bytes at its position. -/
theorem Serving.of_readSomeAt {H : σ → Prop} {bytes : List UInt8} (k : Serving H bytes) {s s' : σ}
    (h : H s) {position n : Nat} {piece : ByteArray}
    (hr : Source.readSomeAt s position n = (.ok piece, s')) :
    H s' ∧ (∃ rest, bytes.drop position = piece.data.toList ++ rest) ∧
      (piece.size = 0 → n = 0 ∨ bytes.length ≤ position) := by
  fun_induction Source.readSomeAt s position n with
  | case1 s piece' s₁ hd =>
    obtain ⟨⟨⟩, rfl⟩ := Prod.mk.inj hr
    exact k.data h hd
  | case2 s fault s₁ hd => cases (Prod.mk.inj hr).1
  | case3 s s₁ hd ih => exact ih (k.interrupted h hd) hr

theorem Serving.of_readExactAtAfter {H : σ → Prop} {bytes : List UInt8} (k : Serving H bytes)
    {s s' : σ} (h : H s) {acc : ByteArray} {position n : Nat} {answer : ByteArray ⊕ Nat}
    (hr : Source.readExactAtAfter acc s position n = (.ok answer, s')) :
    H s' ∧ ((n = 0 ∨ position + n ≤ bytes.length) ∧ answer.isLeft ∨
      0 < n ∧ bytes.length < position + n ∧ answer = .inr (n - (bytes.length - position))) := by
  fun_induction Source.readExactAtAfter acc s position n with
  | case1 acc s position =>
    cases hr
    exact ⟨h, .inl ⟨.inl rfl, rfl⟩⟩
  | case2 acc s position n hne fault s₁ hd => cases hr
  | case3 acc s position n hne piece s₁ hd hp =>
    cases hr
    obtain ⟨h', -, hempty⟩ := k.of_readSomeAt h hd
    have hend : bytes.length ≤ position := (hempty hp).resolve_left hne
    exact ⟨h', .inr ⟨by omega, by omega, congrArg _ (by omega)⟩⟩
  | case4 acc s position n hne piece s₁ hd hp ih =>
    have hle := size_le_of_readSomeAt hd
    obtain ⟨h', ⟨rest, hb⟩, -⟩ := k.of_readSomeAt h hd
    have hpiece : piece.size ≤ bytes.length - position := by
      rw [← List.length_drop, hb, List.length_append, length_toList]
      omega
    obtain ⟨h₁, ⟨hin, hleft⟩ | ⟨hpos, hout, hshort⟩⟩ := ih h' hr
    · exact ⟨h₁, .inl ⟨by omega, hleft⟩⟩
    · exact ⟨h₁, .inr ⟨by omega, by omega, hshort.trans (congrArg _ (by omega))⟩⟩

/-- An exact read that succeeds stays in the bytes. -/
theorem Serving.of_readExactAt {H : σ → Prop} {bytes : List UInt8} (k : Serving H bytes)
    {s s' : σ} (h : H s) {position n : Nat} {piece : ByteArray}
    (hr : Source.readExactAt s position n = (.ok piece, s')) :
    H s' ∧ (n = 0 ∨ position + n ≤ bytes.length) := by
  unfold Source.readExactAt at hr
  split at hr
  · cases hr
  · cases hr
  · rename_i hd
    cases hr
    obtain ⟨h', ⟨hin, -⟩ | ⟨-, -, hright⟩⟩ := k.of_readExactAtAfter h hd
    · exact ⟨h', hin⟩
    · cases hright

/-- An exact read that ends too early reaches behind the bytes, and says where it began and how many
of its bytes lie there. -/
theorem Serving.of_readExactAt_ended {H : σ → Prop} {bytes : List UInt8} (k : Serving H bytes)
    {s s' : σ} (h : H s) {position n offset missing : Nat}
    (hr : Source.readExactAt s position n = (.error (.unexpectedEndOfSource offset missing), s')) :
    0 < n ∧ bytes.length < position + n ∧ offset = position ∧
      missing = n - (bytes.length - position) := by
  unfold Source.readExactAt at hr
  split at hr
  · cases hr
  · rename_i hd
    cases hr
    obtain ⟨-, ⟨-, hleft⟩ | ⟨hpos, hout, hshort⟩⟩ := k.of_readExactAtAfter h hd
    · cases hleft
    · cases hshort
      exact ⟨hpos, hout, rfl, rfl⟩
  · cases hr

/-- The source holds these bytes. -/
def Holds (s : σ) (bytes : List UInt8) : Prop := ∃ H, Holding H bytes ∧ H s

/-- Holding a byte string is itself a holding. -/
theorem holding_holds (bytes : List UInt8) : Holding (fun s : σ => Holds s bytes) bytes where
  length := by
    rintro s ⟨H, k, h⟩
    exact k.length h
  data := by
    rintro s s' position n piece ⟨H, k, h⟩ hr
    obtain ⟨h', hb, hp⟩ := k.data h hr
    exact ⟨⟨H, k, h'⟩, hb, hp⟩
  interrupted := by
    rintro s s' position n ⟨H, k, h⟩ hr
    exact ⟨H, k, k.interrupted h hr⟩
  unfailing := by
    rintro s s' position n fault ⟨H, k, h⟩
    exact k.unfailing h

namespace Holding

variable {H : σ → Prop} {bytes : List UInt8}

/-- Holding a byte string is serving it. -/
theorem serving (k : Holding H bytes) : Serving H bytes := ⟨k.data, k.interrupted⟩

/-- A repeated read delivers a piece. -/
theorem of_readSomeAt (k : Holding H bytes) {s s' : σ} (h : H s) {position n : Nat}
    {answer : Except Fault ByteArray} (hr : Source.readSomeAt s position n = (answer, s')) :
    ∃ piece rest, answer = .ok piece ∧ H s' ∧ bytes.drop position = piece.data.toList ++ rest ∧
      (piece.size = 0 → n = 0 ∨ bytes.length ≤ position) := by
  fun_induction Source.readSomeAt s position n with
  | case1 s piece s₁ hd =>
    obtain ⟨⟨⟩, rfl⟩ := Prod.mk.inj hr
    obtain ⟨h', ⟨rest, hb⟩, hp⟩ := k.data h hd
    exact ⟨piece, rest, rfl, h', hb, hp⟩
  | case2 s fault s₁ hd => exact absurd hd (k.unfailing h)
  | case3 s s₁ hd ih => exact ih (k.interrupted h hd) hr

theorem readExactAtAfter (k : Holding H bytes) {s : σ} (h : H s) (acc : ByteArray)
    {position n : Nat} (hn : position + n ≤ bytes.length) :
    ∃ s', Source.readExactAtAfter acc s position n =
        (.ok (.inl (acc ++ packBytes ((bytes.drop position).take n))), s') ∧ H s' := by
  fun_induction Source.readExactAtAfter acc s position n with
  | case1 acc s position => exact ⟨s, by simp, h⟩
  | case2 acc s position n hne fault s' hr =>
    obtain ⟨piece, rest, ⟨⟩, -⟩ := k.of_readSomeAt h hr
  | case3 acc s position n hne piece s' hr hp =>
    obtain ⟨piece', rest, ⟨⟩, -, -, hempty⟩ := k.of_readSomeAt h hr
    have := (hempty hp).resolve_left hne
    omega
  | case4 acc s position n hne piece s' hr hp ih =>
    have hle := size_le_of_readSomeAt hr
    obtain ⟨piece', rest, ⟨⟩, h', hb, -⟩ := k.of_readSomeAt h hr
    have hl := length_toList piece
    have hrest : bytes.drop (position + piece.size) = rest := by
      rw [← List.drop_drop, hb, ← hl, List.drop_left]
    have ht : piece.data.toList.take n = piece.data.toList := List.take_of_length_le (by omega)
    obtain ⟨s₂, h₁, h₂⟩ := ih h' (by omega)
    refine ⟨s₂, ?_, h₂⟩
    rw [h₁, hb, hrest, List.take_append, ht, packBytes_append, hl, packBytes_toList,
      ByteArray.append_assoc]

theorem of_readExactAtAfter (k : Holding H bytes) {s s' : σ} (h : H s) {acc : ByteArray}
    {position n : Nat} (hn : position + n ≤ bytes.length)
    {answer : Except Fault (ByteArray ⊕ Nat)}
    (hr : Source.readExactAtAfter acc s position n = (answer, s')) :
    answer = .ok (.inl (acc ++ packBytes ((bytes.drop position).take n))) ∧ H s' := by
  obtain ⟨s₁, hs, h'⟩ := k.readExactAtAfter h acc hn
  obtain ⟨rfl, rfl⟩ := Prod.mk.inj (hr.symm.trans hs)
  exact ⟨rfl, h'⟩

/-- A range that reaches behind the end comes up short by what lies there. -/
theorem readExactAtAfter_short (k : Holding H bytes) {s : σ} (h : H s) (acc : ByteArray)
    {position n : Nat} (hn : 0 < n) (he : bytes.length < position + n) :
    ∃ s', Source.readExactAtAfter acc s position n =
        (.ok (.inr (n - (bytes.length - position))), s') ∧ H s' := by
  fun_induction Source.readExactAtAfter acc s position n with
  | case1 acc s position => exact absurd hn (Nat.lt_irrefl _)
  | case2 acc s position n hne fault s' hr =>
    obtain ⟨piece, rest, ⟨⟩, -⟩ := k.of_readSomeAt h hr
  | case3 acc s position n hne piece s' hr hp =>
    obtain ⟨piece', rest, ⟨⟩, h', -, hempty⟩ := k.of_readSomeAt h hr
    have := (hempty hp).resolve_left hne
    exact ⟨s', by rw [Nat.sub_eq_zero_of_le this, Nat.sub_zero], h'⟩
  | case4 acc s position n hne piece s' hr hp ih =>
    obtain ⟨piece', rest, ⟨⟩, h', hb, -⟩ := k.of_readSomeAt h hr
    have hl := length_toList piece
    have hle : piece.size ≤ bytes.length - position := by
      rw [← List.length_drop, hb, List.length_append]
      omega
    obtain ⟨s₂, h₁, h₂⟩ := ih h' (by omega) (by omega)
    refine ⟨s₂, ?_, h₂⟩
    rw [h₁]
    congr 3
    omega

/-- An exact read takes the bytes of its range. -/
theorem readExactAt (k : Holding H bytes) {s : σ} (h : H s) (position : Nat) {n : Nat}
    (hn : position + n ≤ bytes.length) :
    ∃ s', Source.readExactAt s position n =
        (.ok (packBytes ((bytes.drop position).take n)), s') ∧ H s' := by
  obtain ⟨s', hs, h'⟩ := k.readExactAtAfter h ByteArray.empty hn
  exact ⟨s', by rw [Source.readExactAt, hs]; simp, h'⟩

/-- An exact read of a range that reaches behind the end fails. -/
theorem readExactAt_short (k : Holding H bytes) {s : σ} (h : H s) (position : Nat) {n : Nat}
    (hn : 0 < n) (he : bytes.length < position + n) :
    ∃ s', Source.readExactAt s position n =
        (.error (.unexpectedEndOfSource position (n - (bytes.length - position))), s') ∧ H s' := by
  obtain ⟨s', hs, h'⟩ := k.readExactAtAfter_short h ByteArray.empty hn he
  exact ⟨s', by rw [Source.readExactAt, hs], h'⟩

end Holding

end Source

namespace SourceCursor

variable {σ : Type} [Source σ]

/-- The cursor stands within the bytes that its source holds, and these are the ones behind it. -/
structure At (H : σ → Prop) (bytes : List UInt8) (c : SourceCursor σ) (rest : List UInt8) :
    Prop where
  holds : H c.source
  position_le : c.position ≤ bytes.length
  rest_eq : rest = bytes.drop c.position

omit [Source σ] in
theorem At.length_rest {H : σ → Prop} {bytes rest : List UInt8} {c : SourceCursor σ}
    (h : At H bytes c rest) : c.position + rest.length = bytes.length := by
  have hp := h.position_le
  rw [h.rest_eq, List.length_drop]
  omega

/-- A cursor delivers the bytes behind it. -/
theorem delivery_at {H : σ → Prop} {bytes : List UInt8} (k : Source.Holding H bytes) :
    ByteReader.Delivery (At H bytes) where
  data := by
    rintro ⟨source, position⟩ c' rest n piece h hr
    replace hr : read ⟨source, position⟩ n = (.data piece, c') := hr
    simp only [read] at hr
    split at hr
    · rename_i bytes' source' ha
      obtain ⟨⟨⟩, rfl⟩ := Prod.mk.inj hr
      obtain ⟨h', ⟨rest', hb⟩, hp⟩ := k.data h.holds ha
      have hl := length_toList piece
      have hle : piece.size ≤ bytes.length - position := by
        rw [← List.length_drop, hb, List.length_append]
        omega
      have hpos : position ≤ bytes.length := h.position_le
      have hrest : rest = bytes.drop position := h.rest_eq
      refine ⟨rest', hrest.trans hb, ⟨h', by dsimp only; omega, ?_⟩, fun h₀ => ?_⟩
      · rw [← List.drop_drop, hb, ← hl, List.drop_left]
      · rw [hrest, List.drop_eq_nil_iff]
        exact hp h₀
    · cases hr
    · cases hr
  interrupted := by
    rintro ⟨source, position⟩ c' rest n h hr
    replace hr : read ⟨source, position⟩ n = (.interrupted, c') := hr
    simp only [read] at hr
    split at hr
    · cases hr
    · rename_i source' ha
      obtain ⟨-, rfl⟩ := Prod.mk.inj hr
      exact ⟨k.interrupted h.holds ha, h.position_le, h.rest_eq⟩
    · cases hr
  unfailing := by
    rintro ⟨source, position⟩ c' rest n fault h hr
    replace hr : read ⟨source, position⟩ n = (.failed fault, c') := hr
    simp only [read] at hr
    split at hr
    · cases hr
    · cases hr
    · rename_i ha
      exact k.unfailing h.holds ha

end SourceCursor

namespace MemoryStream

/-- A positioned read takes the bytes at the position, as far as they exist, and keeps the stream.
-/
theorem exists_readAt (s : MemoryStream) (position n : Nat) :
    ∃ s', Source.readAt s position n = (.data (s.bytes.extract position (position + n)), s') ∧
      s'.bytes = s.bytes := by
  by_cases hp : position < s.bytes.size
  · exact ⟨_, readAt_memory s n hp, rfl⟩
  · have hl : Source.length s ≤ position := Nat.le_of_not_lt hp
    have he : s.bytes.extract position (position + n) = ByteArray.empty := by
      rw [ByteArray.extract_eq_empty_iff]
      omega
    exact ⟨s, by rw [Source.readAt, if_pos hl, he], rfl⟩

/-- The bytes of the stream, wherever it stands. -/
theorem holding_bytes (bytes : ByteArray) :
    Source.Holding (fun s : MemoryStream => s.bytes = bytes) bytes.data.toList where
  length := by
    rintro s rfl
    exact (length_toList s.bytes).symm
  data := by
    rintro s s' position n piece rfl hr
    obtain ⟨s₁, h₁, hb⟩ := exists_readAt s position n
    rw [h₁] at hr
    obtain ⟨⟨⟩, rfl⟩ := Prod.mk.inj hr
    refine ⟨hb, ⟨(s.bytes.data.toList.drop position).drop n, ?_⟩, fun h => ?_⟩
    · rw [toList_extract, List.drop_take, Nat.add_sub_cancel_left, List.take_append_drop]
    · rw [ByteArray.size_extract] at h
      rw [length_toList]
      omega
  interrupted := by
    rintro s s' position n rfl hr
    obtain ⟨s₁, h₁, -⟩ := exists_readAt s position n
    rw [h₁] at hr
    cases hr
  unfailing := by
    rintro s s' position n fault rfl hr
    obtain ⟨s₁, h₁, -⟩ := exists_readAt s position n
    rw [h₁] at hr
    cases hr

/-- Bytes in memory are held. -/
theorem holds (s : MemoryStream) : Source.Holds s s.bytes.data.toList :=
  ⟨_, holding_bytes s.bytes, rfl⟩

end MemoryStream

end BinaryDelta
