import BinaryDelta.BigEndian
import BinaryDelta.Stream.Memory

/-!
# Readers that deliver a byte string

How a reader hands out its bytes is its own affair: in pieces of any size, with interruptions in
between. What counts is which bytes arrive. A `Delivery` relates readers to the bytes still to come
from them: the pieces arrive in order, none is empty unless nothing was asked for or nothing is
left, and no call fails. `Delivers r bytes` says that `r` stands in such a relation to `bytes`.

A reader may also fail at any call and go on from there when it is asked again. `Resuming` is such a
relation with calls that fail and lose nothing, and `Resumes r bytes` says that `r` stands in one.

Results:
* `Delivery.resuming`: what delivers also resumes.
* `Resuming.of_readSome`, `Resuming.of_readSome_error`: a repeated call brings a piece of the bytes
  to come, or takes nothing.
* `Delivery.readUpTo`, `Delivery.readExact`, `Delivery.readEach`, `Delivery.readField`: what reading
  answers depends on the bytes to come alone, and so does what comes after.
* `Delivers.unique`: so a reader delivers one byte string only.
* `MemoryStream.delivers`: bytes in memory are delivered.
-/

namespace BinaryDelta

namespace ByteReader

variable {ρ : Type} [ByteReader ρ]

/-- A relation between readers and the bytes still to come, kept by every call. -/
structure Delivery (R : ρ → List UInt8 → Prop) : Prop where
  data : ∀ {r r' : ρ} {bytes : List UInt8} {n : Nat} {piece : ByteArray}, R r bytes →
    read r n = (.data piece, r') →
      ∃ rest, bytes = piece.data.toList ++ rest ∧ R r' rest ∧
        (piece.size = 0 → n = 0 ∨ bytes = [])
  interrupted : ∀ {r r' : ρ} {bytes : List UInt8} {n : Nat}, R r bytes →
    read r n = (.interrupted, r') → R r' bytes
  unfailing : ∀ {r r' : ρ} {bytes : List UInt8} {n : Nat} {fault : Fault}, R r bytes →
    read r n ≠ (.failed fault, r')

/-- The reader delivers these bytes, and then it ends. -/
def Delivers (r : ρ) (bytes : List UInt8) : Prop := ∃ R, Delivery R ∧ R r bytes

/-- Delivering is itself a delivery. -/
theorem delivery_delivers : Delivery (Delivers : ρ → List UInt8 → Prop) where
  data := by
    rintro r r' bytes n piece ⟨R, d, h⟩ hr
    obtain ⟨rest, hb, hrest, hp⟩ := d.data h hr
    exact ⟨rest, hb, ⟨R, d, hrest⟩, hp⟩
  interrupted := by
    rintro r r' bytes n ⟨R, d, h⟩ hr
    exact ⟨R, d, d.interrupted h hr⟩
  unfailing := by
    rintro r r' bytes n fault ⟨R, d, h⟩
    exact d.unfailing h

/-- A relation between readers and the bytes still to come, kept by every call, and by one that
fails without a loss. -/
structure Resuming (R : ρ → List UInt8 → Prop) : Prop where
  data : ∀ {r r' : ρ} {bytes : List UInt8} {n : Nat} {piece : ByteArray}, R r bytes →
    read r n = (.data piece, r') →
      ∃ rest, bytes = piece.data.toList ++ rest ∧ R r' rest ∧
        (piece.size = 0 → n = 0 ∨ bytes = [])
  interrupted : ∀ {r r' : ρ} {bytes : List UInt8} {n : Nat}, R r bytes →
    read r n = (.interrupted, r') → R r' bytes
  failed : ∀ {r r' : ρ} {bytes : List UInt8} {n : Nat} {fault : Fault}, R r bytes →
    read r n = (.failed fault, r') → R r' bytes

/-- The reader hands out these bytes, and then it ends. Until then it may fail at any call. -/
def Resumes (r : ρ) (bytes : List UInt8) : Prop := ∃ R, Resuming R ∧ R r bytes

variable {R : ρ → List UInt8 → Prop} {bytes : List UInt8}

/-- What delivers also resumes. -/
theorem Delivery.resuming (d : Delivery R) : Resuming R where
  data := d.data
  interrupted := d.interrupted
  failed h hr := absurd hr (d.unfailing h)

/-- A repeated call brings a piece of the bytes to come. -/
theorem Resuming.of_readSome (k : Resuming R) {r r' : ρ} (h : R r bytes) {n : Nat}
    {piece : ByteArray} (hr : ByteReader.readSome r n = (.ok piece, r')) :
    ∃ rest, bytes = piece.data.toList ++ rest ∧ R r' rest ∧
      (piece.size = 0 → n = 0 ∨ bytes = []) := by
  fun_induction ByteReader.readSome r n with
  | case1 r piece r₁ hd =>
    cases hr
    exact k.data h hd
  | case2 r fault r₁ hd => cases hr
  | case3 r r₁ hd ih => exact ih (k.interrupted h hd) hr

/-- A repeated call that fails takes nothing. -/
theorem Resuming.of_readSome_error (k : Resuming R) {r r' : ρ} (h : R r bytes) {n : Nat}
    {fault : Fault} (hr : ByteReader.readSome r n = (.error fault, r')) : R r' bytes := by
  fun_induction ByteReader.readSome r n with
  | case1 r piece r₁ hd => cases hr
  | case2 r fault r₁ hd =>
    cases hr
    exact k.failed h hd
  | case3 r r₁ hd ih => exact ih (k.interrupted h hd) hr

namespace Delivery

/-- A repeated call delivers a piece. -/
theorem of_readSome (d : Delivery R) {r r' : ρ} (h : R r bytes) {n : Nat}
    {answer : Except Fault ByteArray} (hr : ByteReader.readSome r n = (answer, r')) :
    ∃ piece rest, answer = .ok piece ∧ bytes = piece.data.toList ++ rest ∧ R r' rest ∧
      (piece.size = 0 → n = 0 ∨ bytes = []) := by
  fun_induction ByteReader.readSome r n with
  | case1 r piece r₁ hd =>
    obtain ⟨⟨⟩, rfl⟩ := Prod.mk.inj hr
    obtain ⟨rest, hb, hrest, hp⟩ := d.data h hd
    exact ⟨piece, rest, rfl, hb, hrest, hp⟩
  | case2 r fault r₁ hd => exact absurd hd (d.unfailing h)
  | case3 r r₁ hd ih => exact ih (d.interrupted h hd) hr

theorem readUpToAfter (d : Delivery R) {r : ρ} (h : R r bytes) (acc : ByteArray) (n : Nat) :
    ∃ r', ByteReader.readUpToAfter acc r n = (.ok (acc ++ packBytes (bytes.take n)), r') ∧
      R r' (bytes.drop n) := by
  fun_induction ByteReader.readUpToAfter acc r n generalizing bytes with
  | case1 acc r => exact ⟨r, by simp, by simpa using h⟩
  | case2 acc r n hn fault r' hr =>
    obtain ⟨piece, rest, ⟨⟩, -⟩ := d.of_readSome h hr
  | case3 acc r n hn piece r' hr hp =>
    obtain ⟨piece', rest, ⟨⟩, hb, hrest, hempty⟩ := d.of_readSome h hr
    have hnil : bytes = [] := (hempty hp).resolve_left hn
    have hrest' : rest = [] := (List.append_eq_nil_iff.mp (hb.symm.trans hnil)).2
    subst hnil hrest'
    exact ⟨r', by simp, by simpa using hrest⟩
  | case4 acc r n hn piece r' hr hp ih =>
    have hle := size_le_of_readSome hr
    obtain ⟨piece', rest, ⟨⟩, hb, hrest, -⟩ := d.of_readSome h hr
    have hl := length_toList piece
    obtain ⟨r₂, h₁, h₂⟩ := ih hrest
    refine ⟨r₂, ?_, ?_⟩
    · have ht : piece.data.toList.take n = piece.data.toList := List.take_of_length_le (by omega)
      rw [h₁, hb, List.take_append, ht, packBytes_append, hl, packBytes_toList,
        ByteArray.append_assoc]
    · rwa [hb, List.drop_append, List.drop_eq_nil_of_le (by omega), hl]

/-- Reading up to `n` bytes takes them, as far as they are to come. -/
theorem readUpTo (d : Delivery R) {r : ρ} (h : R r bytes) (n : Nat) :
    ∃ r', ByteReader.readUpTo r n = (.ok (packBytes (bytes.take n)), r') ∧ R r' (bytes.drop n) := by
  obtain ⟨r', hr, hrest⟩ := d.readUpToAfter h ByteArray.empty n
  exact ⟨r', by rw [ByteReader.readUpTo, hr, ByteArray.empty_append], hrest⟩

/-- Reading exactly `n` bytes takes them, if so many are to come. -/
theorem readExact (d : Delivery R) {r : ρ} (h : R r bytes) {n : Nat} (hn : n ≤ bytes.length) :
    ∃ r', ByteReader.readExact r n = (.ok (packBytes (bytes.take n)), r') ∧
      R r' (bytes.drop n) := by
  obtain ⟨r', hr, hrest⟩ := d.readUpTo h n
  have hl : (bytes.take n).length = n := List.length_take_of_le hn
  exact ⟨r', by rw [ByteReader.readExact, hr]; simp [hl], hrest⟩

/-- Reading more bytes than are to come takes all of them and comes up short. -/
theorem readExact_short (d : Delivery R) {r : ρ} (h : R r bytes) {n : Nat}
    (hn : bytes.length < n) : ∃ r', ByteReader.readExact r n = (.error .ended, r') ∧ R r' [] := by
  obtain ⟨r', hr, hrest⟩ := d.readUpTo h n
  rw [List.drop_eq_nil_of_le (by omega)] at hrest
  have hl : (bytes.take n).length < n := by rw [List.length_take]; omega
  exact ⟨r', by rw [ByteReader.readExact, hr]; simp only [size_packBytes, if_pos hl], hrest⟩

theorem readEach (d : Delivery R) {r : ρ} (h : R r bytes) (sizes : List Nat)
    (hn : sizes.foldr (· + ·) 0 ≤ bytes.length) :
    ∃ r', ByteReader.readEach r sizes = (.ok (packBytes (bytes.take (sizes.foldr (· + ·) 0))), r') ∧
      R r' (bytes.drop (sizes.foldr (· + ·) 0)) := by
  induction sizes generalizing r bytes with
  | nil => exact ⟨r, by simp [ByteReader.readEach], by simpa using h⟩
  | cons n sizes ih =>
    rw [List.foldr_cons] at hn ⊢
    obtain ⟨r₁, h₁, hrest⟩ := d.readExact h (n := n) (by omega)
    obtain ⟨r₂, h₂, hrest'⟩ := ih hrest (by rw [List.length_drop]; omega)
    refine ⟨r₂, ?_, by rwa [List.drop_drop] at hrest'⟩
    rw [ByteReader.readEach, h₁]
    simp only [h₂]
    rw [List.take_add, packBytes_append]

theorem readEach_short (d : Delivery R) {r : ρ} (h : R r bytes) (sizes : List Nat)
    (hn : bytes.length < sizes.foldr (· + ·) 0) :
    ∃ r', ByteReader.readEach r sizes = (.error .ended, r') ∧ R r' [] := by
  induction sizes generalizing r bytes with
  | nil => exact absurd hn (Nat.not_lt_zero _)
  | cons n sizes ih =>
    rw [List.foldr_cons] at hn
    by_cases hle : n ≤ bytes.length
    · obtain ⟨r₁, h₁, hrest⟩ := d.readExact h hle
      obtain ⟨r₂, h₂, hend⟩ := ih hrest (by rw [List.length_drop]; omega)
      exact ⟨r₂, by rw [ByteReader.readEach, h₁]; simp only [h₂], hend⟩
    · obtain ⟨r₁, h₁, hend⟩ := d.readExact_short h (Nat.lt_of_not_le hle)
      exact ⟨r₁, by rw [ByteReader.readEach, h₁], hend⟩

/-- Reading a field takes its bytes and gives the number that they spell. -/
theorem readField (d : Delivery R) {r : ρ} (h : R r bytes) (width : Nat)
    (hn : width ≤ bytes.length) :
    ∃ r', ByteReader.readField r width = (.ok (ofBigEndian (bytes.take width)), r') ∧
      R r' (bytes.drop width) := by
  obtain ⟨r', hr, hrest⟩ := d.readExact h hn
  exact ⟨r', by rw [ByteReader.readField, hr]; simp, hrest⟩

/-- A field that was written is read back. -/
theorem readField_bigEndian (d : Delivery R) {r : ρ} {width n : Nat} (hn : n < fieldRange width)
    {rest : List UInt8} (h : R r (bigEndian width n ++ rest)) :
    ∃ r', ByteReader.readField r width = (.ok n, r') ∧ R r' rest := by
  have hl := length_bigEndian width n
  obtain ⟨r', hr, hrest⟩ := d.readField h width (by rw [List.length_append]; omega)
  rw [List.take_left' hl, ofBigEndian_bigEndian, Nat.mod_eq_of_lt hn] at hr
  rw [List.drop_left' hl] at hrest
  exact ⟨r', hr, hrest⟩

theorem readField_short (d : Delivery R) {r : ρ} (h : R r bytes) (width : Nat)
    (hn : bytes.length < width) :
    ∃ r', ByteReader.readField r width = (.error .ended, r') ∧ R r' [] := by
  obtain ⟨r', hr, hend⟩ := d.readExact_short h hn
  exact ⟨r', by rw [ByteReader.readField, hr], hend⟩

end Delivery

/-- A reader delivers one byte string only: reading on shows all of it. -/
theorem Delivers.unique {r : ρ} {bytes' : List UInt8} (h : Delivers r bytes)
    (h' : Delivers r bytes') : bytes = bytes' := by
  let n := max bytes.length bytes'.length
  obtain ⟨_, hr, -⟩ := delivery_delivers.readUpTo h n
  obtain ⟨_, hr', -⟩ := delivery_delivers.readUpTo h' n
  rw [hr, List.take_of_length_le (Nat.le_max_left _ _),
    List.take_of_length_le (Nat.le_max_right _ _)] at hr'
  have hpack : packBytes bytes = packBytes bytes' := Except.ok.inj (Prod.mk.inj hr').1
  simpa using congrArg (·.data.toList) hpack

theorem Delivers.iff_eq {r : ρ} (h : Delivers r bytes) (rest : List UInt8) :
    Delivers r rest ↔ rest = bytes :=
  ⟨fun h' => h'.unique h, fun he => he ▸ h⟩

end ByteReader

namespace MemoryStream

/-- The bytes behind the position. -/
def ToCome (s : MemoryStream) (bytes : List UInt8) : Prop :=
  bytes = s.bytes.data.toList.drop s.position

theorem toList_take (s : MemoryStream) (n : Nat) :
    (s.take n).data.toList = (s.bytes.data.toList.drop s.position).take n := by
  rw [take, toList_extract, List.drop_take, Nat.add_sub_cancel_left]

theorem toList_drop (s : MemoryStream) (n : Nat) :
    (s.drop n).bytes.data.toList.drop (s.drop n).position =
      (s.bytes.data.toList.drop s.position).drop n := by
  have hl := size_take s n
  rw [drop, hl, ← List.drop_drop, List.drop_eq_drop_min (i := n), List.length_drop, length_toList]

theorem delivery_toCome : ByteReader.Delivery ToCome where
  data := by
    rintro s s' bytes n piece rfl hr
    obtain ⟨⟨⟩, rfl⟩ := Prod.mk.inj hr
    refine ⟨(s.drop n).bytes.data.toList.drop (s.drop n).position, ?_, rfl, ?_⟩
    · rw [toList_take, toList_drop, List.take_append_drop]
    · intro h
      rw [size_take] at h
      rw [List.drop_eq_nil_iff, length_toList]
      omega
  interrupted := fun _ hr => absurd hr (read_ne_interrupted _ _ _)
  unfailing := by
    intro s s' bytes n fault _ hr
    cases (Prod.mk.inj hr).1

/-- Bytes in memory are delivered from the position on. -/
theorem delivers (s : MemoryStream) :
    ByteReader.Delivers s (s.bytes.data.toList.drop s.position) :=
  ⟨ToCome, delivery_toCome, rfl⟩

end MemoryStream

end BinaryDelta
