import BinaryDelta.Proofs.Wire.Parse

/-!
# Readers that may fail

A reader that delivers a byte string never fails. Less can be asked of a reader: it may fail at any
call, and may claim to have ended while there are bytes left, but what it does hand out are the next
of the bytes to come. `Yielding` is a relation of that kind between readers and these bytes. Under
it nothing says that a call succeeds, but all is known about a call that did.

Results:
* `Delivery.yielding`: what delivers also yields.
* `Yielding.of_readUpTo`, `Yielding.of_readExact`, `Yielding.of_readEach`, `Yielding.of_readField`:
  what was read are the next bytes.
* `Yielding.of_readRecord`: a record that was read is the one that the bytes to come begin with, and
  as long as was answered.
-/

namespace BinaryDelta

namespace ByteReader

variable {ρ : Type} [ByteReader ρ]

/-- A relation between readers and the bytes still to come, kept by every call that does not
fail. -/
structure Yielding (R : ρ → List UInt8 → Prop) : Prop where
  data : ∀ {r r' : ρ} {bytes : List UInt8} {n : Nat} {piece : ByteArray}, R r bytes →
    read r n = (.data piece, r') → ∃ rest, bytes = piece.data.toList ++ rest ∧ R r' rest
  interrupted : ∀ {r r' : ρ} {bytes : List UInt8} {n : Nat}, R r bytes →
    read r n = (.interrupted, r') → R r' bytes

variable {R : ρ → List UInt8 → Prop}

/-- What delivers also yields. -/
theorem Delivery.yielding (d : Delivery R) : Yielding R where
  data h hr := by
    obtain ⟨rest, hb, hrest, -⟩ := d.data h hr
    exact ⟨rest, hb, hrest⟩
  interrupted := d.interrupted

namespace Yielding

variable {r r' : ρ} {bytes : List UInt8} {n : Nat} {piece : ByteArray}

theorem of_readSome (y : Yielding R) (h : R r bytes) (hr : readSome r n = (.ok piece, r')) :
    ∃ rest, bytes = piece.data.toList ++ rest ∧ R r' rest := by
  fun_induction ByteReader.readSome r n with
  | case1 r piece r₁ hd =>
    obtain ⟨⟨⟩, rfl⟩ := Prod.mk.inj hr
    exact y.data h hd
  | case2 r fault r₁ hd => cases hr
  | case3 r r₁ hd ih => exact ih (y.interrupted h hd) hr

theorem of_readUpToAfter (y : Yielding R) {acc : ByteArray} (h : R r bytes)
    (hr : readUpToAfter acc r n = (.ok piece, r')) :
    ∃ next rest, piece = acc ++ next ∧ bytes = next.data.toList ++ rest ∧ R r' rest := by
  fun_induction ByteReader.readUpToAfter acc r n generalizing bytes with
  | case1 acc r =>
    cases hr
    exact ⟨ByteArray.empty, bytes, ByteArray.append_empty.symm, rfl, h⟩
  | case2 acc r n hn fault r₁ hs => cases hr
  | case3 acc r n hn piece₁ r₁ hs hp =>
    cases hr
    obtain ⟨rest, rfl, hrest⟩ := y.of_readSome h hs
    rw [ByteArray.size_eq_zero_iff.mp hp]
    exact ⟨ByteArray.empty, rest, ByteArray.append_empty.symm, rfl, hrest⟩
  | case4 acc r n hn piece₁ r₁ hs hp ih =>
    obtain ⟨rest₁, rfl, hrest₁⟩ := y.of_readSome h hs
    obtain ⟨next, rest, rfl, rfl, hrest⟩ := ih hrest₁ hr
    refine ⟨piece₁ ++ next, rest, ByteArray.append_assoc, ?_, hrest⟩
    rw [toList_append, List.append_assoc]

/-- What was read are the next bytes. -/
theorem of_readUpTo (y : Yielding R) (h : R r bytes) (hr : readUpTo r n = (.ok piece, r')) :
    piece.size ≤ bytes.length ∧ piece = packBytes (bytes.take piece.size) ∧
      R r' (bytes.drop piece.size) := by
  obtain ⟨next, rest, rfl, rfl, hrest⟩ := y.of_readUpToAfter h hr
  rw [ByteArray.empty_append, ← length_toList, List.take_left, List.drop_left, packBytes_toList,
    List.length_append]
  exact ⟨Nat.le_add_right _ _, rfl, hrest⟩

/-- An exact number of bytes that was read are the next bytes. -/
theorem of_readExact (y : Yielding R) (h : R r bytes) (hr : readExact r n = (.ok piece, r')) :
    n ≤ bytes.length ∧ piece = packBytes (bytes.take n) ∧ R r' (bytes.drop n) := by
  have hsize := size_of_readExact hr
  unfold readExact at hr
  split at hr
  · cases hr
  · rename_i hu
    split at hr
    · cases hr
    · cases hr
      have hbytes := y.of_readUpTo h hu
      rwa [hsize] at hbytes

theorem of_readEach (y : Yielding R) {sizes : List Nat} (h : R r bytes)
    (hr : readEach r sizes = (.ok piece, r')) :
    sizes.foldr (· + ·) 0 ≤ bytes.length ∧
      piece = packBytes (bytes.take (sizes.foldr (· + ·) 0)) ∧
        R r' (bytes.drop (sizes.foldr (· + ·) 0)) := by
  induction sizes generalizing r bytes piece with
  | nil =>
    cases hr
    exact ⟨Nat.zero_le _, rfl, h⟩
  | cons n sizes ih =>
    unfold readEach at hr
    split at hr
    · cases hr
    · rename_i hn
      split at hr
      · cases hr
      · rename_i hs
        cases hr
        obtain ⟨hle, rfl, hrest⟩ := y.of_readExact h hn
        obtain ⟨hles, rfl, hrests⟩ := ih hrest hs
        rw [List.length_drop] at hles
        rw [List.drop_drop] at hrests
        rw [List.foldr_cons, List.take_add, packBytes_append]
        exact ⟨by omega, rfl, hrests⟩

/-- A number that was read is the one that the next bytes spell. -/
theorem of_readField (y : Yielding R) {value : Nat} (h : R r bytes)
    (hr : readField r n = (.ok value, r')) :
    n ≤ bytes.length ∧ value = ofBigEndian (bytes.take n) ∧ R r' (bytes.drop n) := by
  unfold readField at hr
  split at hr
  · cases hr
  · rename_i he
    cases hr
    obtain ⟨hle, rfl, hrest⟩ := y.of_readExact h he
    exact ⟨hle, rfl, hrest⟩

/-- A record that was read is the one that the bytes to come begin with. -/
theorem of_readRecord (y : Yielding R) {mode : Mode} {position length : Nat} {record : Record}
    (h : R r bytes) (hr : readRecord mode r position = (.ok (record, length), r')) :
    ∃ rest, Record.parse? mode bytes = some (record, rest) ∧ R r' rest ∧
      length + rest.length = bytes.length := by
  unfold readRecord at hr
  split at hr
  · cases hr
  · rename_i ho
    obtain ⟨hle, rfl, hrest⟩ := y.of_readField h ho
    split at hr
    · cases hr
    · rename_i form hform
      split at hr
      · cases hr
      · rename_i he
        cases hr
        obtain ⟨hles, rfl, hrests⟩ := y.of_readEach hrest he
        cases bytes with
        | nil => cases hle
        | cons opcode bytes =>
          have hop : ofBigEndian ((opcode :: bytes).take 1) = opcode.toNat :=
            ofBigEndian_singleton opcode
          replace hles : form.fieldBytes ≤ bytes.length := hles
          rw [hop, UInt8.ofNat_toNat] at hform
          have hp := Record.parse?_cons hform (bytes.take form.fieldBytes)
            (List.length_take_of_le hles) (bytes.drop form.fieldBytes)
          rw [List.take_append_drop] at hp
          refine ⟨bytes.drop form.fieldBytes, hp, hrests, ?_⟩
          rw [List.length_drop, List.length_cons]
          omega

end Yielding

end ByteReader

end BinaryDelta
