import BinaryDelta.Proofs.Wire.Parse

/-!
# Loading what was stored

What is stored as a sequence of fields is loaded by reading one field after the other. `Loads` says
of a reading action which bytes it takes and what it makes of them, on two occasions: if more bytes
follow, they are left alone; if the bytes are cut short anywhere, the reader ends too early. Both
are kept when one action follows another, so a format is described once, field by field.

`Takes` is the way back: it says which bytes the action has taken off what was to come, given what
it answered, wherever those bytes are from.

* `ByteReader.sequel` is one action and then another that depends on what the first one answered.

Results:
* `loads_field`: a field is loaded.
* **`Loads.sequel`**: what is stored one behind the other is loaded so.
* `takes_field`: a field takes the bytes that the number is stored as.
* **`Takes.sequel`**: what is loaded one behind the other was there so.
-/

namespace BinaryDelta

theorem fieldRange_pos (width : Nat) : 0 < fieldRange width := by
  induction width with
  | zero => exact Nat.one_pos
  | succ width ih => exact Nat.mul_pos ih (by decide)

/-- Multiples of its range make no difference to a field. -/
theorem bigEndian_add_mul (width n k : Nat) :
    bigEndian width (n + k * fieldRange width) = bigEndian width n := by
  induction width generalizing k with
  | zero => rfl
  | succ width ih =>
    have hk : k * fieldRange (width + 1) = k * 256 * fieldRange width := by
      rw [fieldRange, Nat.mul_comm (fieldRange width), Nat.mul_assoc]
    rw [bigEndian, bigEndian, hk, ih, Nat.add_mul_div_right _ _ (fieldRange_pos width)]
    congr 1
    exact UInt8.toNat_inj.mp (by simp)

/-- The bytes of a field are those that its number is stored as. -/
theorem bigEndian_ofBigEndian (bytes : List UInt8) :
    bigEndian bytes.length (ofBigEndian bytes) = bytes := by
  induction bytes with
  | nil => rfl
  | cons byte bytes ih =>
    have hlt := ofBigEndian_lt bytes
    rw [ofBigEndian_cons, Nat.add_comm, List.length_cons, bigEndian, bigEndian_add_mul, ih,
      Nat.add_mul_div_right _ _ (fieldRange_pos _), Nat.div_eq_of_lt hlt, Nat.zero_add,
      UInt8.ofNat_toNat]

namespace ByteReader

variable {ρ : Type} [ByteReader ρ] {α β : Type}

/-- One action and then another. The first shortfall ends both. -/
def sequel (first : ρ → Except Shortfall α × ρ) (second : α → ρ → Except Shortfall β × ρ) (r : ρ) :
    Except Shortfall β × ρ :=
  match first r with
  | (.error shortfall, r) => (.error shortfall, r)
  | (.ok a, r) => second a r

/-- The action takes exactly these bytes and answers `a`, and it ends too early where they are cut
short. -/
structure Loads (R : ρ → List UInt8 → Prop) (action : ρ → Except Shortfall α × ρ)
    (bytes : List UInt8) (a : α) : Prop where
  whole : ∀ {r : ρ} {rest : List UInt8}, R r (bytes ++ rest) →
    ∃ r', action r = (.ok a, r') ∧ R r' rest
  cut : ∀ {r : ρ} {k : Nat}, k < bytes.length → R r (bytes.take k) →
    ∃ r', action r = (.error .ended, r')

variable {R : ρ → List UInt8 → Prop}

omit [ByteReader ρ] in
/-- Nothing takes no bytes. -/
theorem loads_nil (a : α) : Loads R (fun r => (.ok a, r)) [] a where
  whole := fun {r _} h => ⟨r, rfl, h⟩
  cut := fun h => absurd h (Nat.not_lt_zero _)

/-- A field is loaded. -/
theorem loads_field (d : Delivery R) {width n : Nat} (hn : n < fieldRange width) :
    Loads R (fun r => readField r width) (bigEndian width n) n where
  whole := d.readField_bigEndian hn
  cut := by
    intro r k hk h
    rw [length_bigEndian] at hk
    obtain ⟨r', hr, -⟩ := d.readField_short h width (by rw [List.length_take]; omega)
    exact ⟨r', hr⟩

omit [ByteReader ρ] in
/-- Of what follows, something is missing, unless what the action takes is cut short already. -/
theorem Loads.whole_or_cut {action : ρ → Except Shortfall α × ρ} {bytes rest : List UInt8} {a : α}
    (h : Loads R action bytes a) {r : ρ} {k : Nat} (hk : k < (bytes ++ rest).length)
    (hr : R r ((bytes ++ rest).take k)) :
    (∃ r', action r = (.error .ended, r')) ∨
      ∃ r' k', action r = (.ok a, r') ∧ k' < rest.length ∧ R r' (rest.take k') := by
  rw [List.length_append] at hk
  by_cases hlt : k < bytes.length
  · rw [List.take_append_of_le_length (Nat.le_of_lt hlt)] at hr
    exact .inl (h.cut hlt hr)
  · rw [List.take_append, List.take_of_length_le (Nat.le_of_not_lt hlt)] at hr
    obtain ⟨r', h', hr⟩ := h.whole hr
    exact .inr ⟨r', k - bytes.length, h', by omega, hr⟩

omit [ByteReader ρ] in
/-- **What is stored one behind the other is loaded so**. -/
theorem Loads.sequel {first : ρ → Except Shortfall α × ρ}
    {second : α → ρ → Except Shortfall β × ρ} {bytes bytes' : List UInt8} {a : α} {b : β}
    (h : Loads R first bytes a) (h' : Loads R (second a) bytes' b) :
    Loads R (ByteReader.sequel first second) (bytes ++ bytes') b where
  whole := by
    intro r rest hr
    rw [List.append_assoc] at hr
    obtain ⟨r₁, h₁, hr⟩ := h.whole hr
    obtain ⟨r₂, h₂, hr⟩ := h'.whole hr
    exact ⟨r₂, by rw [ByteReader.sequel, h₁]; exact h₂, hr⟩
  cut := by
    intro r k hk hr
    rcases h.whole_or_cut hk hr with ⟨r₁, h₁⟩ | ⟨r₁, k₁, h₁, hk₁, hr⟩
    · exact ⟨r₁, by rw [ByteReader.sequel, h₁]⟩
    · obtain ⟨r₂, h₂⟩ := h'.cut hk₁ hr
      exact ⟨r₂, by rw [ByteReader.sequel, h₁]; exact h₂⟩

/-- What the action answers is so related to the bytes that it takes. -/
structure Takes (R : ρ → List UInt8 → Prop) (action : ρ → Except Shortfall α × ρ)
    (P : List UInt8 → α → Prop) : Prop where
  taken : ∀ {r r' : ρ} {bytes : List UInt8} {a : α}, R r bytes → action r = (.ok a, r') →
    ∃ front rest, bytes = front ++ rest ∧ P front a ∧ R r' rest

omit [ByteReader ρ] in
theorem Takes.imp {action : ρ → Except Shortfall α × ρ} {P Q : List UInt8 → α → Prop}
    (h : Takes R action P) (hpq : ∀ front a, P front a → Q front a) : Takes R action Q := by
  constructor
  intro r r' bytes a hr ha
  obtain ⟨front, rest, hbytes, hp, hrest⟩ := h.taken hr ha
  exact ⟨front, rest, hbytes, hpq front a hp, hrest⟩

omit [ByteReader ρ] in
/-- Nothing takes no bytes. -/
theorem takes_nil (a : α) : Takes R (fun r => (.ok a, r)) fun front a' => front = [] ∧ a' = a := by
  constructor
  intro r r' bytes a' h hr
  obtain ⟨⟨⟩, rfl⟩ := Prod.mk.inj hr
  exact ⟨[], bytes, rfl, ⟨rfl, rfl⟩, h⟩

/-- A field takes the bytes that the number is stored as. -/
theorem takes_field (d : Delivery R) (width : Nat) :
    Takes R (fun r => readField r width) fun front n =>
      n < fieldRange width ∧ front = bigEndian width n := by
  constructor
  intro r r' bytes n h hr
  by_cases hlt : bytes.length < width
  · obtain ⟨r₁, hshort, -⟩ := d.readField_short h width hlt
    cases hshort.symm.trans hr
  · obtain ⟨r₁, hread, hrest⟩ := d.readField h width (Nat.le_of_not_lt hlt)
    obtain ⟨⟨⟩, rfl⟩ := Prod.mk.inj (hread.symm.trans hr)
    have hlength : (bytes.take width).length = width :=
      List.length_take_of_le (Nat.le_of_not_lt hlt)
    have hfield := bigEndian_ofBigEndian (bytes.take width)
    have hrange := ofBigEndian_lt (bytes.take width)
    rw [hlength] at hfield hrange
    exact ⟨_, _, (List.take_append_drop width bytes).symm, ⟨hrange, hfield.symm⟩, hrest⟩

omit [ByteReader ρ] in
/-- **What is loaded one behind the other was there so**. -/
theorem Takes.sequel {first : ρ → Except Shortfall α × ρ}
    {second : α → ρ → Except Shortfall β × ρ} {P : List UInt8 → α → Prop}
    {Q : α → List UInt8 → β → Prop} (h : Takes R first P) (h' : ∀ a, Takes R (second a) (Q a)) :
    Takes R (ByteReader.sequel first second) fun bytes b =>
      ∃ front back a, bytes = front ++ back ∧ P front a ∧ Q a back b := by
  constructor
  intro r r' bytes b hr hb
  rw [ByteReader.sequel] at hb
  split at hb
  · cases (Prod.mk.inj hb).1
  · rename_i a r₁ ha
    obtain ⟨front, rest, rfl, hp, hrest⟩ := h.taken hr ha
    obtain ⟨back, rest', rfl, hq, hrest'⟩ := (h' a).taken hrest hb
    exact ⟨front ++ back, rest', (List.append_assoc _ _ _).symm,
      ⟨front, back, a, rfl, hp, hq⟩, hrest'⟩

end ByteReader

end BinaryDelta
