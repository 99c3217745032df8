/-!
# Decimals with a fixed number of places

A quotient of naturals is written with a given number of digits after the point. It is rounded
once, from its exact value, and a tie goes to the even neighbour.
-/

namespace BinaryDelta.Decimal

/-- The natural nearest to `num / den`, the even one of two equally near ones. -/
def roundQuotient (num den : Nat) : Nat :=
  let down := num / den
  let rest := 2 * (num % den)
  if rest < den ∨ (rest = den ∧ down % 2 = 0) then down else down + 1

/-- The decimal digits of `value`, with zeros in front up to `width` digits. -/
def padded (width value : Nat) : String :=
  let digits := toString value
  "".pushn '0' (width - digits.length) ++ digits

/-- The quotient `num / den` with `places` digits after the point. -/
def fixed (places num den : Nat) : String :=
  let scaled := roundQuotient (num * Nat.pow 10 places) den
  if places = 0 then toString scaled
  else toString (scaled / Nat.pow 10 places) ++ "." ++ padded places (scaled % Nat.pow 10 places)

end BinaryDelta.Decimal
