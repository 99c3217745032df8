/-!
# The value of a double

A double is split into sign, mantissa and a power of two, so that its decimal texts can be computed
in exact arithmetic on naturals.

* `Binary64.ofFloat` reads the parts off the bits: a finite double is `± mantissa * 2 ^ exponent`.
* `Binary64.fraction` is the magnitude of a finite double as a quotient of naturals.
-/

namespace BinaryDelta

/-- The parts of a double. -/
inductive Binary64 where
  | nan
  | infinite (negative : Bool)
  /-- The number `± mantissa * 2 ^ exponent`. -/
  | finite (negative : Bool) (mantissa : Nat) (exponent : Int)
  deriving Repr, DecidableEq

namespace Binary64

/-- The leading bit of a mantissa, which is not stored; the fifty-two bits below it are. -/
def hiddenBit : Nat := 0x10000000000000

/-- The exponent of the smallest doubles. -/
def minExponent : Int := -1074

/-- Reads the parts off the bits of `x`. -/
def ofFloat (x : Float) : Binary64 :=
  let bits := x.toBits.toNat
  let negative := bits / 0x8000000000000000 == 1
  let biased : Nat := bits / hiddenBit % 2048
  let stored : Nat := bits % hiddenBit
  if biased = 2047 then
    if stored = 0 then .infinite negative else .nan
  else if biased = 0 then
    .finite negative stored minExponent
  else
    .finite negative (hiddenBit + stored) (minExponent + (biased : Int) - 1)

/-- The number `mantissa * 2 ^ exponent` as a quotient `(numerator, denominator)`. -/
def fraction (mantissa : Nat) (exponent : Int) : Nat × Nat :=
  (mantissa * Nat.pow 2 exponent.toNat, Nat.pow 2 (-exponent).toNat)

end Binary64

end BinaryDelta
