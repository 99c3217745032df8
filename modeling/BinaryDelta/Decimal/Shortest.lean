import BinaryDelta.Decimal.Binary64

/-!
# The shortest decimal of a double

Among the decimals that read back as a given double, `Float.shortest` writes one with the fewest
digits, and of those the nearest to the double, the greater one if two are equally near. It never
writes an exponent: zeros fill the places between the digits and the point.

The search is in exact arithmetic. The reals that read back as `mantissa * 2 ^ exponent` form an
interval whose ends are halfway to the neighbouring doubles; in quarters of the last binary place
the double is at `4 * mantissa`. For one digit, two digits and so on, only the two neighbours of the
double on that decimal grid have to be tried.
-/

namespace BinaryDelta.Decimal

/-- Digits and a decimal exponent: the number `digits * 10 ^ exponent`. -/
structure Scientific where
  digits : Nat
  exponent : Int
  deriving Repr, DecidableEq

/-- Compares `a * 10 ^ e` with `b * 2 ^ q`. -/
def compareScaled (a : Nat) (e : Int) (b : Nat) (q : Int) : Ordering :=
  compare (a * Nat.pow 10 e.toNat * Nat.pow 2 (-q).toNat)
    (b * Nat.pow 2 q.toNat * Nat.pow 10 (-e).toNat)

/-- The interval of a double in units of `2 ^ unit`: the double itself, its ends, and whether the
ends belong to it. -/
structure RoundingInterval where
  center : Nat
  low : Nat
  high : Nat
  unit : Int
  closed : Bool

/-- The reals that read back as `mantissa * 2 ^ exponent`. Below a power of two the doubles are
twice as dense. -/
def RoundingInterval.ofBinary (mantissa : Nat) (exponent : Int) : RoundingInterval where
  center := 4 * mantissa
  low := if mantissa = Binary64.hiddenBit ∧ Binary64.minExponent < exponent
    then 4 * mantissa - 1 else 4 * mantissa - 2
  high := 4 * mantissa + 2
  unit := exponent - 2
  closed := mantissa % 2 == 0

/-- Does `digits * 10 ^ e` lie in the interval? -/
def RoundingInterval.holds (i : RoundingInterval) (digits : Nat) (e : Int) : Bool :=
  match compareScaled digits e i.low i.unit, compareScaled digits e i.high i.unit with
  | .gt, .lt => true
  | .eq, _ => i.closed
  | _, .eq => i.closed
  | _, _ => false

/-- The nearest point of the grid `10 ^ e` that lies in the interval, the greater one on a tie. -/
def RoundingInterval.onGrid (i : RoundingInterval) (e : Int) : Option Nat :=
  let down := (i.center * Nat.pow 2 i.unit.toNat * Nat.pow 10 (-e).toNat) /
    (Nat.pow 10 e.toNat * Nat.pow 2 (-i.unit).toNat)
  match i.holds down e, i.holds (down + 1) e with
  | true, true =>
    -- twice the center against the sum of the two neighbours
    match compareScaled (2 * down + 1) e (2 * i.center) i.unit with
    | .gt => some down
    | _ => some (down + 1)
  | true, false => some down
  | false, true => some (down + 1)
  | false, false => none

/-- The decimal exponent of the leading digit, give or take one: a number of `n` binary places has
about `n * log 2` decimal ones. -/
def leadingExponent (i : RoundingInterval) : Int :=
  ((Nat.log2 i.center : Int) + i.unit) * 30103 / 100000 + 1

/-- Tries the grids from `e` downwards and takes the first one with a hit. -/
def RoundingInterval.search (i : RoundingInterval) : Nat → Int → Scientific
  | 0, e => ⟨i.center * Nat.pow 2 i.unit.toNat / Nat.pow 10 e.toNat, e⟩
  | fuel + 1, e =>
    match i.onGrid e with
    | some digits => if digits = 0 then i.search fuel (e - 1) else ⟨digits, e⟩
    | none => i.search fuel (e - 1)

/-- The shortest decimal of `mantissa * 2 ^ exponent`, nearest of those. Twenty grids reach from
above the leading digit to the seventeenth one, which always has a hit. -/
def shortestOf (mantissa : Nat) (exponent : Int) : Scientific :=
  let i := RoundingInterval.ofBinary mantissa exponent
  i.search 21 (leadingExponent i + 1)

/-- Writes `digits * 10 ^ exponent` without an exponent. -/
def Scientific.positional (s : Scientific) : String :=
  let digits := toString s.digits
  if 0 ≤ s.exponent then digits.pushn '0' s.exponent.toNat
  else
    let places := (-s.exponent).toNat
    let all := "".pushn '0' (places + 1 - digits.length) ++ digits
    (all.take (all.length - places)).toString ++ "." ++ (all.drop (all.length - places)).toString

/-- The shortest decimal that reads back as `x`. -/
def shortest (x : Float) : String :=
  match Binary64.ofFloat x with
  | .nan => "NaN"
  | .infinite negative => if negative then "-inf" else "inf"
  | .finite negative mantissa exponent =>
    let magnitude := if mantissa = 0 then "0" else (shortestOf mantissa exponent).positional
    if negative then "-" ++ magnitude else magnitude

end BinaryDelta.Decimal
