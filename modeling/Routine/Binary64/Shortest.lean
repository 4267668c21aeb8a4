import Routine.Binary64

/-! # The shortest decimal that reads back

A decimal reads back as a number if it lies in the interval of values that round to the number: half
way to either neighbour, the ends included if the significand is even. The shortest such decimal is
a multiple of the greatest power of ten that has a multiple there; of two multiples the nearer is
taken, and the greater if both are equally near.

All quantities are whole numbers of a unit small enough to hold both the quarter of the least
positive value and the least power of ten that is ever needed. -/

namespace Routine.Binary64

/-- The values that round to one number, in units of `2 ^ -1076 * 10 ^ -324`. -/
structure Interval where
  low : Nat
  middle : Nat
  high : Nat
  /-- The ends round to the number as well. -/
  closed : Bool

/-- The values that round to the magnitude of a finite number. Just above a power of two the lower
neighbour is half as far away as the upper one. -/
def interval (x : Binary64) : Interval :=
  let unit := Nat.pow 2 x.scale * Nat.pow 10 324
  let m := 4 * x.significand
  let below := if x.fraction = 0 ∧ 1 < x.exponent then 1 else 2
  ⟨(m - below) * unit, m * unit, (m + 2) * unit, x.significand % 2 = 0⟩

namespace Interval

/-- The value belongs to the interval. -/
def contains (i : Interval) (v : Nat) : Bool :=
  if i.closed then i.low ≤ v && v ≤ i.high else i.low < v && v < i.high

/-- The factor of the multiple of `step` in the interval that is nearest to its middle, the greater
one of two that are equally near. -/
def nearestFactor? (i : Interval) (step : Nat) : Option Nat :=
  let q := i.middle / step
  let r := i.middle % step
  match i.contains (q * step), i.contains ((q + 1) * step) with
  | true, true => some (if 2 * r < step then q else q + 1)
  | true, false => some q
  | false, true => some (q + 1)
  | false, false => none

/-- The power of ten `10 ^ (k - 324)` in the units of the interval. -/
def grid (k : Nat) : Nat :=
  Nat.pow 10 k * Nat.pow 2 1076

/-- The factor and the power for the greatest power of ten, `10 ^ (k - 324)` or less, that has a
multiple in the interval. -/
def shortestUpTo (i : Interval) : Nat → Nat × Nat
  | 0 => ((i.nearestFactor? (grid 0)).getD 0, 0)
  | k + 1 =>
    match i.nearestFactor? (grid (k + 1)) with
    | some d => (d, k + 1)
    | none => i.shortestUpTo k

/-- A power of ten that is greater than the whole interval. Ten to the `30103`th is greater than two
to the `100000`th, so a value of `n` bits is below ten to the power of `n * 30103 / 100000 + 1`. -/
def ceiling (i : Interval) : Nat :=
  (i.high.log2 + 1 - 1076) * 30103 / 100000 + 1

end Interval

/-- A decimal: its digits without trailing zeros, and the power of ten of the first digit. -/
structure Decimal where
  digits : List Char
  exponent : Int

/-- The shortest decimal that reads back as the magnitude of a finite number other than zero. -/
def shortest (x : Binary64) : Decimal :=
  let i := x.interval
  let (d, k) := i.shortestUpTo i.ceiling
  let digits := Nat.toDigits 10 d
  ⟨digits, (k : Int) - 324 + (digits.length - 1 : Nat)⟩

end Routine.Binary64
