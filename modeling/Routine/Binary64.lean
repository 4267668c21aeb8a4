/-! # Floating-point numbers of 64 bits

A number is its word: a sign bit, eleven bits of exponent and fifty-two bits of fraction. Its
magnitude is a whole number of units of `2 ^ -1074`, the least positive value, so finite values are
exact in `Nat`. Infinities and the words that stand for no number have all exponent bits set. -/

namespace Routine

/-- A floating-point number, as its word. -/
structure Binary64 where
  bits : UInt64
deriving DecidableEq, Repr, Inhabited

namespace Binary64

/-- The sign bit is set. -/
def isNegative (x : Binary64) : Bool :=
  Nat.pow 2 63 ≤ x.bits.toNat

/-- The eleven bits of the exponent. -/
def exponent (x : Binary64) : Nat :=
  x.bits.toNat / Nat.pow 2 52 % Nat.pow 2 11

/-- The fifty-two bits behind the leading one. -/
def fraction (x : Binary64) : Nat :=
  x.bits.toNat % Nat.pow 2 52

/-- The greatest exponent is kept for infinities and for the words that stand for no number. -/
def isFinite (x : Binary64) : Bool :=
  x.exponent < 2047

/-- The word stands for no number. -/
def isNaN (x : Binary64) : Bool :=
  !x.isFinite && x.fraction != 0

/-- The significand: the fraction with its leading one, which the least exponent does not have. -/
def significand (x : Binary64) : Nat :=
  if x.exponent = 0 then x.fraction else Nat.pow 2 52 + x.fraction

/-- The magnitude is the significand times `2 ^ scale` units of `2 ^ -1074`. -/
def scale (x : Binary64) : Nat :=
  x.exponent - 1

end Binary64

end Routine
