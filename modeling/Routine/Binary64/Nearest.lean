import Routine.Binary64

/-! # The number nearest to a ratio

A ratio of whole numbers is rounded to the nearest floating-point number, a tie to the even
significand. Rounding is done once and exactly, in units of `2 ^ -1074`. -/

namespace Routine.Binary64

/-- The whole number nearest to `num / den`; a tie goes to the even one. -/
def roundToEven (num den : Nat) : Nat :=
  let q := num / den
  let r := num % den
  if den < 2 * r ∨ (den = 2 * r ∧ q % 2 = 1) then q + 1 else q

/-- The word of positive infinity. -/
def infinityBits : Nat := 2047 * Nat.pow 2 52

/-- The number nearest to `num / den`. The significand has at most 53 bits, so a ratio of more bits
in units of `2 ^ -1074` is first scaled down by a power of two. A significand that rounds up to
`2 ^ 53` carries into the exponent, and an exponent past the greatest means infinity. -/
def ofRatio (num den : Nat) : Binary64 :=
  let units := num * Nat.pow 2 1074
  let shift := (units / den).log2 - 52
  let word := shift * Nat.pow 2 52 + roundToEven units (den * Nat.pow 2 shift)
  ⟨UInt64.ofNat (min infinityBits word)⟩

/-- The number nearest to the decimal whose digits are `whole`, a point and `frac`. -/
def ofDecimal (whole frac : List Char) : Binary64 :=
  ofRatio (Nat.ofDigitChars 10 (whole ++ frac) 0) (Nat.pow 10 frac.length)

end Routine.Binary64
