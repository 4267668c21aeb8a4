import Routine.Binary64.Shortest

/-! # How a number is written

Numbers are written with the fewest digits that read back. From `10 ^ -4` up to, not including,
`10 ^ 16` they are written in place value with at least one digit on either side of the point, and
otherwise as digits times a power of ten. Zero keeps its sign. -/

namespace Routine.Binary64

namespace Decimal

/-- The digits behind the first in place: a point, then the digits, if there are any. -/
def pointed (head : List Char) (tail : List Char) : List Char :=
  if tail = [] then head else head ++ '.' :: tail

/-- In place value, for a decimal whose first digit stands left of the point. -/
def positionalLarge (digits : List Char) (exponent : Nat) : List Char :=
  let whole := digits.take (exponent + 1)
  let frac := digits.drop (exponent + 1)
  whole ++ List.replicate (exponent + 1 - digits.length) '0' ++ '.' ::
    (if frac = [] then ['0'] else frac)

/-- In place value, for a decimal whose first digit stands right of the point. -/
def positionalSmall (digits : List Char) (zeros : Nat) : List Char :=
  '0' :: '.' :: (List.replicate zeros '0' ++ digits)

/-- As digits times a power of ten. -/
def scientific (digits : List Char) (exponent : Int) : List Char :=
  let power :=
    match exponent with
    | .ofNat e => Nat.toDigits 10 e
    | .negSucc e => '-' :: Nat.toDigits 10 (e + 1)
  pointed (digits.take 1) (digits.drop 1) ++ 'e' :: power

/-- Place value is kept for first digits from the fourth place behind the point to the sixteenth
before it. -/
def chars (d : Decimal) : List Char :=
  match d.exponent with
  | .ofNat e => if e < 16 then positionalLarge d.digits e else scientific d.digits e
  | .negSucc e => if e < 4 then positionalSmall d.digits e else scientific d.digits (.negSucc e)

end Decimal

/-- The text of the magnitude of a number that is finite or infinite. -/
def magnitudeText (x : Binary64) : String :=
  if !x.isFinite then "inf"
  else if x.significand = 0 then "0.0"
  else String.ofList x.shortest.chars

/-- The text of a number. -/
def text (x : Binary64) : String :=
  if x.isNaN then "NaN"
  else if x.isNegative then "-" ++ x.magnitudeText
  else x.magnitudeText

end Routine.Binary64
