/-!
# Decimals

A decimal is a coefficient and a power of ten. Here, its text: a `Layout` says which decimals are written positionally
and whether a whole number keeps a fraction digit; every other decimal is written with an exponent.
-/

namespace ExprToCpp

/-- The number `coefficient * 10 ^ exponent`. -/
structure Decimal where
  coefficient : Nat
  exponent : Int
  deriving DecidableEq, Repr

namespace Decimal

/-- The digits of the coefficient, most significant first; zero has the one digit `0`. -/
def digits (d : Decimal) : List Char := Nat.toDigits 10 d.coefficient

/-- The power of ten of the first digit. -/
def leadingExponent (d : Decimal) : Int := d.exponent + d.digits.length - 1

/-- The choices a number format leaves open. -/
structure Layout where
  /-- The least and the greatest leading exponent written positionally; without bounds every decimal is. -/
  positionalRange : Option (Int × Int)
  /-- Whether a whole number written positionally ends in `.0`. -/
  keepsFraction : Bool

/-- Whether a leading exponent is in the positional range. -/
def Layout.isPositional (l : Layout) (e : Int) : Bool :=
  match l.positionalRange with
  | none => true
  | some (lo, hi) => decide (lo ≤ e ∧ e ≤ hi)

/-- All digits in place: zeros fill up to the point on either side. -/
def positional (d : Decimal) (keepsFraction : Bool) : List Char :=
  if 0 ≤ d.exponent then
    d.digits ++ List.replicate d.exponent.toNat '0' ++ (if keepsFraction then ['.', '0'] else [])
  else
    let places := (-d.exponent).toNat
    if places < d.digits.length then
      d.digits.take (d.digits.length - places) ++ '.' :: d.digits.drop (d.digits.length - places)
    else
      '0' :: '.' :: (List.replicate (places - d.digits.length) '0' ++ d.digits)

/-- One digit, the others after a point if there are any, and the leading exponent after an `e`. -/
def scientific (d : Decimal) : List Char :=
  let fraction := d.digits.drop 1
  d.digits.take 1 ++ (if fraction.isEmpty then [] else '.' :: fraction) ++ 'e' :: (toString d.leadingExponent).toList

/-- The text of a decimal in a layout. -/
def text (l : Layout) (d : Decimal) : String :=
  String.ofList (if l.isPositional d.leadingExponent then d.positional l.keepsFraction else d.scientific)

end Decimal

end ExprToCpp
