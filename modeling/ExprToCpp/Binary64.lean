/-!
# Binary64 values

A double-precision value is its bit pattern: sign, eleven bits of exponent, fifty-two of fraction. The comparison of the
standard is `ieeeEq`: a NaN equals nothing, the two zeros are equal, and otherwise equal values have equal bits.
-/

namespace ExprToCpp

/-- A double-precision value of IEEE 754, by its bits. -/
structure Binary64 where
  bits : UInt64
  deriving DecidableEq, Repr

namespace Binary64

/-- Whether the sign bit is set; zeros and NaNs have one too. -/
def isNegative (x : Binary64) : Bool := decide (Nat.pow 2 63 ≤ x.bits.toNat)

/-- The biased exponent. -/
def exponentField (x : Binary64) : Nat := x.bits.toNat / Nat.pow 2 52 % Nat.pow 2 11

/-- The fraction bits. -/
def fraction (x : Binary64) : Nat := x.bits.toNat % Nat.pow 2 52

/-- Whether a float is no number. -/
def isNaN (x : Binary64) : Bool := x.exponentField == 2047 && x.fraction != 0

/-- Whether a float has digits. -/
def isFinite (x : Binary64) : Bool := x.exponentField != 2047

/-- Both zeros: all bits but the sign are clear. -/
def isZero (x : Binary64) : Bool := x.exponentField == 0 && x.fraction == 0

/-- The magnitude of a finite value is `significand * 2 ^ scale`. -/
def significand (x : Binary64) : Nat := if x.exponentField = 0 then x.fraction else Nat.pow 2 52 + x.fraction

def scale (x : Binary64) : Int := if x.exponentField = 0 then -1074 else x.exponentField - 1075

/-- Whether the next smaller magnitude is nearer than the next greater one: at a power of two, but not at the least normal
value, below which the spacing stays the same. -/
def isNarrowBelow (x : Binary64) : Bool := x.fraction == 0 && decide (1 < x.exponentField)

/-- Equality as the standard compares. -/
def ieeeEq (x y : Binary64) : Bool := !x.isNaN && !y.isNaN && (x == y || x.isZero && y.isZero)

/-- Equality of floats does not depend on their order. -/
theorem ieeeEq_comm (x y : Binary64) : x.ieeeEq y = y.ieeeEq x := by
  cases hx : x.isNaN <;> cases hy : y.isNaN <;> simp [ieeeEq, hx, hy, Bool.beq_comm (a := x), Bool.and_comm]

/-- A value equals itself unless it is a NaN. -/
theorem ieeeEq_self (x : Binary64) : x.ieeeEq x = !x.isNaN := by
  simp [ieeeEq]

end Binary64

end ExprToCpp
