import ExprToCpp.Binary64
import ExprToCpp.Cpp.Expr
import ExprToCpp.Decimal.Shortest

/-!
# C++ literals

The expression that has a given value. C++ has no negative literals, so a negative number is a minus before its magnitude.
The least value of a signed type has no such form, its magnitude being one too large, and is written as a difference.
-/

namespace ExprToCpp.Cpp

/-- The least and greatest values of the integer types that literals have. -/
def minInt32 : Int := -2147483648
def maxInt32 : Int := 2147483647
def maxUInt32 : Int := 4294967295
def minInt64 : Int := -9223372036854775808
def maxInt64 : Int := 9223372036854775807
def maxUInt64 : Int := 18446744073709551615

/-- The type of the literal of an integer, by its value. `exceptional` is for the values that no literal with a sign has: the
two least values, and what is outside all types. -/
inductive IntClass where
  | int32 | uint32 | int64 | uint64 | exceptional
  deriving DecidableEq, Repr

namespace IntClass

def ofInt (n : Int) : IntClass :=
  if minInt32 < n ∧ n ≤ maxInt32 then .int32
  else if maxInt32 < n ∧ n ≤ maxUInt32 then .uint32
  else if (minInt64 < n ∧ n < minInt32) ∨ (maxUInt32 < n ∧ n ≤ maxInt64) then .int64
  else if maxInt64 < n ∧ n ≤ maxUInt64 then .uint64
  else .exceptional

/-- The suffix of the literals of a class. -/
def suffix? : IntClass → Option IntSuffix
  | .int32 => some .plain
  | .uint32 => some .ul
  | .int64 => some .ll
  | .uint64 => some .ull
  | .exceptional => none

end IntClass

namespace Expr

/-- An expression with a minus before it, if wanted. -/
def signed (negative : Bool) (e : Expr) : Expr := if negative then .unary (.operator .neg) e else e

/-- An integer as its magnitude, with a suffix and perhaps a minus. -/
def signedInt (n : Int) (s : IntSuffix) : Expr := signed (decide (n < 0)) (.int n.natAbs s)

/-- The value one below a negative literal of type `s`. -/
def belowLeast (n : Int) (s : IntSuffix) : Expr := .paren (.binary .sub (signedInt n s) (.int 1 .plain))

/-- An integer that no literal with a sign has; outside all types its decimal digits. -/
def exceptionalInt (n : Int) : Expr :=
  if n = minInt32 then belowLeast (n + 1) .plain
  else if n = minInt64 then belowLeast (n + 1) .ll
  else signedInt n .plain

/-- The expression with an integer value. -/
def ofInt (n : Int) : Expr :=
  match (IntClass.ofInt n).suffix? with
  | some s => signedInt n s
  | none => exceptionalInt n

/-- The expression with a floating value. Values without digits come from the library. -/
def ofBinary64 (x : Binary64) : Expr :=
  if x.isNaN then .call (.name "std::numeric_limits<double>::quiet_NaN") []
  else signed x.isNegative <|
    if x.isFinite then .float x.shortest else .call (.name "std::numeric_limits<double>::infinity") []

/-- A string object made from a literal, with the number of its bytes if wanted. -/
def stringObject (style : Escape.Style) (bytes : List UInt8) (withLength : Bool) : Expr :=
  .call (.name "std::string") (.string style bytes :: (if withLength then [.int bytes.length .plain] else []))

/-- The string object of a text. Its length is given only where the literal alone would end early. -/
def ofString (s : String) : Expr :=
  let bytes := Escape.utf8 s
  stringObject .text bytes (Escape.hasZero bytes)

/-- The string object of a byte sequence. Its length is always given. -/
def ofBytes (bytes : List UInt8) : Expr := stringObject .raw bytes true

end Expr

end ExprToCpp.Cpp
