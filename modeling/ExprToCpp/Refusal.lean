import ExprToCpp.Config
import ExprToCpp.Method
import ExprToCpp.ValueType

/-!
# Refusals

Why an expression has no C++ text, and what is said about it. Nothing is written that only looks right: a construct that
C++ has no form for, or that does not fit its operand's type, is refused.
-/

namespace ExprToCpp

/-- The constructs that need an operand of a certain type. -/
inductive Construct where
  | subscript
  | arrayLiteral
  | method (m : Method)
  deriving DecidableEq, Repr

def Construct.text : Construct → String
  | .subscript => "subscript"
  | .arrayLiteral => "array literal"
  | .method m => "`" ++ m.name ++ "`"

/-- Why an expression has no C++ text. -/
inductive Refusal where
  /-- An integer is written in a radix other than ten. -/
  | radixNotTen (radix : String)
  /-- An array literal has no form under the ownership discipline. -/
  | arrayNotConstructible (ownership : Ownership)
  | unfitOperand (construct : Construct) (found : ValueType)
  | wrongArity (method : Method) (found : Nat)
  /-- Bytes become text in an encoding that is no string literal. -/
  | encodingNotLiteral (found : String)
  /-- Bytes become text in an encoding that is not given. -/
  | encodingMissing
  /-- A radix is given for something other than a string. -/
  | radixWithoutString (found : ValueType)
  /-- The type of a described expression is not known. -/
  | untyped (expr : String)
  deriving DecidableEq, Repr

namespace Refusal

/-- The reason that an argument does not fit a method. -/
def argumentText (m : Method) (reason : String) : String := "invalid argument to `" ++ m.name ++ "`: " ++ reason

/-- The text of a refusal. -/
def message : Refusal → String
  | .radixNotTen r => "unsupported: integer to string conversion with radix " ++ r
  | .arrayNotConstructible o => "unsupported: array literals under the " ++ o.text ++ " ownership strategy"
  | .unfitOperand c t => "cannot render " ++ c.text ++ " on an operand of type " ++ t.text
  | .wrongArity m n => "`" ++ m.name ++ "` takes " ++ m.arityText ++ " argument(s), got " ++ toString n
  | .encodingNotLiteral d => argumentText .toStr ("encoding must be a string literal, got " ++ d)
  | .encodingMissing => argumentText .toStr "decoding bytes requires an encoding name"
  | .radixWithoutString t => argumentText .toInt ("a radix only applies to strings, not " ++ t.text)
  | .untyped d => "no static type known for " ++ d

/-- A short stable name of the cause. -/
def code : Refusal → String
  | .radixNotTen _ => "unsupported_radix"
  | .arrayNotConstructible _ => "unsupported_array_literal"
  | .unfitOperand _ _ => "invalid_operand"
  | .wrongArity _ _ => "arity"
  | .encodingNotLiteral _ | .encodingMissing | .radixWithoutString _ => "invalid_argument"
  | .untyped _ => "unresolved_type"

/-- What to do about it, where there is something to say. -/
def help? : Refusal → Option String
  | .radixNotTen _ => some "only radix 10 is supported for `to_s` on integers"
  | .arrayNotConstructible _ =>
    some "no literal construction syntax is defined for this strategy; build the array at runtime instead"
  | .untyped _ => some "the type provider must resolve every sub-expression before emission"
  | _ => none

/-- Whether the expression is sound and only has no C++ form here; other refusals say that it is ill-typed. -/
def isLimitation : Refusal → Bool
  | .radixNotTen _ | .arrayNotConstructible _ => true
  | _ => false

end Refusal

end ExprToCpp
