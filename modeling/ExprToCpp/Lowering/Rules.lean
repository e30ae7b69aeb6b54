import ExprToCpp.Cpp.Literal
import ExprToCpp.Emission
import ExprToCpp.Ownership
import ExprToCpp.Typing

/-!
# Lowering, node by node

What each kind of expression becomes in C++, given what its parts become. No rule looks into the C++ trees of the parts, and
the order of the steps is the order in which needs and refusals count.
-/

namespace ExprToCpp

/-- A part of an expression and what it becomes. -/
structure Operand where
  expr : Expr
  cpp : Emission Cpp.Expr

namespace Context

/-- The type of an expression, refused if it is not known. -/
def typeOf (Γ : Context) (e : Expr) : Emission ValueType :=
  match Γ.types.typeOf e with
  | some t => pure t
  | none => Emission.refuse (.untyped e.describe)

/-- A call of a function on two operands, from left to right. -/
def callOnBoth (f : Cpp.Expr) (left right : Operand) : Emission Cpp.Expr := do
  let l ← left.cpp
  let r ← right.cpp
  return .call f [l, r]

/-- A float, from the library where it has no digits. -/
def float (x : Binary64) : Emission Cpp.Expr := do
  unless x.isFinite do Emission.need .limits
  return .ofBinary64 x

/-- An array literal: its type, its items, its construction, and last its need. -/
def array (Γ : Context) (literal : Expr) (items : List Operand) : Emission Cpp.Expr := do
  match ← Γ.typeOf literal with
  | .array element =>
    let cpp ← Emission.sequence (items.map (·.cpp))
    let made ← Emission.ofExcept (Γ.config.ownership.makeArray (.vector (Γ.config.ownership.cppType element)) cpp)
    Emission.need .vector
    return made
  | found => Emission.refuse (.unfitOperand .arrayLiteral found)

/-- A subscript: checked in an array, plain in bytes. -/
def subscript (Γ : Context) (value index : Operand) : Emission Cpp.Expr := do
  let type ← Γ.typeOf value.expr
  let v ← value.cpp
  let i ← index.cpp
  match type with
  | .array _ => return .call (.arrow v "at") [i]
  | .bytes => return .index v i
  | found => Emission.refuse (.unfitOperand .subscript found)

/-- The operator itself, between its operands. -/
def plainBinary (op : BinaryOp) (left right : Operand) : Emission Cpp.Expr := do
  let l ← left.cpp
  let r ← right.cpp
  return .binary op l r

/-- A remainder: between integers a support function, since C++ rounds its quotient toward zero; with a float a library
function; between other operands the operator. -/
def remainder (Γ : Context) (left right : Operand) : Emission Cpp.Expr := do
  let a ← Γ.typeOf left.expr
  let b ← Γ.typeOf right.expr
  match a, b with
  | .int _, .int _ => callOnBoth (Γ.config.support "mod") left right
  | .float _, _ | _, .float _ =>
    Emission.need .math
    callOnBoth (.name "std::fmod") left right
  | _, _ => plainBinary .mod left right

/-- Whether both operands are text; the right one's type is asked for only after the left one's. -/
def bothTextual (Γ : Context) (left right : Operand) : Emission Bool := do
  let a ← Γ.typeOf left.expr
  if a.isTextual then
    let b ← Γ.typeOf right.expr
    return b.isTextual
  else
    return false

/-- An ordering: between texts the sign of their comparison, between other operands the operator. -/
def ordering (Γ : Context) (op : BinaryOp) (left right : Operand) : Emission Cpp.Expr := do
  if ← Γ.bothTextual left right then
    let l ← left.cpp
    let r ← right.cpp
    return .paren (.binary op (.call (.dot l "compare") [r]) (.int 0 .plain))
  else
    plainBinary op left right

/-- A binary operator: the remainder and the orderings have rules of their own. -/
def binary (Γ : Context) (op : BinaryOp) (left right : Operand) : Emission Cpp.Expr :=
  if op = .mod then Γ.remainder left right
  else if op.isOrdering then Γ.ordering op left right
  else plainBinary op left right

/-- A prefix operator before its operand. -/
def unary (op : UnaryOp) (operand : Operand) : Emission Cpp.Expr := do
  return .unary (.operator op) (← operand.cpp)

/-- A conditional, with parentheses around each part and the whole. -/
def conditional (condition ifTrue ifFalse : Operand) : Emission Cpp.Expr := do
  let c ← condition.cpp
  let t ← ifTrue.cpp
  let f ← ifFalse.cpp
  return .paren (.conditional (.paren c) (.paren t) (.paren f))

/-- A cast: to a record as the ownership says, and else a static cast. -/
def cast (Γ : Context) (value : Operand) (target : ValueType) : Emission Cpp.Expr := do
  let v ← value.cpp
  match target with
  | .record path => return Γ.config.ownership.recast (.named (Naming.qualifiedClass path)) v
  | t => return .staticCast (Γ.config.ownership.cppType t) v

/-- The header of an enumeration that another top-level type declares. -/
def needEnum (Γ : Context) (r : EnumDecl) : Emission Unit :=
  match r.outermost? with
  | none => pure ()
  | some top =>
    if Γ.types.enclosingClass.head? = some top then pure () else Emission.need (.project (Naming.headerFile top))

/-- A label of an enumeration, whose header is needed. -/
def enumLabel (Γ : Context) (r : EnumDecl) (label : String) : Emission Cpp.Expr := do
  Γ.needEnum r
  return .name (Naming.enumConstant r label)

/-- A constant of an enumeration by its number, whose header is needed first. -/
def enumById (Γ : Context) (r : EnumDecl) (id : Operand) : Emission Cpp.Expr := do
  Γ.needEnum r
  return .staticCast (.named (Naming.enumType r)) (← id.cpp)

end Context

end ExprToCpp
