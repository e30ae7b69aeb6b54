import ExprToCpp.Rendering.Renderer

/-!
# Rendering, node by node

How each kind of expression is written, given how its parts are. A part is written where its text is needed, and as often; headers are
entered where the source of a node's text calls for them, some before the parts are written and some after.
-/

namespace ExprToCpp

namespace Ownership

/-- The text of a new vector with the items given. There is none for shared pointers. -/
def arrayText (o : Ownership) (vector : Cpp.Ty) (items : String) : Except Refusal String :=
  match o with
  | .raw => .ok ("new " ++ vector.render ++ "\x7b" ++ items ++ "\x7d")
  | .uniqueAndRaw =>
    .ok ((Cpp.Ty.unique vector).render ++ "(" ++ ("new " ++ vector.render ++ "\x7b" ++ items ++ "\x7d") ++ ")")
  | .shared => .error (.arrayNotConstructible o)

/-- The text of a cast of a handle to a handle of another class. -/
def recastText (o : Ownership) (target : Cpp.Ty) (value : String) : String :=
  match o with
  | .raw | .uniqueAndRaw => "static_cast<" ++ (o.handle target).render ++ ">(" ++ value ++ ")"
  | .shared => "std::static_pointer_cast<" ++ target.render ++ ">(" ++ value ++ ")"

end Ownership

namespace Rendering

open Renderer

/-- A call of a function on two operands, from left to right. -/
def callOnBoth (function : String) (left right : Part) : Renderer Fragment := do
  let l ← left.operand BindingLevel.conditional.rank
  let r ← right.operand BindingLevel.conditional.rank
  return ⟨function ++ "(" ++ l ++ ", " ++ r ++ ")", .access⟩

/-- A float; those without digits come from the library. -/
def float (x : Binary64) : Renderer Fragment := do
  unless x.isFinite do require .limits
  return .ofCpp (.ofBinary64 x)

/-- An array literal: its type, its items, its construction, and last its header. -/
def array (literal : Expr) (items : List Part) : Renderer Fragment := do
  match ← typeOf literal with
  | .array element =>
    let o := (← context).config.ownership
    let texts ← Part.arguments items
    let text ← ofExcept (o.arrayText (.vector (o.cppType element)) (String.intercalate ", " texts))
    require .vector
    return ⟨text, .unary⟩
  | found => refuse (.unfitOperand .arrayLiteral found)

/-- A member of a record that is held by a pointer, written as the name alone would be. -/
def member (value : Part) (name : String) : Renderer Fragment := do
  let v ← value.operand BindingLevel.access.rank
  return ⟨v ++ "->" ++ (Naming.reference name).render, .access⟩

/-- A subscript: the operands are written before the type decides on its form. -/
def subscript (value index : Part) : Renderer Fragment := do
  let type ← typeOf value.expr
  let v ← value.operand BindingLevel.access.rank
  let i ← index.operand BindingLevel.conditional.rank
  match type with
  | .array _ => return ⟨v ++ "->at(" ++ i ++ ")", .access⟩
  | .bytes => return ⟨v ++ "[" ++ i ++ "]", .access⟩
  | found => refuse (.unfitOperand .subscript found)

/-- The operator itself; a right operand has to bind tighter than the operator. -/
def plainBinary (op : BinaryOp) (left right : Part) : Renderer Fragment := do
  let l ← left.operand op.level.rank
  let r ← right.operand (op.level.rank + 1)
  return ⟨l ++ " " ++ op.symbol ++ " " ++ r, op.level⟩

/-- A remainder, by a support function, by the library, whose header comes before the operands, or by the operator. -/
def remainder (left right : Part) : Renderer Fragment := do
  let a ← typeOf left.expr
  let b ← typeOf right.expr
  match a, b with
  | .int _, .int _ => callOnBoth ((← context).config.support "mod").render left right
  | .float _, _ | _, .float _ =>
    require .math
    callOnBoth "std::fmod" left right
  | _, _ => plainBinary .mod left right

/-- Whether both operands are text; the right one's type is asked for only after the left one's. -/
def bothTextual (left right : Part) : Renderer Bool := do
  let a ← typeOf left.expr
  if a.isTextual then
    let b ← typeOf right.expr
    return b.isTextual
  else
    return false

/-- An ordering: between texts the sign of their comparison, between other operands the operator. -/
def ordering (op : BinaryOp) (left right : Part) : Renderer Fragment := do
  if ← bothTextual left right then
    let l ← left.operand BindingLevel.access.rank
    let r ← right.operand BindingLevel.conditional.rank
    return ⟨"(" ++ l ++ ".compare(" ++ r ++ ") " ++ op.symbol ++ " 0)", .primary⟩
  else
    plainBinary op left right

/-- A binary operator: the remainder and the orderings have rules of their own. -/
def binary (op : BinaryOp) (left right : Part) : Renderer Fragment :=
  if op = .mod then remainder left right
  else if op.isOrdering then ordering op left right
  else plainBinary op left right

/-- A prefix operator before its operand. -/
def unary (op : UnaryOp) (operand : Part) : Renderer Fragment := do
  let t ← operand.operand BindingLevel.unary.rank
  return ⟨Cpp.Expr.unaryText (.operator op) t, .unary⟩

/-- A conditional, with parentheses around each part and the whole. -/
def conditional (condition ifTrue ifFalse : Part) : Renderer Fragment := do
  let c ← condition.fragment
  let t ← ifTrue.fragment
  let f ← ifFalse.fragment
  return ⟨"((" ++ c.text ++ ") ? (" ++ t.text ++ ") : (" ++ f.text ++ "))", .primary⟩

/-- A cast: to a record as the ownership says, and else a static cast. -/
def cast (value : Part) (target : ValueType) : Renderer Fragment := do
  let v ← value.operand BindingLevel.conditional.rank
  let o := (← context).config.ownership
  match target with
  | .record path => return ⟨o.recastText (.named (Naming.qualifiedClass path)) v, .access⟩
  | t => return ⟨"static_cast<" ++ (o.cppType t).render ++ ">(" ++ v ++ ")", .access⟩

/-- Enters the header of an enumeration that another top-level type declares. -/
def requireEnum (d : EnumDecl) : Renderer Unit := do
  let enclosing := (← context).types.enclosingClass
  match d.outermost? with
  | none => pure ()
  | some top => if enclosing.head? = some top then pure () else require (.project (Naming.headerFile top))

/-- A label of an enumeration, whose header is registered. -/
def enumLabel (d : EnumDecl) (label : String) : Renderer Fragment := do
  requireEnum d
  return ⟨Naming.enumConstant d label, .primary⟩

/-- A constant by its number; the header comes before the number is written. -/
def enumById (d : EnumDecl) (id : Part) : Renderer Fragment := do
  requireEnum d
  let v ← id.operand BindingLevel.conditional.rank
  return ⟨"static_cast<" ++ Naming.enumType d ++ ">(" ++ v ++ ")", .access⟩

end Rendering

end ExprToCpp
