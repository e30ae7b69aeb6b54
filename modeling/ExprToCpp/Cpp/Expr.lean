import ExprToCpp.Cpp.Escape
import ExprToCpp.Cpp.Ty
import ExprToCpp.Decimal.Basic
import ExprToCpp.Operator

/-!
# C++ expressions

The trees of the C++ expressions that lowering builds, and their text. The printer groups an operand in parentheses where
it binds looser than its place allows, and nowhere else; `paren` is for parentheses that are always written.
-/

namespace ExprToCpp.Cpp

/-- The suffix of an integer literal. -/
inductive IntSuffix where
  | plain | ul | ll | ull
  deriving DecidableEq, Repr

def IntSuffix.text : IntSuffix → String
  | .plain => ""
  | .ul => "UL"
  | .ll => "LL"
  | .ull => "ULL"

/-- The operators in front of an operand: those of the expression language, and the dereference. -/
inductive PrefixOp where
  | operator (op : UnaryOp)
  | deref
  deriving DecidableEq, Repr

def PrefixOp.symbol : PrefixOp → String
  | .operator op => op.symbol
  | .deref => "*"

/-- A C++ expression. Numbers are not negative: a sign is an operator. -/
inductive Expr where
  | int (value : Nat) (suffix : IntSuffix)
  | float (value : Decimal)
  | bool (value : Bool)
  | string (style : Escape.Style) (bytes : List UInt8)
  /-- A variable, a function or a constant, with its qualification. -/
  | name (text : String)
  | paren (inner : Expr)
  | call (callee : Expr) (args : List Expr)
  /-- A member of the object an expression points to. -/
  | arrow (pointer : Expr) (member : String)
  /-- A member of an object. -/
  | dot (object : Expr) (member : String)
  | index (object position : Expr)
  | staticCast (target : Ty) (value : Expr)
  /-- A cast between shared pointers, by the class the result points to. -/
  | staticPointerCast (target : Ty) (value : Expr)
  /-- A new object initialised with a list. -/
  | new (type : Ty) (items : List Expr)
  /-- A pointer that owns the new object given. -/
  | own (pointee : Ty) (value : Expr)
  | unary (op : PrefixOp) (operand : Expr)
  | binary (op : BinaryOp) (left right : Expr)
  | conditional (condition ifTrue ifFalse : Expr)

/-- Induction on C++ expressions: the hypothesis for a list holds of each of its items. -/
@[elab_as_elim, induction_eliminator]
theorem Expr.induct {motive : Expr → Prop}
    (int : ∀ n s, motive (.int n s))
    (float : ∀ d, motive (.float d))
    (bool : ∀ b, motive (.bool b))
    (string : ∀ style bs, motive (.string style bs))
    (name : ∀ n, motive (.name n))
    (paren : ∀ e, motive e → motive (.paren e))
    (call : ∀ f args, motive f → (∀ e ∈ args, motive e) → motive (.call f args))
    (arrow : ∀ e m, motive e → motive (.arrow e m))
    (dot : ∀ e m, motive e → motive (.dot e m))
    (index : ∀ e i, motive e → motive i → motive (.index e i))
    (staticCast : ∀ t e, motive e → motive (.staticCast t e))
    (staticPointerCast : ∀ t e, motive e → motive (.staticPointerCast t e))
    (new : ∀ t items, (∀ e ∈ items, motive e) → motive (.new t items))
    (own : ∀ t e, motive e → motive (.own t e))
    (unary : ∀ op e, motive e → motive (.unary op e))
    (binary : ∀ op l r, motive l → motive r → motive (.binary op l r))
    (conditional : ∀ c t f, motive c → motive t → motive f → motive (.conditional c t f))
    (e : Expr) : motive e :=
  @Expr.rec motive (fun es => ∀ e ∈ es, motive e) int float bool string name paren call arrow dot index staticCast
    staticPointerCast new own unary binary conditional nofun (fun _ _ he hes => List.forall_mem_cons.mpr ⟨he, hes⟩) e

/-- A floating literal is positional for leading exponents from -4 to 15, and always shows that it is no integer. -/
def floatLayout : Decimal.Layout := ⟨some (-4, 15), true⟩

/-- A text in parentheses, if wanted. -/
def group (wanted : Bool) (text : String) : String := if wanted then "(" ++ text ++ ")" else text

namespace Expr

/-- How tightly the outermost part of an expression binds. An owning pointer is grouped like the allocation it wraps. -/
def level : Expr → BindingLevel
  | .int _ _ | .float _ | .bool _ | .string _ _ | .name _ | .paren _ => .primary
  | .call _ _ | .arrow _ _ | .dot _ _ | .index _ _ | .staticCast _ _ | .staticPointerCast _ _ => .access
  | .new _ _ | .own _ _ | .unary _ _ => .unary
  | .binary op _ _ => op.level
  | .conditional _ _ _ => .conditional

/-- Whether an expression binds looser than a rank. -/
def looserThan (e : Expr) (rank : Nat) : Bool := decide (e.level.rank < rank)

/-- An operator in front of the text of its operand. A minus before a minus is kept apart from it, since two in a row are
another operator. -/
def unaryText (op : PrefixOp) (operand : String) : String :=
  op.symbol ++ group (op == .operator .neg && operand.toList.head? == some '-') operand

mutual

/-- The text of an expression. -/
def render : Expr → String
  | .int n s => toString n ++ s.text
  | .float d => d.text floatLayout
  | .bool b => if b then "true" else "false"
  | .string style bytes => "\"" ++ Escape.body style bytes ++ "\""
  | .name n => n
  | .paren e => "(" ++ e.render ++ ")"
  | .call f args => group (f.looserThan BindingLevel.access.rank) f.render ++ "(" ++ renderList args ++ ")"
  | .arrow e m => group (e.looserThan BindingLevel.access.rank) e.render ++ "->" ++ m
  | .dot e m => group (e.looserThan BindingLevel.access.rank) e.render ++ "." ++ m
  | .index e i => group (e.looserThan BindingLevel.access.rank) e.render ++ "[" ++ i.render ++ "]"
  | .staticCast t e => "static_cast<" ++ t.render ++ ">(" ++ e.render ++ ")"
  | .staticPointerCast t e => "std::static_pointer_cast<" ++ t.render ++ ">(" ++ e.render ++ ")"
  | .new t items => "new " ++ t.render ++ "\x7b" ++ renderList items ++ "\x7d"
  | .own t e => (Ty.unique t).render ++ "(" ++ e.render ++ ")"
  | .unary op e => unaryText op (group (e.looserThan BindingLevel.unary.rank) e.render)
  | .binary op l r =>
    group (l.looserThan op.level.rank) l.render ++ " " ++ op.symbol ++ " " ++
      group (r.looserThan (op.level.rank + 1)) r.render
  | .conditional c t f => c.render ++ " ? " ++ t.render ++ " : " ++ f.render

/-- The texts of a list of expressions, with commas between them. -/
def renderList : List Expr → String
  | [] => ""
  | [e] => e.render
  | e :: es => e.render ++ ", " ++ renderList es

end

end Expr

end ExprToCpp.Cpp
