import ExprToCpp.Binary64
import ExprToCpp.Decimal.Shortest
import ExprToCpp.Method
import ExprToCpp.Operator
import ExprToCpp.ValueType

/-!
# Expressions

The expressions of a binary-format description, their equality, and the short descriptions messages use. Equality is
structural, and at floats that of IEEE 754: an expression that holds a NaN differs from itself.
-/

namespace ExprToCpp

/-- An expression. Its nodes carry no types: these come from a `Typing`. -/
inductive Expr where
  | int (value : Int)
  | float (value : Binary64)
  | bool (value : Bool)
  | str (value : String)
  | bytes (value : List UInt8)
  | array (items : List Expr)
  /-- A field of the current record, or a name a repetition binds. -/
  | name (id : String)
  | member (value : Expr) (attr : String)
  | subscript (value index : Expr)
  | binary (op : BinaryOp) (left right : Expr)
  | unary (op : UnaryOp) (operand : Expr)
  | conditional (condition ifTrue ifFalse : Expr)
  | cast (value : Expr) (target : ValueType)
  | enumLabel (ref : EnumDecl) (label : String)
  | enumById (ref : EnumDecl) (id : Expr)
  | method (receiver : Expr) (method : Method) (args : List Expr)

namespace Expr

/-- Induction on expressions: the hypothesis for a list holds of each of its items. -/
@[elab_as_elim, induction_eliminator]
theorem induct {motive : Expr → Prop}
    (int : ∀ n, motive (.int n))
    (float : ∀ x, motive (.float x))
    (bool : ∀ b, motive (.bool b))
    (str : ∀ s, motive (.str s))
    (bytes : ∀ bs, motive (.bytes bs))
    (array : ∀ items, (∀ e ∈ items, motive e) → motive (.array items))
    (name : ∀ n, motive (.name n))
    (member : ∀ v a, motive v → motive (.member v a))
    (subscript : ∀ v i, motive v → motive i → motive (.subscript v i))
    (binary : ∀ op l r, motive l → motive r → motive (.binary op l r))
    (unary : ∀ op e, motive e → motive (.unary op e))
    (conditional : ∀ c t f, motive c → motive t → motive f → motive (.conditional c t f))
    (cast : ∀ v t, motive v → motive (.cast v t))
    (enumLabel : ∀ r l, motive (.enumLabel r l))
    (enumById : ∀ r e, motive e → motive (.enumById r e))
    (method : ∀ r m args, motive r → (∀ e ∈ args, motive e) → motive (.method r m args))
    (e : Expr) : motive e :=
  @Expr.rec motive (fun es => ∀ e ∈ es, motive e) int float bool str bytes array name member subscript binary unary
    conditional cast enumLabel enumById method nofun (fun _ _ he hes => List.forall_mem_cons.mpr ⟨he, hes⟩) e

mutual

/-- Equality of expressions. -/
def beq : Expr → Expr → Bool
  | .int a, .int b => a == b
  | .float a, .float b => a.ieeeEq b
  | .bool a, .bool b => a == b
  | .str a, .str b => a == b
  | .bytes a, .bytes b => a == b
  | .array xs, .array ys => beqAll xs ys
  | .name a, .name b => a == b
  | .member v a, .member w b => beq v w && a == b
  | .subscript v i, .subscript w j => beq v w && beq i j
  | .binary o l r, .binary p l' r' => o == p && beq l l' && beq r r'
  | .unary o e, .unary p f => o == p && beq e f
  | .conditional c t f, .conditional c' t' f' => beq c c' && beq t t' && beq f f'
  | .cast v t, .cast w u => beq v w && t == u
  | .enumLabel r a, .enumLabel s b => r == s && a == b
  | .enumById r e, .enumById s f => r == s && beq e f
  | .method e m xs, .method f n ys => beq e f && m == n && beqAll xs ys
  | _, _ => false

/-- Equality of lists of expressions, item by item. -/
def beqAll : List Expr → List Expr → Bool
  | [], [] => true
  | x :: xs, y :: ys => beq x y && beqAll xs ys
  | _, _ => false

end

instance : BEq Expr := ⟨beq⟩

/-- Numbers in descriptions: every digit in place, and no point after a whole number. -/
def descriptionLayout : Decimal.Layout := ⟨none, false⟩

/-- A float in a description: values without digits are named, and a NaN shows no sign. -/
def floatText (x : Binary64) : String :=
  if x.isNaN then "NaN"
  else (if x.isNegative then "-" else "") ++ (if x.isFinite then x.shortest.text descriptionLayout else "inf")

/-- What kind of expression this is, with the name or literal at its root. -/
def describe : Expr → String
  | .int n => "integer literal " ++ toString n
  | .float x => "float literal " ++ floatText x
  | .bool b => "boolean literal " ++ (if b then "true" else "false")
  | .str _ => "string literal"
  | .bytes _ => "byte-sequence literal"
  | .array _ => "array literal"
  | .name n => "identifier `" ++ n ++ "`"
  | .member _ a => "member access `." ++ a ++ "`"
  | .subscript _ _ => "subscript"
  | .binary op _ _ => "binary `" ++ op.symbol ++ "`"
  | .unary op _ => "unary `" ++ op.symbol ++ "`"
  | .conditional _ _ _ => "conditional expression"
  | .cast _ t => "cast to " ++ t.text
  | .enumLabel r l => "enum constant " ++ r.name ++ "::" ++ l
  | .enumById r _ => "enum " ++ r.name ++ " by id"
  | .method _ m _ => "method `" ++ m.name ++ "`"

/-- Whether an argument is the radix that is assumed without one. -/
def isDefaultRadix : Expr → Bool
  | .int n => n == 10
  | _ => false

/-- A radix in a message: a literal by its value, anything else described. -/
def radixText : Expr → String
  | .int n => toString n
  | e => e.describe

end Expr

end ExprToCpp
