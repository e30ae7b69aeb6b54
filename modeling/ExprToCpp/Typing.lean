import ExprToCpp.Config
import ExprToCpp.Expr.Basic

/-!
# Typing

A `Typing` answers the type of an expression, or that it has none it knows, and names the class the expression belongs to.
A `TypeTable` is the typing that declared names and members of records determine. A typing and the settings are the `Context` in
which an expression is emitted.
-/

namespace ExprToCpp

/-- What lowering asks about types. -/
structure Typing where
  /-- The type of an expression, if it is known. -/
  typeOf : Expr → Option ValueType
  /-- The path of the class that the expression is written in. -/
  enclosingClass : List String

namespace Typing

/-- A typing with answers of its own for some expressions: the first equal one answers, and the rest stay as they were. -/
def override (Γ : Typing) (answers : List (Expr × Option ValueType)) : Typing where
  typeOf e :=
    match answers.find? fun a => e == a.1 with
    | some a => a.2
    | none => Γ.typeOf e
  enclosingClass := Γ.enclosingClass

end Typing

/-- The declared types, the latest declaration first. -/
structure TypeTable where
  enclosingClass : List String := []
  names : List (String × ValueType) := []
  /-- Members of records, by the path of the record and the member's name. -/
  members : List ((List String × String) × ValueType) := []

namespace TypeTable

/-- Declares a name; a later declaration hides an earlier one. -/
def declareName (t : TypeTable) (name : String) (type : ValueType) : TypeTable :=
  { t with names := (name, type) :: t.names }

/-- Declares a member of a record; a later declaration hides an earlier one. -/
def declareMember (t : TypeTable) (record : List String) (attr : String) (type : ValueType) : TypeTable :=
  { t with members := ((record, attr), type) :: t.members }

/-- The type of a declared name. -/
def nameType? (t : TypeTable) (name : String) : Option ValueType := t.names.lookup name

/-- The type of a declared member of a record. -/
def memberType? (t : TypeTable) (record : List String) (attr : String) : Option ValueType :=
  t.members.lookup (record, attr)

/-- A declaration gives its name a type, and changes no other. -/
@[simp] theorem nameType?_declareName (t : TypeTable) (n m : String) (type : ValueType) :
    (t.declareName n type).nameType? m = if m = n then some type else t.nameType? m := by
  simp only [declareName, nameType?, List.lookup_cons]
  split <;> simp_all

/-- So does the declaration of a member. -/
@[simp] theorem memberType?_declareMember (t : TypeTable) (r s : List String) (a b : String) (type : ValueType) :
    (t.declareMember r a type).memberType? s b = if (s, b) = (r, a) then some type else t.memberType? s b := by
  simp only [declareMember, memberType?, List.lookup_cons]
  split <;> simp_all

/-- An integer literal has the first of the signed 4-byte, the signed 8-byte and the unsigned 8-byte type that holds it; the
last also stands for what no type holds. -/
def intLiteralType (n : Int) : IntType :=
  if -2147483648 ≤ n ∧ n ≤ 2147483647 then ⟨true, .four⟩
  else if -9223372036854775808 ≤ n ∧ n ≤ 9223372036854775807 then ⟨true, .eight⟩
  else ⟨false, .eight⟩

mutual

/-- The type of an expression, from the declared ones. -/
def typeOf (t : TypeTable) : Expr → Option ValueType
  | .int n => some (.int (intLiteralType n))
  | .float _ => some (.float .double)
  | .bool _ => some .bool
  | .str _ => some .str
  | .bytes _ => some .bytes
  | .array items => (ValueType.commonOfAll? (t.typesOf items)).map .array
  | .name n => t.nameType? n
  | .member v a =>
    match t.typeOf v with
    | some (.record path) => t.memberType? path a
    | _ => none
  | .subscript v _ => (t.typeOf v).bind ValueType.element?
  | .binary op l r =>
    match op.operatorClass with
    | .comparison | .logical => some .bool
    | .arithmetic | .bitwise => (t.typeOf l).bind fun a => (t.typeOf r).bind a.arithmetic?
  | .unary op e =>
    match op with
    | .not => some .bool
    | .neg | .invert => t.typeOf e
  | .conditional _ e _ => t.typeOf e
  | .cast _ target => some target
  | .enumLabel r _ => some (.enum r)
  | .enumById r _ => some (.enum r)
  | .method r m _ =>
    match m with
    | .length | .size | .toInt => some (.int ⟨true, .four⟩)
    | .substring | .reverse | .toStr => some .str
    | .min | .max | .first | .last => (t.typeOf r).bind ValueType.element?

/-- The types of the items of a list. -/
def typesOf (t : TypeTable) : List Expr → List (Option ValueType)
  | [] => []
  | e :: es => t.typeOf e :: t.typesOf es

end

/-- The types of a list are those of its items. -/
theorem typesOf_eq_map (t : TypeTable) (es : List Expr) : t.typesOf es = es.map t.typeOf := by
  induction es with
  | nil => rfl
  | cons e es ih => simp [typesOf, ih]

/-- The typing a table determines. -/
def toTyping (t : TypeTable) : Typing := ⟨t.typeOf, t.enclosingClass⟩

end TypeTable

/-- What is read to emit an expression: types and settings. -/
structure Context where
  types : Typing
  config : Config

end ExprToCpp
