/-!
# The types of values

The types that expressions have, their text, and the two partial operations of typing: the type of an arithmetic result and the
common type of the items of an array.
-/

namespace ExprToCpp

inductive Width where
  | one | two | four | eight
  deriving DecidableEq, Repr

namespace Width

def bytes : Width → Nat
  | .one => 1
  | .two => 2
  | .four => 4
  | .eight => 8

def bits (w : Width) : Nat := 8 * w.bytes

/-- The wider of two widths. -/
def max (a b : Width) : Width := if a.bytes < b.bytes then b else a

end Width

/-- An integer type: signed or not, and its width. -/
structure IntType where
  signed : Bool
  width : Width
  deriving DecidableEq, Repr

/-- Arithmetic on two integer types is signed if either is, and as wide as the wider. -/
def IntType.join (a b : IntType) : IntType := ⟨a.signed || b.signed, a.width.max b.width⟩

/-- The letter of the signedness and the width in bytes. -/
def IntType.text (t : IntType) : String := (if t.signed then "s" else "u") ++ toString t.width.bytes

inductive Precision where
  | single | double
  deriving DecidableEq, Repr

def Precision.text : Precision → String
  | .single => "f4"
  | .double => "f8"

/-- An enumeration, by the path of the type that declares it and its name there. -/
structure EnumDecl where
  owner : List String
  name : String
  deriving DecidableEq, Repr

/-- The outermost type that holds the declaration; an enumeration declared outside every type has none. -/
def EnumDecl.outermost? (r : EnumDecl) : Option String := r.owner.head?

/-- The type of an expression. -/
inductive ValueType where
  | int (type : IntType)
  | float (precision : Precision)
  | bool
  | str
  | bytes
  | array (element : ValueType)
  | record (path : List String)
  | enum (ref : EnumDecl)
  deriving DecidableEq, Repr

namespace ValueType

/-- The text of a type in messages. -/
def text : ValueType → String
  | .int t => t.text
  | .float w => w.text
  | .bool => "bool"
  | .str => "str"
  | .bytes => "bytes"
  | .array t => t.text ++ "[]"
  | .record path => String.intercalate "::" path
  | .enum r => "enum " ++ String.intercalate "::" (r.owner ++ [r.name])

/-- Strings and byte sequences: both are held as text in C++. -/
def isTextual : ValueType → Bool
  | .str | .bytes => true
  | _ => false

def isNumeric : ValueType → Bool
  | .int _ | .float _ => true
  | _ => false

/-- The type of one element: an item of an array, a byte of text. -/
def element? : ValueType → Option ValueType
  | .array t => some t
  | .str | .bytes => some (.int ⟨false, .one⟩)
  | _ => none

/-- The type of an arithmetic result. Strings are added to strings; anything with a float is a double. -/
def arithmetic? : ValueType → ValueType → Option ValueType
  | .int a, .int b => some (.int (a.join b))
  | .float _, .int _ | .int _, .float _ | .float _, .float _ => some (.float .double)
  | .str, .str => some .str
  | _, _ => none

/-- The type two items of one array have in common: their own if they agree, the arithmetic one of two numbers. -/
def common? (a b : ValueType) : Option ValueType :=
  if a = b then some a else if a.isNumeric && b.isNumeric then a.arithmetic? b else none

/-- The common type of the items of an array, from left to right; an array with no items or with an untyped one has none. -/
def commonOfAll? : List (Option ValueType) → Option ValueType
  | [] => none
  | t :: ts => ts.foldl (fun acc t => acc.bind fun a => t.bind a.common?) t

end ValueType

end ExprToCpp
