import ExprToCpp.Cpp.Expr
import ExprToCpp.Method
import ExprToCpp.ValueType

/-!
# Names of generated declarations

How the classes, enumerations, constants, headers and accessors of the generated C++ are called.
-/

namespace ExprToCpp.Naming

def classSuffix : String := "_t"
def enumSuffix : String := "_e"
def headerExtension : String := "h"

/-- Upper case in ASCII; other letters stay as they are. -/
def upperCase (s : String) : String := s.map Char.toUpper

/-- The class of a type. -/
def className (name : String) : String := name ++ classSuffix

/-- The class of a nested type, qualified by the classes around it. -/
def qualifiedClass (path : List String) : String := String.intercalate "::" (path.map className)

/-- A name qualified by the class that declares it, if one does. -/
def qualify (owner : List String) (name : String) : String :=
  if owner.isEmpty then name else qualifiedClass owner ++ "::" ++ name

/-- The C++ type of an enumeration. -/
def enumType (r : EnumDecl) : String := qualify r.owner (r.name ++ enumSuffix)

/-- The C++ constant of a label: the label after the enumeration's name, in upper case. -/
def enumConstant (r : EnumDecl) (label : String) : String := qualify r.owner (upperCase (r.name ++ "_" ++ label))

/-- The header that declares a type. -/
def headerFile (name : String) : String := name ++ "." ++ headerExtension

/-- A field is read by a call without arguments. -/
def accessor (name : String) : Cpp.Expr := .call (.name name) []

/-- A name in an expression: the variable of a repetition, or a field. -/
def reference (name : String) : Cpp.Expr :=
  match LoopName.ofName? name with
  | some n => .name n.variableName
  | none => accessor name

/-- A member of a record that is held by a pointer. -/
def member (record : Cpp.Expr) (name : String) : Cpp.Expr :=
  match LoopName.ofName? name with
  | some n => .arrow record n.variableName
  | none => .call (.arrow record name) []

end ExprToCpp.Naming
