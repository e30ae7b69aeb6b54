/-!
# C++ types

The types that generated code names, and their text.
-/

namespace ExprToCpp.Cpp

/-- A C++ type. -/
inductive Ty where
  /-- A type written by its name alone. -/
  | named (name : String)
  | vector (element : Ty)
  | pointer (pointee : Ty)
  | shared (pointee : Ty)
  | unique (pointee : Ty)
  deriving DecidableEq, Repr

/-- The text of a type. -/
def Ty.render : Ty → String
  | .named n => n
  | .vector t => "std::vector<" ++ t.render ++ ">"
  | .pointer t => t.render ++ "*"
  | .shared t => "std::shared_ptr<" ++ t.render ++ ">"
  | .unique t => "std::unique_ptr<" ++ t.render ++ ">"

end ExprToCpp.Cpp
