import ExprToCpp.Cpp.Expr

/-!
# Configuration

What a generation run fixes once: how objects are owned, what the C++ library offers, and where the support functions of the
generated code are.
-/

namespace ExprToCpp

/-- Who owns the objects that generated code points to. -/
inductive Ownership where
  /-- Plain pointers everywhere. -/
  | raw
  /-- An owning pointer where an object is made, plain pointers elsewhere. -/
  | uniqueAndRaw
  /-- Shared pointers everywhere. -/
  | shared
  deriving DecidableEq, Repr

/-- The name of an ownership discipline in messages. -/
def Ownership.text : Ownership → String
  | .raw => "raw-pointer"
  | .uniqueAndRaw => "unique-and-raw-pointer"
  | .shared => "shared-pointer"

/-- The settings of a generation run. -/
structure Config where
  ownership : Ownership
  /-- Whether strings have `front()` and `back()`. -/
  stringEnds : Bool
  /-- The qualified name of the class that holds the support functions. -/
  supportClass : String
  deriving DecidableEq, Repr

namespace Config

def defaultSupportClass : String := "kaitai::kstream"

/-- Plain pointers, and strings without `front()` and `back()`. -/
def conservative : Config := ⟨.raw, false, defaultSupportClass⟩

/-- Owning pointers where objects are made, and strings with `front()` and `back()`. -/
def cpp11 : Config := ⟨.uniqueAndRaw, true, defaultSupportClass⟩

/-- A change of one setting. -/
inductive Change where
  | ownership (o : Ownership)
  | stringEnds (available : Bool)
  | supportClass (name : String)
  deriving DecidableEq, Repr

def apply (c : Config) : Change → Config
  | .ownership o => { c with ownership := o }
  | .stringEnds b => { c with stringEnds := b }
  | .supportClass n => { c with supportClass := n }

/-- The settings before the first change and after each one. -/
def history (c : Config) : List Change → List Config
  | [] => [c]
  | x :: xs => c :: (c.apply x).history xs

/-- A support function. -/
def support (c : Config) (name : String) : Cpp.Expr := .name (c.supportClass ++ "::" ++ name)

end Config

end ExprToCpp
