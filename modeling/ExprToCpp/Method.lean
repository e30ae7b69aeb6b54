/-!
# Built-in methods and loop names

The methods every value of a fitting type has, and the names that a repetition binds.
-/

namespace ExprToCpp

/-- The built-in methods. -/
inductive Method where
  | length | size | substring | reverse | min | max | first | last
  /-- To text: an integer in a radix, bytes in an encoding. -/
  | toStr
  | toInt
  deriving DecidableEq, Repr

namespace Method

def all : List Method := [.length, .size, .substring, .reverse, .min, .max, .first, .last, .toStr, .toInt]

/-- The name of a method in the expression language. -/
def name : Method → String
  | .length => "length"
  | .size => "size"
  | .substring => "substring"
  | .reverse => "reverse"
  | .min => "min"
  | .max => "max"
  | .first => "first"
  | .last => "last"
  | .toStr => "to_s"
  | .toInt => "to_i"

def ofName? (s : String) : Option Method := all.find? (·.name == s)

/-- The least number of arguments. -/
def minArgs : Method → Nat
  | .substring => 2
  | _ => 0

/-- The greatest number of arguments. -/
def maxArgs : Method → Nat
  | .substring => 2
  | .toStr | .toInt => 1
  | _ => 0

/-- Whether a method takes `n` arguments. -/
def accepts (m : Method) (n : Nat) : Bool := decide (m.minArgs ≤ n ∧ n ≤ m.maxArgs)

/-- The numbers of arguments a method takes, as one number or a range with both ends. -/
def arityText (m : Method) : String :=
  if m.minArgs = m.maxArgs then toString m.minArgs else toString m.minArgs ++ "..=" ++ toString m.maxArgs

/-- One line of documentation. -/
def summary : Method → String
  | .length => "Length of a string or byte sequence."
  | .size => "Number of elements of an array or bytes."
  | .substring => "Substring between a start and an end offset."
  | .reverse => "Reversed string."
  | .min => "Smallest element."
  | .max => "Largest element."
  | .first => "First element."
  | .last => "Last element."
  | .toStr => "Integer to string (optional radix), or bytes to string (encoding)."
  | .toInt => "Convert to an integer (optional radix for strings)."

end Method

/-- The names a repetition binds: the current item, its bytes, its number. In C++ they are local variables and not
accessors. -/
inductive LoopName where
  | item | itemBytes | position
  deriving DecidableEq, Repr

namespace LoopName

def all : List LoopName := [.item, .itemBytes, .position]

/-- The name in the expression language. -/
def name : LoopName → String
  | .item => "_"
  | .itemBytes => "_buf"
  | .position => "_index"

/-- The C++ variable that holds it. -/
def variableName : LoopName → String
  | .item => "_"
  | .itemBytes => "_buf"
  | .position => "i"

def ofName? (s : String) : Option LoopName := all.find? (·.name == s)

end LoopName

end ExprToCpp
