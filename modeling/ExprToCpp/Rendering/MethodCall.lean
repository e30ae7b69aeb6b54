import ExprToCpp.Rendering.Rules

/-!
# Rendering of method calls

A method call is checked for its number of arguments, then for its receiver's type, and the type decides the text. Methods on the
length and the ends of a value write the receiver before they look at its type, the others after. The start of a substring is written
twice, as an offset and in the length that C++ asks for.
-/

namespace ExprToCpp.Rendering

open Renderer

/-- The refusal of a method on a receiver of another type. -/
def notOn (m : Method) (found : ValueType) : Renderer Fragment := refuse (.unfitOperand (.method m) found)

/-- A call of a support function on the receiver. -/
def supported (name : String) (receiver : Part) : Renderer Fragment := do
  let r ← receiver.operand BindingLevel.conditional.rank
  let function := ((← context).config.support name).render
  return ⟨function ++ "(" ++ r ++ ")", .access⟩

/-- The number of bytes or items. -/
def length (receiver : Part) (type : ValueType) : Renderer Fragment := do
  let r ← receiver.operand BindingLevel.access.rank
  match type with
  | .str | .bytes => return ⟨r ++ ".length()", .access⟩
  | .array _ => return ⟨r ++ "->size()", .access⟩
  | found => notOn .length found

/-- The first element; an older C++ library has no member for it in strings. -/
def first (receiver : Part) (type : ValueType) : Renderer Fragment := do
  let r ← receiver.operand BindingLevel.access.rank
  let ends := (← context).config.stringEnds
  match type with
  | .array _ => return ⟨r ++ "->front()", .access⟩
  | .str | .bytes => return ⟨r ++ (if ends then ".front()" else "[0]"), .access⟩
  | found => notOn .first found

/-- The last element; an older C++ library has no member for it in strings. -/
def last (receiver : Part) (type : ValueType) : Renderer Fragment := do
  let r ← receiver.operand BindingLevel.access.rank
  let ends := (← context).config.stringEnds
  match type with
  | .array _ => return ⟨r ++ "->back()", .access⟩
  | .str | .bytes => return ⟨r ++ (if ends then ".back()" else "[" ++ r ++ ".length() - 1]"), .access⟩
  | found => notOn .last found

/-- The least or the greatest element, named by `m`: of an array by a library function, whose header comes after the receiver is
written, of bytes by a support function. -/
def extreme (m : Method) (receiver : Part) (type : ValueType) : Renderer Fragment := do
  match type with
  | .array _ =>
    let r ← receiver.operand BindingLevel.access.rank
    require .algorithm
    return ⟨"*std::" ++ m.name ++ "_element(" ++ r ++ "->begin(), " ++ r ++ "->end())", .unary⟩
  | .bytes => supported ("byte_array_" ++ m.name) receiver
  | found => notOn m found

/-- The part of a string between two offsets; C++ takes the first and a length, so the first is written again to be subtracted. -/
def substring (receiver : Part) (type : ValueType) (start stop : Part) : Renderer Fragment := do
  match type with
  | .str =>
    let r ← receiver.operand BindingLevel.access.rank
    let i ← start.operand BindingLevel.conditional.rank
    let j ← stop.operand BindingLevel.additive.rank
    let subtrahend ← start.operand (BindingLevel.additive.rank + 1)
    return ⟨r ++ ".substr(" ++ i ++ ", " ++ j ++ " - " ++ subtrahend ++ ")", .access⟩
  | found => notOn .substring found

/-- A string backwards, by a support function. -/
def reverse (receiver : Part) (type : ValueType) : Renderer Fragment :=
  match type with
  | .str => supported "reverse" receiver
  | found => notOn .reverse found

/-- To text: an integer in radix ten, bytes in an encoding named by a literal, and a string is its own text. -/
def toStr (receiver : Part) (type : ValueType) (arg : Option Part) : Renderer Fragment :=
  match type, arg.map Part.expr with
  | .int _, some radix =>
    if radix.isDefaultRadix then supported "to_string" receiver else refuse (.radixNotTen radix.radixText)
  | .int _, none => supported "to_string" receiver
  | .bytes, some (.str encoding) => do
    let b ← receiver.operand BindingLevel.conditional.rank
    let function := ((← context).config.support "bytes_to_str").render
    return ⟨function ++ "(" ++ b ++ ", \"" ++ Cpp.Escape.body .text (Cpp.Escape.utf8 encoding) ++ "\")", .access⟩
  | .bytes, some e => refuse (.encodingNotLiteral e.describe)
  | .bytes, none => refuse .encodingMissing
  | .str, none => receiver.fragment
  | found, _ => notOn .toStr found

/-- A string read as an integer, in the radix of the argument unless that is ten. -/
def readInt (receiver : Part) (arg : Option Part) : Renderer Fragment := do
  let s ← receiver.operand BindingLevel.conditional.rank
  match arg with
  | some radix =>
    if radix.expr.isDefaultRadix then return ⟨"std::stoi(" ++ s ++ ")", .access⟩
    else
      let base ← radix.operand BindingLevel.conditional.rank
      return ⟨"std::stoi(" ++ s ++ ", 0, " ++ base ++ ")", .access⟩
  | none => return ⟨"std::stoi(" ++ s ++ ")", .access⟩

/-- To an integer: a string is read, a boolean is one or zero, a float is cast, and an integer or a constant of an enumeration is one
already. -/
def toInt (receiver : Part) (type : ValueType) (arg : Option Part) : Renderer Fragment :=
  match type, arg with
  | .str, arg => readInt receiver arg
  | found, some _ => refuse (.radixWithoutString found)
  | .bool, none => do
    let b ← receiver.fragment
    return ⟨"((" ++ b.text ++ ") ? 1 : 0)", .primary⟩
  | .float _, none => do
    let f ← receiver.operand BindingLevel.conditional.rank
    return ⟨"static_cast<int>(" ++ f ++ ")", .access⟩
  | .enum _, none | .int _, none => receiver.fragment
  | found, none => notOn .toInt found

/-- A method call: the number of arguments, the receiver's type, then the method's own text. -/
def methodCall (receiver : Part) (m : Method) (args : List Part) : Renderer Fragment := do
  if m.accepts args.length then
    let type ← typeOf receiver.expr
    match m, args with
    | .length, _ | .size, _ => length receiver type
    | .first, _ => first receiver type
    | .last, _ => last receiver type
    | .min, _ | .max, _ => extreme m receiver type
    | .substring, [start, stop] => substring receiver type start stop
    | .reverse, _ => reverse receiver type
    | .toStr, args => toStr receiver type args.head?
    | .toInt, args => toInt receiver type args.head?
    | m, args => refuse (.wrongArity m args.length)
  else
    refuse (.wrongArity m args.length)

end ExprToCpp.Rendering
