import ExprToCpp.Lowering.Rules

/-!
# Lowering of method calls

A method call is checked for its number of arguments, then for its receiver's type, and the type decides the C++ form.
Methods on the length and the ends of a value write the receiver before they look at its type, the others after.
-/

namespace ExprToCpp.Context

/-- The refusal of a method on a receiver of another type. -/
def notOn (m : Method) (found : ValueType) : Emission Cpp.Expr := Emission.refuse (.unfitOperand (.method m) found)

/-- A call without arguments of a member of a string. -/
def onString (object : Cpp.Expr) (member : String) : Cpp.Expr := .call (.dot object member) []

/-- A call without arguments of a member of an array. -/
def onArray (array : Cpp.Expr) (member : String) : Cpp.Expr := .call (.arrow array member) []

/-- The number of bytes or items. -/
def length (receiver : Operand) (type : ValueType) : Emission Cpp.Expr := do
  let r ← receiver.cpp
  match type with
  | .str | .bytes => return onString r "length"
  | .array _ => return onArray r "size"
  | found => notOn .length found

/-- The first element; an older C++ library has no member for it in strings. -/
def first (Γ : Context) (receiver : Operand) (type : ValueType) : Emission Cpp.Expr := do
  let r ← receiver.cpp
  match type with
  | .array _ => return onArray r "front"
  | .str | .bytes => return if Γ.config.stringEnds then onString r "front" else .index r (.int 0 .plain)
  | found => notOn .first found

/-- The last element; an older C++ library has no member for it in strings. -/
def last (Γ : Context) (receiver : Operand) (type : ValueType) : Emission Cpp.Expr := do
  let r ← receiver.cpp
  match type with
  | .array _ => return onArray r "back"
  | .str | .bytes =>
    return if Γ.config.stringEnds then onString r "back"
      else .index r (.binary .sub (onString r "length") (.int 1 .plain))
  | found => notOn .last found

/-- The least or the greatest element, named by `m`: of an array by a library function on its range, of bytes by a support
function. -/
def extreme (Γ : Context) (m : Method) (receiver : Operand) (type : ValueType) : Emission Cpp.Expr := do
  match type with
  | .array _ =>
    let r ← receiver.cpp
    Emission.need .algorithm
    return .unary .deref (.call (.name ("std::" ++ m.name ++ "_element")) [onArray r "begin", onArray r "end"])
  | .bytes =>
    let r ← receiver.cpp
    return .call (Γ.config.support ("byte_array_" ++ m.name)) [r]
  | found => notOn m found

/-- The part of a string between two offsets; C++ takes the first and a length. -/
def substring (receiver : Operand) (type : ValueType) (start stop : Operand) : Emission Cpp.Expr := do
  match type with
  | .str =>
    let r ← receiver.cpp
    let i ← start.cpp
    let j ← stop.cpp
    return .call (.dot r "substr") [i, .binary .sub j i]
  | found => notOn .substring found

/-- A string backwards, by a support function. -/
def reverse (Γ : Context) (receiver : Operand) (type : ValueType) : Emission Cpp.Expr := do
  match type with
  | .str => return .call (Γ.config.support "reverse") [← receiver.cpp]
  | found => notOn .reverse found

/-- To text: an integer in radix ten, bytes in an encoding named by a literal, and a string is its own text. -/
def toStr (Γ : Context) (receiver : Operand) (type : ValueType) (arg : Option Operand) : Emission Cpp.Expr := do
  match type, arg.map Operand.expr with
  | .int _, some radix =>
    if radix.isDefaultRadix then return .call (Γ.config.support "to_string") [← receiver.cpp]
    else Emission.refuse (.radixNotTen radix.radixText)
  | .int _, none => return .call (Γ.config.support "to_string") [← receiver.cpp]
  | .bytes, some (.str encoding) =>
    return .call (Γ.config.support "bytes_to_str") [← receiver.cpp, .string .text (Cpp.Escape.utf8 encoding)]
  | .bytes, some e => Emission.refuse (.encodingNotLiteral e.describe)
  | .bytes, none => Emission.refuse .encodingMissing
  | .str, none => receiver.cpp
  | found, _ => notOn .toStr found

/-- A string read as an integer, in the radix of the argument unless that is ten. -/
def readInt (receiver : Operand) (arg : Option Operand) : Emission Cpp.Expr := do
  let s ← receiver.cpp
  match arg with
  | some radix =>
    if radix.expr.isDefaultRadix then return .call (.name "std::stoi") [s]
    else return .call (.name "std::stoi") [s, .int 0 .plain, ← radix.cpp]
  | none => return .call (.name "std::stoi") [s]

/-- To an integer: a string is read, a boolean is one or zero, a float is cast, and an integer or a constant of an
enumeration is one already. -/
def toInt (receiver : Operand) (type : ValueType) (arg : Option Operand) : Emission Cpp.Expr := do
  match type, arg with
  | .str, arg => readInt receiver arg
  | found, some _ => Emission.refuse (.radixWithoutString found)
  | .bool, none => return .paren (.conditional (.paren (← receiver.cpp)) (.int 1 .plain) (.int 0 .plain))
  | .float _, none => return .staticCast (.named "int") (← receiver.cpp)
  | .enum _, none | .int _, none => receiver.cpp
  | found, none => notOn .toInt found

/-- A method call: the number of arguments, the receiver's type, then the method's own rule. -/
def methodCall (Γ : Context) (receiver : Operand) (m : Method) (args : List Operand) : Emission Cpp.Expr := do
  if m.accepts args.length then
    let type ← Γ.typeOf receiver.expr
    match m, args with
    | .length, _ | .size, _ => length receiver type
    | .first, _ => Γ.first receiver type
    | .last, _ => Γ.last receiver type
    | .min, _ | .max, _ => Γ.extreme m receiver type
    | .substring, [start, stop] => substring receiver type start stop
    | .reverse, _ => Γ.reverse receiver type
    | .toStr, args => Γ.toStr receiver type args.head?
    | .toInt, args => toInt receiver type args.head?
    | m, args => Emission.refuse (.wrongArity m args.length)
  else
    Emission.refuse (.wrongArity m args.length)

end ExprToCpp.Context
