/-!
# The inside of a C++ string literal

A literal is written byte by byte, so any encoding of the source file reads it the same. Text takes a one-letter escape where
C++ has one, the byte itself where it is printable, and three octal digits otherwise: three digits are the most an octal
escape reads, so a digit that follows is not drawn in. A hexadecimal escape has no such limit, which is why raw bytes are
all written in hexadecimal or not at all.
-/

namespace ExprToCpp.Cpp.Escape

/-- The bytes with a one-letter escape, and the letter. A question mark is among them: two in a row could start a
trigraph. -/
def letters : List (UInt8 × Char) :=
  [(9, 't'), (10, 'n'), (13, 'r'), (34, '"'), (92, '\\'), (7, 'a'), (12, 'f'), (11, 'v'), (8, 'b'), (63, '?')]

/-- The one-letter escape of a byte, if it has one. -/
def letter? (b : UInt8) : Option (List Char) := (letters.lookup b).map (['\\', ·])

/-- The bytes of printable ASCII. -/
def isPrintable (b : UInt8) : Bool := decide (0x20 ≤ b ∧ b < 0x7f)

/-- The last `k` digits of a number in a base up to sixteen, most significant first. -/
def digits (base : Nat) : Nat → Nat → List Char
  | 0, _ => []
  | k + 1, n => digits base k (n / base) ++ [Nat.digitChar (n % base)]

/-- A byte of text. -/
def textByte (b : UInt8) : List Char :=
  match letter? b with
  | some escaped => escaped
  | none => if isPrintable b then [Char.ofNat b.toNat] else '\\' :: digits 8 3 b.toNat

/-- A byte of a byte sequence. -/
def rawByte (b : UInt8) : List Char := '\\' :: 'x' :: digits 16 2 b.toNat

/-- The bytes of a string, as C++ holds it. -/
def utf8 (s : String) : List UInt8 := s.toUTF8.data.toList

/-- How the bytes of a literal are written. -/
inductive Style where
  | text | raw
  deriving DecidableEq, Repr

/-- What stands between the quotes. -/
def body (style : Style) (bytes : List UInt8) : String :=
  String.ofList (bytes.flatMap (match style with | .text => textByte | .raw => rawByte))

/-- Whether a zero byte is inside, at which C++ would end a literal given without its length. -/
def hasZero (bytes : List UInt8) : Bool := bytes.contains 0

end ExprToCpp.Cpp.Escape
