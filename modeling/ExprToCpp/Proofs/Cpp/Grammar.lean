import Mathlib.Algebra.Order.Field.Rat
import ExprToCpp.Proofs.Cpp.Token

/-!
# The grammar of C++ expressions

A reader of C++ expressions, from the tokens of a text to its tree. It follows the grammar: a conditional is looser than every
operator between two operands, these are left-associative and ranked by `BindingLevel`, prefix operators and `new` are tighter,
then calls, member accesses and subscripts, and last names, literals, casts and what stands in parentheses. Parentheses only
group: they leave no trace in the tree.
-/

namespace ExprToCpp.Cpp

/-- The tree of an expression, as the grammar gives it. -/
inductive Tree where
  | int (value : Nat) (suffix : IntSuffix)
  | float (value : ℚ)
  | bool (value : Bool)
  | string (bytes : List UInt8)
  /-- A name with its qualification. -/
  | name (text : String)
  /-- A template with its argument: a function, or a type that is called to make an object. -/
  | template (name : String) (argument : Ty)
  | call (callee : Tree) (args : List Tree)
  | arrow (pointer : Tree) (member : String)
  | dot (object : Tree) (member : String)
  | index (object position : Tree)
  | staticCast (target : Ty) (value : Tree)
  | new (type : Ty) (items : List Tree)
  | unary (op : PrefixOp) (operand : Tree)
  | binary (op : BinaryOp) (left right : Tree)
  | conditional (condition ifTrue ifFalse : Tree)

/-! ## Words and names -/

/-- The keywords that name types. -/
def typeKeywords : List String :=
  ["bool", "char", "char8_t", "char16_t", "char32_t", "double", "float", "int", "long", "short", "signed", "unsigned",
    "void", "wchar_t"]

/-- The keywords that name nothing, with the operators that are spelled as words. -/
def reservedWords : List String :=
  ["alignas", "alignof", "asm", "auto", "break", "case", "catch", "class", "concept", "const", "consteval", "constexpr",
    "constinit", "const_cast", "continue", "co_await", "co_return", "co_yield", "decltype", "default", "delete", "do",
    "dynamic_cast", "else", "enum", "explicit", "export", "extern", "false", "for", "friend", "goto", "if", "inline",
    "mutable", "namespace", "new", "noexcept", "nullptr", "operator", "private", "protected", "public", "register",
    "reinterpret_cast", "requires", "return", "sizeof", "static", "static_assert", "static_cast", "struct", "switch",
    "template", "this", "thread_local", "throw", "true", "try", "typedef", "typeid", "typename", "union", "using",
    "virtual", "volatile", "while", "and", "and_eq", "bitand", "bitor", "compl", "not", "not_eq", "or", "or_eq", "xor",
    "xor_eq"]

/-- The keywords of the language. -/
def keywords : List String := typeKeywords ++ reservedWords

namespace Reader

/-- The words of a qualified name, and what follows it. -/
def readWords : List Token → Option (List String × List Token)
  | .word w :: .punct .scope :: r => (readWords r).map (Prod.map (w :: ·) id)
  | .word w :: r => some ([w], r)
  | _ => none

/-- A name and its qualification, as it is written. -/
def joinWords (ws : List String) : String := String.intercalate "::" ws

/-- Whether words name a value or a function, in the scope that the words before the last one name. A scope is a class or a
namespace, so none of the words is a keyword. -/
def namesValue (ws : List String) : Bool := ws.all fun w => !keywords.contains w

/-- Whether words name a type. The keywords that name types do so alone: they are no scopes, and no scope has them. -/
def namesType : List String → Bool
  | [w] => !reservedWords.contains w
  | ws => namesValue ws

/-! ## Types -/

/-- The class templates, each with the type it makes of its argument. -/
def classTemplate? (name : String) : Option (Ty → Ty) :=
  if name = "std::vector" then some .vector
  else if name = "std::shared_ptr" then some .shared
  else if name = "std::unique_ptr" then some .unique
  else none

/-- The templates whose instances are called or have members that are. -/
def callableTemplates : List String := ["std::unique_ptr", "std::static_pointer_cast", "std::numeric_limits"]

/-- Takes the bracket that closes template arguments; two closing brackets in a row are one token, which is split. -/
def closeAngle : List Token → Option (List Token)
  | .punct (.op .gt) :: r => some r
  | .punct (.op .shr) :: r => some (.punct (.op .gt) :: r)
  | _ => none

/-- The stars after a type. -/
def readStars (t : Ty) : List Token → Ty × List Token
  | .punct (.op .mul) :: r => readStars (.pointer t) r
  | ts => (t, ts)

/-- A type, and what follows it. -/
def readType (ts : List Token) : Option (Ty × List Token) :=
  match readWords ts with
  | none => none
  | some (ws, r) =>
    if namesType ws then
      match classTemplate? (joinWords ws), r with
      | some make, .punct (.op .lt) :: r =>
        if r.length < ts.length then
          match readType r with
          | some (t, r) => (closeAngle r).map (readStars (make t))
          | none => none
        else none
      | some _, _ => none
      | none, r => some (readStars (.named (joinWords ws)) r)
    else none
termination_by ts.length

/-- The argument of a template in its brackets. -/
def readArgument : List Token → Option (Ty × List Token)
  | .punct (.op .lt) :: r =>
    match readType r with
    | some (t, r) => (closeAngle r).map (t, ·)
    | none => none
  | _ => none

/-! ## Literals -/

/-- The suffix of an integer. -/
def suffix? (cs : List Char) : Option IntSuffix := [.plain, .ul, .ll, .ull].find? fun s : IntSuffix => s.text.toList == cs

/-- The digits of an exponent. -/
def readDigits (ds : List Char) : Option Nat :=
  if ds ≠ [] ∧ ds.all Char.isDigit = true then some (Nat.ofDigitChars 10 ds 0) else none

/-- The exponent of a floating literal. -/
def readExponent : List Char → Option Int
  | [] => some 0
  | m :: r =>
    if m = 'e' ∨ m = 'E' then
      match r with
      | '-' :: ds => (readDigits ds).map fun n : Nat => -(n : Int)
      | '+' :: ds => (readDigits ds).map Int.ofNat
      | ds => (readDigits ds).map Int.ofNat
    else none

/-- The digits after the point of a floating literal, and what follows them. -/
def readFraction : List Char → List Char × List Char
  | '.' :: r => (r.takeWhile Char.isDigit, r.dropWhile Char.isDigit)
  | r => ([], r)

/-- A floating literal, given its digits before the point and what follows these. -/
def readFloat (whole r : List Char) : Option Tree :=
  (readExponent (readFraction r).2).map fun e =>
    .float (Nat.ofDigitChars 10 (whole ++ (readFraction r).1) 0 * (10 : ℚ) ^ (e - ((readFraction r).1.length : Int)))

/-- A numeric literal. A zero before other digits would make an integer octal, which is none here. -/
def readNumber (cs : List Char) : Option Tree :=
  let whole := cs.takeWhile Char.isDigit
  let r := cs.dropWhile Char.isDigit
  match suffix? r with
  | some s => if whole.head? = some '0' ∧ whole ≠ ['0'] then none else some (.int (Nat.ofDigitChars 10 whole 0) s)
  | none => readFloat whole r

/-! ## Expressions -/

/-- The operators in front of an operand. -/
def prefixOp? : Punct → Option PrefixOp
  | .op .sub => some (.operator .neg)
  | .op .mul => some .deref
  | .bang => some (.operator .not)
  | .tilde => some (.operator .invert)
  | _ => none

/-- A name, or a template with its argument, or a member of one. -/
def readName (ts : List Token) : Option (Tree × List Token) :=
  match readWords ts with
  | none => none
  | some (ws, r) =>
    if namesValue ws then
      if callableTemplates.contains (joinWords ws) then
        match readArgument r with
        | none => none
        | some (t, .punct .scope :: .word w :: r) =>
          if keywords.contains w then none else some (.name (joinWords ws ++ "<" ++ t.render ++ ">::" ++ w), r)
        | some (t, r) => some (.template (joinWords ws) t, r)
      else some (.name (joinWords ws), r)
    else none

-- every reader takes a token; the comparisons of lengths below only make that plain
mutual

/-- An expression: operands between operators, and perhaps a choice by them. -/
def readExpr (ts : List Token) : Option (Tree × List Token) :=
  match readBinary 0 ts with
  | some (c, .punct .question :: r) =>
    if r.length < ts.length then
      match readExpr r with
      | some (t, .punct .colon :: r) =>
        if r.length < ts.length then (readExpr r).map fun f => (.conditional c t f.1, f.2) else none
      | _ => none
    else none
  | result => result
termination_by 8 * ts.length + 5

/-- Operands between operators of a least rank. -/
def readBinary (least : Nat) (ts : List Token) : Option (Tree × List Token) :=
  match readUnary ts with
  | some (l, r) => if r.length < ts.length then readOperators least l r else none
  | none => none
termination_by 8 * ts.length + 4

/-- The operators of a least rank after a left operand, each with its right operand. -/
def readOperators (least : Nat) (l : Tree) (ts : List Token) : Option (Tree × List Token) :=
  match ts with
  | .punct (.op op) :: r =>
    if least ≤ op.level.rank then
      match readBinary (op.level.rank + 1) r with
      | some (right, rest) => if rest.length < r.length then readOperators least (.binary op l right) rest else none
      | none => none
    else some (l, .punct (.op op) :: r)
  | ts => some (l, ts)
termination_by 8 * ts.length

/-- A prefix operator with its operand, a new object, or a postfix expression. -/
def readUnary (ts : List Token) : Option (Tree × List Token) :=
  match ts with
  | .word w :: r =>
    if w = "new" then
      match readType r with
      | some (t, .punct .lbrace :: rest) =>
        if rest.length < r.length then (readList .rbrace rest).map fun items => (.new t items.1, items.2) else none
      | _ => none
    else readAccess (.word w :: r)
  | .punct p :: r =>
    match prefixOp? p with
    | some op => (readUnary r).map fun e => (.unary op e.1, e.2)
    | none => readAccess (.punct p :: r)
  | ts => readAccess ts
termination_by 8 * ts.length + 3

/-- A primary expression with what is accessed from it. -/
def readAccess (ts : List Token) : Option (Tree × List Token) :=
  match readPrimary ts with
  | some (e, r) => if r.length < ts.length then readPostfix e r else none
  | none => none
termination_by 8 * ts.length + 2

/-- A literal, a cast, a name, or an expression in parentheses. -/
def readPrimary (ts : List Token) : Option (Tree × List Token) :=
  match ts with
  | .number n :: r => (readNumber n.toList).map (·, r)
  | .string bytes :: r => some (.string bytes, r)
  | .punct .lparen :: r =>
    match readExpr r with
    | some (e, .punct .rparen :: rest) => some (e, rest)
    | _ => none
  | .word w :: r =>
    if w = "true" then some (.bool true, r)
    else if w = "false" then some (.bool false, r)
    else if w = "static_cast" then
      match readArgument r with
      | some (t, .punct .lparen :: rest) =>
        if rest.length < r.length then
          match readExpr rest with
          | some (e, .punct .rparen :: rest) => some (.staticCast t e, rest)
          | _ => none
        else none
      | _ => none
    else readName (.word w :: r)
  | _ => none
termination_by 8 * ts.length + 1

/-- Calls, member accesses and subscripts after an expression. -/
def readPostfix (e : Tree) (ts : List Token) : Option (Tree × List Token) :=
  match ts with
  | .punct .lparen :: r =>
    match readList .rparen r with
    | some (args, rest) => if rest.length < r.length then readPostfix (.call e args) rest else none
    | none => none
  | .punct .lbracket :: r =>
    match readExpr r with
    | some (i, .punct .rbracket :: rest) => if rest.length < r.length then readPostfix (.index e i) rest else none
    | _ => none
  | .punct .arrow :: .word m :: r => if keywords.contains m then none else readPostfix (.arrow e m) r
  | .punct .dot :: .word m :: r => if keywords.contains m then none else readPostfix (.dot e m) r
  | ts => some (e, ts)
termination_by 8 * ts.length

/-- Expressions with commas between them, up to a closing bracket. -/
def readList (close : Punct) (ts : List Token) : Option (List Tree × List Token) :=
  if ts.head? = some (.punct close) then some ([], ts.tail) else readItems close ts
termination_by 8 * ts.length + 7

/-- At least one expression, and others after commas, up to a closing bracket. -/
def readItems (close : Punct) (ts : List Token) : Option (List Tree × List Token) :=
  match readExpr ts with
  | some (e, .punct p :: r) =>
    if p = close then some ([e], r)
    else if p = .comma ∧ r.length < ts.length then (readItems close r).map fun es => (e :: es.1, es.2)
    else none
  | _ => none
termination_by 8 * ts.length + 6

end

/-- Reads tokens as one expression. -/
def readAll (ts : List Token) : Option Tree := do
  match ← readExpr ts with
  | (t, []) => return t
  | _ => none

/-- The tokens with every qualified name taken as one word, whatever stands next to `::` in it. -/
def joinNames : List Token → List Token
  | [] => []
  | .word w :: .punct .scope :: ts =>
    match joinNames ts with
    | .word v :: us => .word (w ++ "::" ++ v) :: us
    | us => .word w :: .punct .scope :: us
  | x :: ts => x :: joinNames ts

end Reader

/-- Reads a text as one expression. -/
def read (text : String) : Option Tree := do Reader.readAll (← Lexer.lex text.toList)

/-- Reads a text as one expression, in which every word may be a scope: a qualified name is taken for one word. -/
def readJoined (text : String) : Option Tree := do Reader.readAll (Reader.joinNames (← Lexer.lex text.toList))

end ExprToCpp.Cpp
