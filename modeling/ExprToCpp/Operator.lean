/-!
# Operators and how tightly they bind

The expression language and C++ share their operators; only three are spelled differently. A `BindingLevel` is a level of
the C++ expression grammar, from the loosest to the tightest.
-/

namespace ExprToCpp

/-- The levels of the C++ expression grammar that occur, loosest first. -/
inductive BindingLevel where
  | conditional | logicalOr | logicalAnd | bitOr | bitXor | bitAnd | equality | relational | shift
  | additive | multiplicative | unary
  /-- Calls, member accesses, subscripts and casts. -/
  | access
  | primary
  deriving DecidableEq, Repr

namespace BindingLevel

/-- The rank of a level; level 2 is the grammar's, and no expression here needs it. -/
def rank : BindingLevel → Nat
  | .conditional => 1
  | .logicalOr => 3
  | .logicalAnd => 4
  | .bitOr => 5
  | .bitXor => 6
  | .bitAnd => 7
  | .equality => 8
  | .relational => 9
  | .shift => 10
  | .additive => 11
  | .multiplicative => 12
  | .unary => 13
  | .access => 14
  | .primary => 15

def all : List BindingLevel :=
  [.conditional, .logicalOr, .logicalAnd, .bitOr, .bitXor, .bitAnd, .equality, .relational, .shift, .additive,
    .multiplicative, .unary, .access, .primary]

end BindingLevel

/-- Operators between two operands, all left-associative. -/
inductive BinaryOp where
  | add | sub | mul | div | mod
  | shl | shr | bitAnd | bitOr | bitXor
  | eq | ne | lt | le | gt | ge
  | and | or
  deriving DecidableEq, Repr

/-- Operators in front of one operand. -/
inductive UnaryOp where
  | neg | not | invert
  deriving DecidableEq, Repr

/-- What an operator computes with. -/
inductive OperatorClass where
  | arithmetic | bitwise | comparison | logical
  deriving DecidableEq, Repr

namespace BinaryOp

/-- The C++ spelling. -/
def symbol : BinaryOp → String
  | .add => "+"
  | .sub => "-"
  | .mul => "*"
  | .div => "/"
  | .mod => "%"
  | .shl => "<<"
  | .shr => ">>"
  | .bitAnd => "&"
  | .bitOr => "|"
  | .bitXor => "^"
  | .eq => "=="
  | .ne => "!="
  | .lt => "<"
  | .le => "<="
  | .gt => ">"
  | .ge => ">="
  | .and => "&&"
  | .or => "||"

/-- The spelling in the expression language: C++'s, but for the two connectives. -/
def spelling : BinaryOp → String
  | .and => "and"
  | .or => "or"
  | op => op.symbol

/-- How tightly an operator between two operands binds. -/
def level : BinaryOp → BindingLevel
  | .add | .sub => .additive
  | .mul | .div | .mod => .multiplicative
  | .shl | .shr => .shift
  | .bitAnd => .bitAnd
  | .bitOr => .bitOr
  | .bitXor => .bitXor
  | .eq | .ne => .equality
  | .lt | .le | .gt | .ge => .relational
  | .and => .logicalAnd
  | .or => .logicalOr

/-- The class an operator belongs to. -/
def operatorClass : BinaryOp → OperatorClass
  | .add | .sub | .mul | .div | .mod => .arithmetic
  | .shl | .shr | .bitAnd | .bitOr | .bitXor => .bitwise
  | .eq | .ne | .lt | .le | .gt | .ge => .comparison
  | .and | .or => .logical

/-- The comparisons that order their operands. -/
def isOrdering : BinaryOp → Bool
  | .lt | .le | .gt | .ge => true
  | _ => false

end BinaryOp

namespace UnaryOp

/-- The C++ spelling. -/
def symbol : UnaryOp → String
  | .neg => "-"
  | .not => "!"
  | .invert => "~"

/-- The spelling in the expression language. -/
def spelling : UnaryOp → String
  | .not => "not"
  | op => op.symbol

def operatorClass : UnaryOp → OperatorClass
  | .neg => .arithmetic
  | .not => .logical
  | .invert => .bitwise

end UnaryOp

/-- Where an operator stands: between its operands or in front of its operand. -/
inductive Fixity where
  | between | before
  deriving DecidableEq, Repr

/-- Any operator of the language. -/
inductive Operator where
  | binary (op : BinaryOp)
  | unary (op : UnaryOp)
  deriving DecidableEq, Repr

namespace Operator

def fixity : Operator → Fixity
  | .binary _ => .between
  | .unary _ => .before

def spelling : Operator → String
  | .binary op => op.spelling
  | .unary op => op.spelling

def symbol : Operator → String
  | .binary op => op.symbol
  | .unary op => op.symbol

def level : Operator → BindingLevel
  | .binary op => op.level
  | .unary _ => .unary

def operatorClass : Operator → OperatorClass
  | .binary op => op.operatorClass
  | .unary op => op.operatorClass

def isOrdering : Operator → Bool
  | .binary op => op.isOrdering
  | .unary _ => false

/-- Every operator, the ones between two operands first. -/
def all : List Operator :=
  [.add, .sub, .mul, .div, .mod, .shl, .shr, .bitAnd, .bitOr, .bitXor, .eq, .ne, .lt, .le, .gt, .ge, .and, .or].map
    Operator.binary ++ [.neg, .not, .invert].map Operator.unary

/-- The operator a spelling names at a place: `-` names one in each. -/
def ofSpelling? (s : String) (f : Fixity) : Option Operator :=
  all.find? fun op => op.spelling == s && op.fixity == f

end Operator

/-- The binary operator with a spelling. -/
def BinaryOp.ofSpelling? (s : String) : Option BinaryOp :=
  match Operator.ofSpelling? s .between with
  | some (.binary op) => some op
  | _ => none

/-- The unary operator with a spelling. -/
def UnaryOp.ofSpelling? (s : String) : Option UnaryOp :=
  match Operator.ofSpelling? s .before with
  | some (.unary op) => some op
  | _ => none

end ExprToCpp
