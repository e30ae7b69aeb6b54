import ExprToCpp.Cpp.Literal
import ExprToCpp.Include
import ExprToCpp.Ownership
import ExprToCpp.Typing

/-!
# Renderers

A session holds the include lists of the two files of the generated unit. A library header goes to the file that is being written, a
project header to the header file, whatever is being written. A `Renderer` writes C++ in a session: it enters headers in the lists on
its way, and it gives a value or refuses. What was entered before a refusal stays.
-/

namespace ExprToCpp

/-! ## Sessions -/

/-- The state of a session. -/
structure Session where
  context : Context
  source : IncludeList := {}
  header : IncludeList := {}
  /-- The file that is being written. -/
  active : UnitFile := .source

namespace Session

/-- The include list of a file. -/
def includes (s : Session) : UnitFile → IncludeList
  | .source => s.source
  | .header => s.header

/-- Adds a header to the list of a file. -/
def addTo (s : Session) (file : UnitFile) (i : Include) : Session :=
  match file with
  | .source => { s with source := s.source.insert i }
  | .header => { s with header := s.header.insert i }

/-- The file whose list a needed header goes to. -/
def destination (s : Session) : Include → UnitFile
  | .system _ => s.active
  | .project _ => .header

/-- Adding a header to the list of a file leaves the other list alone. -/
theorem includes_addTo (s : Session) (f g : UnitFile) (i : Include) :
    (s.addTo f i).includes g = if g = f then (s.includes g).insert i else s.includes g := by
  cases f <;> cases g <;> rfl

end Session

/-! ## Actions of a session -/

/-- An action of a session that gives a value or refuses, and leaves another session behind either way. -/
structure Renderer (α : Type) where
  run : Session → Session × Except Refusal α

namespace Renderer

variable {α β : Type}

/-- One action after another; after a refusal nothing more is done. -/
def andThen (r : Renderer α) (k : α → Renderer β) : Renderer β where
  run s :=
    match r.run s with
    | (s', .ok a) => (k a).run s'
    | (s', .error e) => (s', .error e)

instance : Monad Renderer where
  pure a := ⟨fun s => (s, .ok a)⟩
  bind := andThen

/-- A refusal, with nothing written. -/
def refuse (e : Refusal) : Renderer α := ⟨fun s => (s, .error e)⟩

/-- An outcome that is known without writing. -/
def ofExcept (x : Except Refusal α) : Renderer α := ⟨fun s => (s, x)⟩

/-- Enters a header in the list of its file, unless the list has it. -/
def require (i : Include) : Renderer Unit := ⟨fun s => (s.addTo (s.destination i) i, .ok ())⟩

/-- The context of the session. -/
def context : Renderer Context := ⟨fun s => (s, .ok s.context)⟩

/-- The type of an expression, refused if it is not known. -/
def typeOf (e : Expr) : Renderer ValueType := do
  match (← context).types.typeOf e with
  | some t => return t
  | none => refuse (.untyped e.describe)

end Renderer

/-! ## Fragments -/

/-- A piece of C++ text, and how tightly its outermost part binds. -/
structure Fragment where
  text : String
  level : BindingLevel

namespace Fragment

/-- The text, in parentheses if it binds looser than a rank. -/
def atLeast (f : Fragment) (rank : Nat) : String := Cpp.group (decide (f.level.rank < rank)) f.text

/-- A C++ expression, written out. -/
def ofCpp (c : Cpp.Expr) : Fragment := ⟨c.render, c.level⟩

end Fragment

/-- A part of an expression, and the action that writes it. -/
structure Part where
  expr : Expr
  fragment : Renderer Fragment

/-- Writes a part as an operand that binds at least as tightly as a rank. -/
def Part.operand (p : Part) (rank : Nat) : Renderer String := do
  return (← p.fragment).atLeast rank

/-- Writes parts one after another, each as an argument. -/
def Part.arguments : List Part → Renderer (List String)
  | [] => pure []
  | p :: ps => do
    let t ← p.operand BindingLevel.conditional.rank
    let ts ← arguments ps
    return t :: ts

end ExprToCpp
