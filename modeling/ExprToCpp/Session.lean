import ExprToCpp.Rendering.Basic

/-!
# Sessions

A session emits expressions one after another, in the file that is being written, and answers questions about types, settings and its
include lists.
-/

namespace ExprToCpp

namespace Session

/-- What a session is asked to do. -/
inductive Step where
  | emit (e : Expr)
  /-- Turns to a file. -/
  | select (file : UnitFile)
  | cppType (type : ValueType)
  | state
  | typeOf (e : Expr)
  | compareLists
  | add (file : UnitFile) (i : Include)
  | has (file : UnitFile) (i : Include)
  | size (file : UnitFile)
  | list (file : UnitFile)

/-- What a step answers. -/
inductive Answer where
  | done
  | emitted (outcome : Except Refusal String)
  | type (t : Cpp.Ty)
  | state (config : Config) (active : UnitFile)
  | typeOf (type : Option ValueType)
  | flag (b : Bool)
  | size (n : Nat) (isEmpty : Bool)
  | list (entries : List Include)

/-- Performs a step. -/
def step (s : Session) : Step → Session × Answer
  | .emit e =>
    match s.write e with
    | (s', outcome) => (s', .emitted outcome)
  | .select file => ({ s with active := file }, .done)
  | .cppType t => (s, .type (s.context.config.ownership.cppType t))
  | .state => (s, .state s.context.config s.active)
  | .typeOf e => (s, .typeOf (s.context.types.typeOf e))
  | .compareLists => (s, .flag (s.source.sameEntries s.header))
  | .add file i => (s.addTo file i, .flag (!(s.includes file).contains i))
  | .has file i => (s, .flag ((s.includes file).contains i))
  | .size file => (s, .size (s.includes file).size (s.includes file).isEmpty)
  | .list file => (s, .list (s.includes file).entries)

/-- Performs steps one after another: each answer with the session after it. -/
def run (s : Session) : List Step → List (Session × Answer)
  | [] => []
  | x :: xs => s.step x :: (s.step x).1.run xs

end Session

end ExprToCpp
