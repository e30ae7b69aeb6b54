import ExprToCpp.Rendering.MethodCall

/-!
# Rendering an expression

The text of an expression, written in one pass through it while the headers it calls for are entered in the lists of a session.
-/

namespace ExprToCpp

namespace Expr

mutual

/-- Writes an expression. -/
def renderer : Expr → Renderer Fragment
  | .int n => pure (.ofCpp (.ofInt n))
  | .float x => Rendering.float x
  | .bool b => pure (.ofCpp (.bool b))
  | .str s => pure (.ofCpp (.ofString s))
  | .bytes bs => pure (.ofCpp (.ofBytes bs))
  | .array items => Rendering.array (.array items) (parts items)
  | .name n => pure (.ofCpp (Naming.reference n))
  | .member v a => Rendering.member ⟨v, renderer v⟩ a
  | .subscript v i => Rendering.subscript ⟨v, renderer v⟩ ⟨i, renderer i⟩
  | .binary op l r => Rendering.binary op ⟨l, renderer l⟩ ⟨r, renderer r⟩
  | .unary op e => Rendering.unary op ⟨e, renderer e⟩
  | .conditional c t f => Rendering.conditional ⟨c, renderer c⟩ ⟨t, renderer t⟩ ⟨f, renderer f⟩
  | .cast v target => Rendering.cast ⟨v, renderer v⟩ target
  | .enumLabel d label => Rendering.enumLabel d label
  | .enumById d e => Rendering.enumById d ⟨e, renderer e⟩
  | .method r m args => Rendering.methodCall ⟨r, renderer r⟩ m (parts args)

/-- The expressions of a list, each with what writes it. -/
def parts : List Expr → List Part
  | [] => []
  | e :: es => ⟨e, renderer e⟩ :: parts es

end

/-- The parts of a list are those of its expressions. -/
theorem parts_eq_map (es : List Expr) : parts es = es.map fun e => ⟨e, renderer e⟩ := by
  induction es with
  | nil => rfl
  | cons e es ih => simp [parts, ih]

end Expr

/-- Writes the text of an expression in a session. -/
def Session.write (s : Session) (e : Expr) : Session × Except Refusal String := (Fragment.text <$> e.renderer).run s

end ExprToCpp
