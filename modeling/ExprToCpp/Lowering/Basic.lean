import ExprToCpp.Lowering.MethodCall

/-!
# Lowering an expression

The C++ tree of an expression, and its text. This says what is written; how a session writes it, in one pass and without a tree,
is the matter of `Expr.renderer`.
-/

namespace ExprToCpp

namespace Expr

mutual

/-- What an expression becomes in C++. -/
def lower (Γ : Context) : Expr → Emission Cpp.Expr
  | .int n => pure (.ofInt n)
  | .float x => Context.float x
  | .bool b => pure (.bool b)
  | .str s => pure (.ofString s)
  | .bytes bs => pure (.ofBytes bs)
  | .array items => Γ.array (.array items) (lowerAll Γ items)
  | .name n => pure (Naming.reference n)
  | .member v a => (Naming.member · a) <$> lower Γ v
  | .subscript v i => Γ.subscript ⟨v, lower Γ v⟩ ⟨i, lower Γ i⟩
  | .binary op l r => Γ.binary op ⟨l, lower Γ l⟩ ⟨r, lower Γ r⟩
  | .unary op e => Context.unary op ⟨e, lower Γ e⟩
  | .conditional c t f => Context.conditional ⟨c, lower Γ c⟩ ⟨t, lower Γ t⟩ ⟨f, lower Γ f⟩
  | .cast v target => Γ.cast ⟨v, lower Γ v⟩ target
  | .enumLabel r label => Γ.enumLabel r label
  | .enumById r e => Γ.enumById r ⟨e, lower Γ e⟩
  | .method r m args => Γ.methodCall ⟨r, lower Γ r⟩ m (lowerAll Γ args)

/-- The items of a list with what each becomes. -/
def lowerAll (Γ : Context) : List Expr → List Operand
  | [] => []
  | e :: es => ⟨e, lower Γ e⟩ :: lowerAll Γ es

end

/-- The items of a list are lowered one by one. -/
theorem lowerAll_eq_map (Γ : Context) (es : List Expr) : lowerAll Γ es = es.map fun e => ⟨e, lower Γ e⟩ := by
  induction es with
  | nil => rfl
  | cons e es ih => simp [lowerAll, ih]

/-- The C++ text of an expression. -/
def emit (Γ : Context) (e : Expr) : Emission String := Cpp.Expr.render <$> e.lower Γ

end Expr

end ExprToCpp
