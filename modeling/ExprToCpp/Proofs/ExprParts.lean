import ExprToCpp.Proofs.Lowering

/-!
# The parts of an expression

The direct parts of an expression and its parts at any depth, for what is the same for all forms: `inductParts` proves from the
parts to the whole, `exists_lowers_part` goes from the whole to its parts.
-/

namespace ExprToCpp

namespace Expr

/-- The direct parts of an expression. -/
@[simp] def children : Expr → List Expr
  | .array items => items
  | .member v _ | .unary _ v | .cast v _ | .enumById _ v => [v]
  | .subscript v i => [v, i]
  | .binary _ l r => [l, r]
  | .conditional c t f => [c, t, f]
  | .method r _ args => r :: args
  | .int _ | .float _ | .bool _ | .str _ | .bytes _ | .name _ | .enumLabel _ _ => []

theorem sizeOf_lt_of_mem_children {x e : Expr} (h : x ∈ e.children) : sizeOf x < sizeOf e := by
  cases e with
  | int _ | float _ | bool _ | str _ | bytes _ | name _ | enumLabel _ _ => cases h
  | array items =>
    have hitem : sizeOf x < sizeOf items := List.sizeOf_lt_of_mem h
    simp only [array.sizeOf_spec]
    omega
  | member v _ | unary _ v | cast v _ | enumById _ v =>
    obtain rfl := List.mem_singleton.1 h
    simp only [member.sizeOf_spec, unary.sizeOf_spec, cast.sizeOf_spec, enumById.sizeOf_spec]
    omega
  | subscript v i | binary _ v i =>
    simp only [children, List.mem_cons, List.not_mem_nil, or_false] at h
    simp only [subscript.sizeOf_spec, binary.sizeOf_spec]
    rcases h with rfl | rfl <;> omega
  | conditional c t f =>
    simp only [children, List.mem_cons, List.not_mem_nil, or_false] at h
    simp only [conditional.sizeOf_spec]
    rcases h with rfl | rfl | rfl <;> omega
  | method r m args =>
    simp only [method.sizeOf_spec]
    rcases List.mem_cons.1 h with rfl | hargs
    · omega
    · have harg : sizeOf x < sizeOf args := List.sizeOf_lt_of_mem hargs
      omega

/-- What holds of an expression whenever it holds of its parts holds of every expression. -/
theorem inductParts {motive : Expr → Prop} (step : ∀ e, (∀ x ∈ e.children, motive x) → motive e) (e : Expr) : motive e :=
  step e fun x _ => inductParts step x
termination_by sizeOf e
decreasing_by exact sizeOf_lt_of_mem_children ‹_›

/-- An expression is part of itself, and the parts of its parts are. -/
inductive IsPartOf (x : Expr) : Expr → Prop where
  | self : IsPartOf x x
  | child {y e : Expr} : y ∈ e.children → IsPartOf x y → IsPartOf x e

/-- What holds of all parts holds of the root and of the parts of its children. -/
theorem forall_isPartOf {P : Expr → Prop} {e : Expr} :
    (∀ x, x.IsPartOf e → P x) ↔ P e ∧ ∀ y ∈ e.children, ∀ x, x.IsPartOf y → P x := by
  constructor
  · intro h
    exact ⟨h e .self, fun y hy x hx => h x (.child hy hx)⟩
  · rintro ⟨he, hparts⟩ x hx
    cases hx with
    | self => exact he
    | child hy hx => exact hparts _ hy x hx

/-- A part is the root or a part of a child. -/
theorem exists_isPartOf {P : Expr → Prop} {e : Expr} :
    (∃ x, x.IsPartOf e ∧ P x) ↔ P e ∨ ∃ y ∈ e.children, ∃ x, x.IsPartOf y ∧ P x := by
  constructor
  · rintro ⟨x, hx, hP⟩
    cases hx with
    | self => exact Or.inl hP
    | child hy hx => exact Or.inr ⟨_, hy, x, hx, hP⟩
  · rintro (hP | ⟨y, hy, x, hx, hP⟩)
    · exact ⟨e, .self, hP⟩
    · exact ⟨x, .child hy hx, hP⟩

end Expr

section

variable {Γ : Context} {c : Cpp.Expr}

/-- What is lowered has all its parts lowered, also those that are not written. -/
theorem exists_lowers_child {e x : Expr} (h : Lowers Γ e c) (hx : x ∈ e.children) : ∃ d, Lowers Γ x d := by
  -- the radix ten and the name of an encoding are arguments that are read and never lowered
  have hradix : ∀ args, IsRadixTen args → x ∈ args → ∃ d, Lowers Γ x d := by
    rintro args (rfl | rfl) hx
    · cases hx
    · obtain rfl := List.mem_singleton.1 hx
      exact ⟨_, .int 10⟩
  cases h with
  | array _ hitems _ =>
    obtain ⟨d, -, hd⟩ := exists_lowers_of_mem_left hitems hx
    exact ⟨d, hd⟩
  | intText _ hargs h | parsed _ hargs h =>
    rcases List.mem_cons.1 hx with rfl | hx
    · exact ⟨_, h⟩
    · exact hradix _ hargs hx
  | @decoded _ encoding _ _ h =>
    rcases List.mem_cons.1 hx with rfl | hx
    · exact ⟨_, h⟩
    · obtain rfl := List.mem_singleton.1 hx
      exact ⟨_, .str encoding⟩
  | _ => grind [Expr.children]

/-- What is lowered has all its parts lowered. -/
theorem exists_lowers_part {e x : Expr} (h : Lowers Γ e c) (hx : x.IsPartOf e) : ∃ d, Lowers Γ x d := by
  induction hx generalizing c with
  | self => exact ⟨c, h⟩
  | child hy _ ih =>
    obtain ⟨d, hd⟩ := exists_lowers_child h hy
    exact ih hd

end

end ExprToCpp
