import ExprToCpp.Cpp.Expr

/-!
# The parentheses around operands

The text of an expression with the pairs of parentheses marked that the printer puts around an operand: around one that binds too
loosely for its place, and around one that begins with a minus after a minus. Parentheses that are part of a form, such as those of
a call, are text like any other. `ungroupings` are the texts that one of the marked pairs is left out of.
-/

namespace ExprToCpp.Cpp

/-- A text with some pairs of parentheses marked. -/
inductive Layout where
  | text (s : String)
  | append (a b : Layout)
  | grouped (inner : Layout)

namespace Layout

instance : Append Layout := ⟨append⟩

/-- The text of a layout. -/
def render : Layout → String
  | .text s => s
  | .append a b => a.render ++ b.render
  | .grouped l => "(" ++ l.render ++ ")"

/-- The texts in which one marked pair of parentheses is missing, and the others are there. -/
def ungroupings : Layout → List String
  | .text _ => []
  | .append a b => a.ungroupings.map (· ++ b.render) ++ b.ungroupings.map (a.render ++ ·)
  | .grouped l => l.render :: l.ungroupings.map fun s => "(" ++ s ++ ")"

/-- A layout in parentheses, if wanted. -/
def operand (wanted : Bool) (l : Layout) : Layout := if wanted then .grouped l else l

@[simp] theorem render_text (s : String) : (text s).render = s := rfl

/-- The text of two layouts in a row is their texts in a row. -/
@[simp] theorem render_append (a b : Layout) : (a ++ b).render = a.render ++ b.render := rfl

/-- The text of an operand is grouped where parentheses are wanted. -/
@[simp] theorem render_operand (wanted : Bool) (l : Layout) : (operand wanted l).render = group wanted l.render := by
  cases wanted <;> rfl

@[simp] theorem ungroupings_text (s : String) : (text s).ungroupings = [] := rfl

/-- A pair of parentheses that is taken away stands in one of the two halves; the other half stays. -/
theorem mem_ungroupings_append {a b : Layout} {s : String} :
    s ∈ (a ++ b).ungroupings ↔ (∃ x ∈ a.ungroupings, s = x ++ b.render) ∨ ∃ x ∈ b.ungroupings, s = a.render ++ x := by
  change s ∈ a.ungroupings.map (· ++ b.render) ++ b.ungroupings.map (a.render ++ ·) ↔ _
  simp only [List.mem_append, List.mem_map, eq_comm]

/-- It is the pair that a group adds, or one inside it. -/
theorem mem_ungroupings_grouped {l : Layout} {s : String} :
    s ∈ (grouped l).ungroupings ↔ s = l.render ∨ ∃ x ∈ l.ungroupings, s = "(" ++ x ++ ")" := by
  simp only [ungroupings, List.mem_cons, List.mem_map, eq_comm]

/-- An ungrouping is the text without an opening parenthesis and one after it that closes. -/
theorem exists_pair_of_mem_ungroupings {l : Layout} {s : String} (h : s ∈ l.ungroupings) :
    ∃ before inner after, l.render = before ++ "(" ++ inner ++ ")" ++ after ∧ s = before ++ inner ++ after := by
  induction l generalizing s with
  | text m => cases h
  | append a b iha ihb =>
    rcases mem_ungroupings_append.1 h with ⟨x, hx, rfl⟩ | ⟨x, hx, rfl⟩
    · obtain ⟨before, inner, after, htext, rfl⟩ := iha hx
      refine ⟨before, inner, after ++ b.render, ?_, by simp only [String.append_assoc]⟩
      rw [render, htext]
      simp only [String.append_assoc]
    · obtain ⟨before, inner, after, htext, rfl⟩ := ihb hx
      refine ⟨a.render ++ before, inner, after, ?_, by simp only [String.append_assoc]⟩
      rw [render, htext]
      simp only [String.append_assoc]
  | grouped l ih =>
    rcases mem_ungroupings_grouped.1 h with rfl | ⟨x, hx, rfl⟩
    · exact ⟨"", l.render, "", by simp [render], by simp⟩
    · obtain ⟨before, inner, after, htext, rfl⟩ := ih hx
      refine ⟨"(" ++ before, inner, after ++ ")", ?_, by simp only [String.append_assoc]⟩
      rw [render, htext]
      simp only [String.append_assoc]

end Layout

namespace Expr

open Layout

mutual

/-- The layout of an expression. -/
def layout : Expr → Layout
  | .int n s => text (Expr.int n s).render
  | .float d => text (Expr.float d).render
  | .bool b => text (Expr.bool b).render
  | .string style bytes => text (Expr.string style bytes).render
  | .name n => text n
  | .paren e => text "(" ++ (e.layout ++ text ")")
  | .call f args =>
    operand (f.looserThan BindingLevel.access.rank) f.layout ++ (text "(" ++ (layoutList args ++ text ")"))
  | .arrow e m => operand (e.looserThan BindingLevel.access.rank) e.layout ++ (text "->" ++ text m)
  | .dot e m => operand (e.looserThan BindingLevel.access.rank) e.layout ++ (text "." ++ text m)
  | .index e i =>
    operand (e.looserThan BindingLevel.access.rank) e.layout ++ (text "[" ++ (i.layout ++ text "]"))
  | .staticCast t e => text ("static_cast<" ++ t.render ++ ">") ++ (text "(" ++ (e.layout ++ text ")"))
  | .staticPointerCast t e => text ("std::static_pointer_cast<" ++ t.render ++ ">") ++ (text "(" ++ (e.layout ++ text ")"))
  | .new t items => text ("new " ++ t.render ++ "\x7b") ++ (layoutList items ++ text "\x7d")
  | .own t e => text (Ty.unique t).render ++ (text "(" ++ (e.layout ++ text ")"))
  | .unary op e =>
    text op.symbol ++
      operand (e.looserThan BindingLevel.unary.rank || op == .operator .neg && e.render.toList.head? == some '-') e.layout
  | .binary op l r =>
    operand (l.looserThan op.level.rank) l.layout ++
      (text (" " ++ op.symbol ++ " ") ++ operand (r.looserThan (op.level.rank + 1)) r.layout)
  | .conditional c t f => c.layout ++ (text " ? " ++ (t.layout ++ (text " : " ++ f.layout)))

/-- The layout of a list of expressions, with commas between them. -/
def layoutList : List Expr → Layout
  | [] => text ""
  | [e] => e.layout
  | e :: es => e.layout ++ (text ", " ++ layoutList es)

end

/-- Two reasons to group the operand of a prefix operator come down to one pair of parentheses. -/
theorem unaryText_group (op : PrefixOp) (wanted : Bool) (s : String) :
    unaryText op (group wanted s) = op.symbol ++ group (wanted || op == .operator .neg && s.toList.head? == some '-') s := by
  cases wanted with
  | false => rfl
  | true =>
    have hhead : (group true s).toList.head? = some '(' := by simp [group]
    rw [unaryText, hhead]
    simp [group]

/-- The layout of a list is written as the list is, if that holds of each of its items. -/
theorem render_layoutList {es : List Expr} (h : ∀ e ∈ es, e.layout.render = e.render) :
    (layoutList es).render = renderList es := by
  induction es with
  | nil => rfl
  | cons e es ih =>
    rw [List.forall_mem_cons] at h
    cases es with
    | nil => exact h.1
    | cons e' es =>
      change e.layout.render ++ (", " ++ (layoutList (e' :: es)).render) = e.render ++ ", " ++ renderList (e' :: es)
      rw [h.1, ih h.2, String.append_assoc]

/-- The layout of an expression has its text. -/
theorem render_layout (e : Expr) : e.layout.render = e.render := by
  induction e with
  | int | float | bool | string | name => rfl
  | paren e ih =>
    change "(" ++ (e.layout.render ++ ")") = "(" ++ e.render ++ ")"
    rw [ih, String.append_assoc]
  | call f args ihf ihargs =>
    change (operand _ f.layout).render ++ ("(" ++ ((layoutList args).render ++ ")")) =
      group _ f.render ++ "(" ++ renderList args ++ ")"
    rw [render_operand, ihf, render_layoutList ihargs, String.append_assoc, String.append_assoc]
  | arrow e m ih =>
    change (operand _ e.layout).render ++ ("->" ++ m) = group _ e.render ++ "->" ++ m
    rw [render_operand, ih, String.append_assoc]
  | dot e m ih =>
    change (operand _ e.layout).render ++ ("." ++ m) = group _ e.render ++ "." ++ m
    rw [render_operand, ih, String.append_assoc]
  | index e i ihe ihi =>
    change (operand _ e.layout).render ++ ("[" ++ (i.layout.render ++ "]")) = group _ e.render ++ "[" ++ i.render ++ "]"
    rw [render_operand, ihe, ihi, String.append_assoc, String.append_assoc]
  | staticCast t e ih =>
    change "static_cast<" ++ t.render ++ ">" ++ ("(" ++ (e.layout.render ++ ")")) =
      "static_cast<" ++ t.render ++ ">(" ++ e.render ++ ")"
    rw [ih, ← String.toList_inj]
    simp
  | staticPointerCast t e ih =>
    change "std::static_pointer_cast<" ++ t.render ++ ">" ++ ("(" ++ (e.layout.render ++ ")")) =
      "std::static_pointer_cast<" ++ t.render ++ ">(" ++ e.render ++ ")"
    rw [ih, ← String.toList_inj]
    simp
  | new t items ih =>
    change "new " ++ t.render ++ "\x7b" ++ ((layoutList items).render ++ "\x7d") =
      "new " ++ t.render ++ "\x7b" ++ renderList items ++ "\x7d"
    rw [render_layoutList ih]
    simp only [String.append_assoc]
  | own t e ih =>
    change (Ty.unique t).render ++ ("(" ++ (e.layout.render ++ ")")) = (Ty.unique t).render ++ "(" ++ e.render ++ ")"
    rw [ih, String.append_assoc, String.append_assoc]
  | unary op e ih =>
    change op.symbol ++ (operand _ e.layout).render = unaryText op (group _ e.render)
    rw [render_operand, ih, unaryText_group]
  | binary op l r ihl ihr =>
    change (operand _ l.layout).render ++ (" " ++ op.symbol ++ " " ++ (operand _ r.layout).render) =
      group _ l.render ++ " " ++ op.symbol ++ " " ++ group _ r.render
    rw [render_operand, render_operand, ihl, ihr]
    simp only [String.append_assoc]
  | conditional c t f ihc iht ihf =>
    change c.layout.render ++ (" ? " ++ (t.layout.render ++ (" : " ++ f.layout.render))) =
      c.render ++ " ? " ++ t.render ++ " : " ++ f.render
    rw [ihc, iht, ihf]
    simp only [String.append_assoc]

end Expr

/-! ## All parentheses of a text -/

/-- How many opening parentheses a text has. -/
def openings (text : String) : Nat := text.toList.count '('

/-- The parentheses that open in two texts in a row are counted one text after the other. -/
@[simp] theorem openings_append (s t : String) : openings (s ++ t) = openings s + openings t := by
  simp [openings]

namespace Layout

/-- The text of a layout has so many opening parentheses, and those of the marked pairs. -/
def Brings (l : Layout) (n : Nat) : Prop := openings l.render = n + l.ungroupings.length

variable {a b l : Layout} {m n : Nat}

theorem brings_text (s : String) : (text s).Brings (openings s) := rfl

/-- Two layouts in a row bring what each of them brings. -/
theorem Brings.append (ha : a.Brings m) (hb : b.Brings n) : (a ++ b).Brings (m + n) := by
  have hlength : (a ++ b).ungroupings.length = a.ungroupings.length + b.ungroupings.length := by
    change (a.ungroupings.map (· ++ b.render) ++ b.ungroupings.map (a.render ++ ·)).length = _
    simp
  rw [Brings, render_append, openings_append, hlength, ha, hb]
  omega

/-- The pair around an operand counts as a marked pair, not as one that the layout brings. -/
theorem Brings.operand (h : l.Brings n) (wanted : Bool) : (operand wanted l).Brings n := by
  cases wanted with
  | false => exact h
  | true =>
    have hlength : (Layout.operand true l).ungroupings.length = l.ungroupings.length + 1 := by simp [Layout.operand, ungroupings]
    have hpair : openings "(" = 1 ∧ openings ")" = 0 := by decide
    rw [Brings, hlength]
    change openings ("(" ++ l.render ++ ")") = _
    rw [openings_append, openings_append, hpair.1, hpair.2, h]
    omega

/-- A text without parentheses in front changes nothing. -/
theorem Brings.before (s : String) (h : l.Brings n) (hs : openings s = 0) : (text s ++ l).Brings n := by
  have hall := (brings_text s).append h
  rwa [hs, Nat.zero_add] at hall

theorem Brings.after (h : l.Brings n) (s : String) (hs : openings s = 0) : (l ++ text s).Brings n := by
  have hall := h.append (brings_text s)
  rwa [hs, Nat.add_zero] at hall

/-- Only the middle of a text counts if its ends have no parentheses. -/
theorem brings_around (s t u : String) (hs : openings s = 0) (hu : openings u = 0) : (text (s ++ t ++ u)).Brings (openings t) := by
  have hall := brings_text (s ++ t ++ u)
  rwa [openings_append, openings_append, hs, hu, Nat.zero_add, Nat.add_zero] at hall

/-- Parentheses that a form always has are its own. -/
theorem Brings.enclosed (h : l.Brings n) : (text "(" ++ (l ++ text ")")).Brings (n + 1) := by
  have hopening : openings "(" = 1 := by decide
  have hall := (brings_text "(").append (h.after ")" (by decide))
  rwa [hopening, Nat.add_comm] at hall

end Layout

namespace Expr

open Layout

mutual

/-- The opening parentheses that are not put around operands: those of the forms that have a pair of their own, and those within
literals, names and types. -/
def ownOpenings : Expr → Nat
  | .int n s => openings (Expr.int n s).render
  | .float d => openings (Expr.float d).render
  | .bool b => openings (Expr.bool b).render
  | .string style bytes => openings (Expr.string style bytes).render
  | .name n => openings n
  | .paren e => e.ownOpenings + 1
  | .call f args => f.ownOpenings + (ownOpeningsList args + 1)
  | .arrow e m | .dot e m => e.ownOpenings + openings m
  | .index e i => e.ownOpenings + i.ownOpenings
  | .staticCast t e | .staticPointerCast t e | .own t e => openings t.render + (e.ownOpenings + 1)
  | .new t items => openings t.render + ownOpeningsList items
  | .unary _ e => e.ownOpenings
  | .binary _ l r => l.ownOpenings + r.ownOpenings
  | .conditional c t f => c.ownOpenings + t.ownOpenings + f.ownOpenings

/-- Those of a list of expressions. -/
def ownOpeningsList : List Expr → Nat
  | [] => 0
  | e :: es => e.ownOpenings + ownOpeningsList es

end

/-- A list brings what its items bring, as commas are no parentheses. -/
theorem brings_layoutList {es : List Expr} (h : ∀ e ∈ es, e.layout.Brings e.ownOpenings) :
    (layoutList es).Brings (ownOpeningsList es) := by
  induction es with
  | nil => exact brings_text ""
  | cons e es ih =>
    rw [List.forall_mem_cons] at h
    cases es with
    | nil => exact h.1
    | cons e' es => exact h.1.append ((ih h.2).before ", " (by decide))

/-- All parentheses of an expression's text are its own or stand around an operand. -/
theorem brings_layout (e : Expr) : e.layout.Brings e.ownOpenings := by
  induction e with
  | int | float | bool | string | name => exact brings_text _
  | paren e ih => exact ih.enclosed
  | call f args ihf ihargs => exact (ihf.operand _).append (brings_layoutList ihargs).enclosed
  | arrow e m ih => exact (ih.operand _).append ((brings_text m).before "->" (by decide))
  | dot e m ih => exact (ih.operand _).append ((brings_text m).before "." (by decide))
  | index e i ihe ihi => exact (ihe.operand _).append ((ihi.after "]" (by decide)).before "[" (by decide))
  | staticCast t e ih => exact (brings_around "static_cast<" t.render ">" (by decide) (by decide)).append ih.enclosed
  | staticPointerCast t e ih =>
    exact (brings_around "std::static_pointer_cast<" t.render ">" (by decide) (by decide)).append ih.enclosed
  | new t items ih =>
    have hitems := (brings_layoutList ih).after "\x7d" (by decide)
    exact (brings_around "new " t.render "\x7b" (by decide) (by decide)).append hitems
  | own t e ih => exact (brings_around "std::unique_ptr<" t.render ">" (by decide) (by decide)).append ih.enclosed
  | unary op e ih =>
    have hop : openings op.symbol = 0 := by
      cases op with
      | operator op => cases op <;> decide
      | deref => decide
    exact (ih.operand _).before op.symbol hop
  | binary op l r ihl ihr =>
    have hop : openings (" " ++ op.symbol ++ " ") = 0 := by cases op <;> decide
    exact (ihl.operand _).append ((ihr.operand _).before _ hop)
  | conditional c t f ihc iht ihf =>
    have hrest := (iht.append (ihf.before " : " (by decide))).before " ? " (by decide)
    have hall := ihc.append hrest
    rw [← Nat.add_assoc] at hall
    exact hall

end Expr

end ExprToCpp.Cpp
