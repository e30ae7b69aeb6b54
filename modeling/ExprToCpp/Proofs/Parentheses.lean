import ExprToCpp.Proofs.Cpp.Grouping
import ExprToCpp.Proofs.ReadBack

/-!
# Every pair of parentheses around an operand is needed

Where nothing owns what it makes, each pair of parentheses that the printer puts around an operand of an emitted text matters:
without it, the text is not read or is read as another tree. An owning pointer is written as a call and treated as an operator, so
the pairs around it are not of this kind. Main statement: `emit_parentheses_needed`.
-/

namespace ExprToCpp

open Cpp

/-- The text emitted for an expression is that of a layout, in which every parenthesis is marked that is not part of a form, a
literal, a name or a type. The text is read as the tree it is written for, unless a keyword stands next to `::` in a name, and even
then if a qualified name is taken for one word; without a marked pair it is not, in either way. -/
theorem emit_parentheses_needed (T : TypeTable) (config : Config) (e : Expr) (text : String) (hT : T.WellNamed)
    (hconfig : config.WellNamed) (he : e.WellNamed) (howner : config.ownership ≠ .uniqueAndRaw)
    (h : (e.emit ⟨T.toTyping, config⟩).outcome = .ok text) :
    ∃ c, (∀ c', Lowers ⟨T.toTyping, config⟩ e c' ↔ c' = c) ∧ c.layout.render = text ∧ Cpp.readJoined text = some c.tree ∧
      (c.tree.Scoped → Cpp.read text = some c.tree) ∧ (¬c.tree.Scoped → Cpp.read text = none) ∧
      openings text = c.ownOpenings + c.layout.ungroupings.length ∧
      ∀ s ∈ c.layout.ungroupings,
        (∃ before inner after, text = before ++ "(" ++ inner ++ ")" ++ after ∧ s = before ++ inner ++ after) ∧
          Cpp.readJoined s ≠ Cpp.readJoined text ∧ Cpp.read s ≠ some c.tree := by
  obtain ⟨c, hunique, rfl⟩ := exists_lowers_of_emit h
  have hwf : c.WellFormed false := by
    have hwf := wellFormed_of_lowers hT hconfig he ((hunique c).2 rfl)
    rwa [beq_false_of_ne howner] at hwf
  have hjoined : readJoined c.render = some c.tree := hwf.rendered.readJoined_render
  refine ⟨c, hunique, c.render_layout, hjoined, hwf.rendered.read_render, hwf.rendered.read_render_eq_none, ?_,
    fun s hs => ⟨?_, ?_, ?_⟩⟩
  · rw [← c.render_layout]
    exact c.brings_layout
  · rw [← c.render_layout]
    exact Layout.exists_pair_of_mem_ungroupings hs
  · rw [hjoined]
    exact Cpp.Expr.readJoined_ungrouping_ne hwf hs
  · exact Cpp.Expr.read_ungrouping_ne hwf hs

/-- A sum that is multiplied, and a minus before a negative number. -/
theorem emit_parentheses_needed_product :
    Cpp.read "a() + b() * -(-3)" ≠ Cpp.read "(a() + b()) * -(-3)" ∧
      Cpp.read "(a() + b()) * --3" ≠ Cpp.read "(a() + b()) * -(-3)" := by
  have hT : ({} : TypeTable).WellNamed := ⟨nofun, nofun⟩
  have hconfig : Config.conservative.WellNamed := ⟨["kaitai", "kstream"], by simp, by simp [IsIdentifier]; decide, rfl⟩
  have he : Expr.WellNamed (.binary .mul (.binary .add (.name "a") (.name "b")) (.unary .neg (.int (-3)))) :=
    .binary (.binary (.name (by decide)) (.name (by decide))) (.unary (.int (-3)))
  obtain ⟨c, hunique, -, -, hread, -, -, hneeded⟩ := emit_parentheses_needed _ .conservative _ "(a() + b()) * -(-3)" hT hconfig he
    (by decide) rfl
  obtain rfl := (hunique _).1 ((outcome_lower_iff _ _ _).1 rfl)
  have ha : ScopedName "a" := by decide +kernel
  have hb : ScopedName "b" := by decide +kernel
  rw [hread ⟨⟨⟨ha, trivial⟩, hb, trivial⟩, trivial⟩]
  exact ⟨(hneeded _ (by decide)).2.2, (hneeded _ (by decide)).2.2⟩

end ExprToCpp
