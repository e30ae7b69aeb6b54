import ExprToCpp.Proofs.Comparison

/-!
# What the settings decide

The ownership discipline decides how array literals are made, whether they can be, and the handles that are cast to; where the
support functions are and what strings offer decides only the text. Two sessions that differ in their settings are compared step
by step: `Session.EmitsAlike` says that they refuse alike and register alike. Main statement: `emitsAlike_settings`.
-/

namespace ExprToCpp

/-- Records and arrays are held by handles. -/
def ValueType.isHandle : ValueType → Bool
  | .record _ | .array _ => true
  | _ => false

namespace Expr

/-- An array literal stands in an expression. -/
def HoldsArray (e : Expr) : Prop := ∃ items, (Expr.array items).IsPartOf e

/-- A cast to a handle stands in an expression. -/
def CastsToHandle (e : Expr) : Prop := ∃ v t, (Expr.cast v t).IsPartOf e ∧ t.isHandle = true

end Expr

/-! ## Refusals and needs -/

section

variable {types : Typing} {c d : Config} {e : Expr}

/-- What is asked before the parts are written is a matter of types alone. -/
theorem enter_eq_of_types (x : Expr) : Context.enter ⟨types, d⟩ x = Context.enter ⟨types, c⟩ x := by
  cases x <;> rfl

/-- What is asked afterwards depends on the ownership only at array literals, and there only on whether all pointers are shared. -/
theorem leave_eq_of_types {x : Expr} (h : ∀ items, x = .array items → (c.ownership = .shared ↔ d.ownership = .shared)) :
    Context.leave ⟨types, d⟩ x = Context.leave ⟨types, c⟩ x := by
  cases x with
  | array items =>
    have hshared := h items rfl
    simp only [Context.leave]
    by_cases hc : c.ownership = .shared
    · rw [hc, hshared.1 hc]
    · rw [decide_eq_true hc, decide_eq_true (mt hshared.2 hc)]
      rfl
  | _ => rfl

/-- The effect of lowering depends on the settings only through array literals, and there only on whether all pointers are
shared. -/
theorem effect_lower_of_types (h : e.HoldsArray → (c.ownership = .shared ↔ d.ownership = .shared)) :
    (e.lower ⟨types, d⟩).effect = (e.lower ⟨types, c⟩).effect :=
  effect_lower_congr fun x hx => ⟨enter_eq_of_types x, leave_eq_of_types fun items hitems => h ⟨items, hitems ▸ hx⟩⟩

/-- Where all pointers are shared, an expression with an array literal is refused. -/
theorem not_accepts_of_holdsArray (h : e.HoldsArray) (hc : c.ownership = .shared) : ¬ Context.Accepts ⟨types, c⟩ e := by
  obtain ⟨items, hitems⟩ := h
  intro haccepts
  have hleave := (accepts_iff_forall_passes.1 haccepts _ hitems).leave
  simp [Context.leave, hc] at hleave

/-! ## Texts -/

/-- Owning what is made does not show in the types of values. -/
theorem cppType_uniqueAndRaw (t : ValueType) : Ownership.uniqueAndRaw.cppType t = Ownership.raw.cppType t := by
  induction t with
  | array t ih =>
    rw [Ownership.cppType, Ownership.cppType, ih]
    rfl
  | float w => cases w <;> rfl
  | _ => rfl

/-- What is not held by a handle has the same C++ type under every discipline. -/
theorem cppType_eq_of_not_isHandle {t : ValueType} (h : t.isHandle = false) (o p : Ownership) : o.cppType t = p.cppType t := by
  cases t with
  | array t | record path => cases h
  | float w => cases w <;> rfl
  | _ => rfl

end

/-! ## Sessions -/

namespace Session

/-- An expression is emitted alike under plain pointers and with owning ones where an object is made, and to the same text if it
holds no array literal. If it holds none, it is emitted alike under plain and shared pointers, and to the same text if no cast in
it goes to a handle; if it holds one, it is never emitted under shared pointers. What strings offer and where the support functions
are changes neither refusals nor what is registered. -/
theorem emitsAlike_settings (types : Typing) (ends : Bool) (support : String) (source header : IncludeList) (active : UnitFile)
    (e : Expr) :
    let s (o : Ownership) (ends : Bool) (support : String) : Session := ⟨⟨types, ⟨o, ends, support⟩⟩, source, header, active⟩
    EmitsAlike (s .raw ends support) (s .uniqueAndRaw ends support) e (¬ e.HoldsArray) ∧
    (¬ e.HoldsArray → EmitsAlike (s .raw ends support) (s .shared ends support) e (¬ e.CastsToHandle)) ∧
    (e.HoldsArray → ∀ text, ((s .shared ends support).step (.emit e)).2 ≠ .emitted (.ok text)) ∧
    ∀ o ends' support', EmitsAlike (s o ends support) (s o ends' support') e False := by
  intro s
  refine ⟨?_, fun harray => ?_, fun harray text htext => ?_, fun o ends' support' => ?_⟩
  · refine emitsAlike_of_effect _ _ _ (effect_lower_of_types fun _ => iff_of_false nofun nofun) fun harray text => emit_eq_of_sameForms ?_
    exact ⟨fun _ _ => id, rfl, rfl, fun items hitems => absurd ⟨items, hitems⟩ harray, fun _ t _ => (cppType_uniqueAndRaw t).symm⟩
  · refine emitsAlike_of_effect _ _ _ (effect_lower_of_types fun h => absurd h harray) fun hcast text => emit_eq_of_sameForms ?_
    refine ⟨fun _ _ => id, rfl, rfl, fun items hitems => absurd ⟨items, hitems⟩ harray, fun v t ht => ?_⟩
    exact cppType_eq_of_not_isHandle (Bool.eq_false_iff.2 fun hhandle => hcast ⟨v, t, ht, hhandle⟩) _ _
  · exact not_accepts_of_holdsArray harray rfl (exists_emit_ok_iff.1 ⟨text, snd_step_emit_iff.1 htext⟩)
  · exact emitsAlike_of_effect _ _ _ (effect_lower_of_types fun _ => Iff.rfl) False.elim

end Session

end ExprToCpp
