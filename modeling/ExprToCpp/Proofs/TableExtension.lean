import ExprToCpp.Proofs.CommonType
import ExprToCpp.Proofs.Comparison

/-!
# Larger type tables

A table that has every entry of another gives every type that the other gives, and emits what is emitted with the other to the
same text and with the same headers. Emitting asks for types and goes on only with an answer, so what a smaller table does not
know has decided nothing. Main statement: `emit_of_extends`.
-/

namespace ExprToCpp

/-! ## Types -/

namespace TypeTable

/-- A table has every entry of another, and is of the same class. -/
structure Extends (U T : TypeTable) : Prop where
  enclosingClass : U.enclosingClass = T.enclosingClass
  nameType? : ∀ n t, T.nameType? n = some t → U.nameType? n = some t
  memberType? : ∀ record attr t, T.memberType? record attr = some t → U.memberType? record attr = some t

theorem Extends.trans {T U V : TypeTable} (hVU : V.Extends U) (hUT : U.Extends T) : V.Extends T where
  enclosingClass := hVU.enclosingClass.trans hUT.enclosingClass
  nameType? n t h := hVU.nameType? n t (hUT.nameType? n t h)
  memberType? record attr t h := hVU.memberType? record attr t (hUT.memberType? record attr t h)

/-- A declaration that hides no other gives a larger table. -/
theorem extends_declareName {T : TypeTable} {n : String} (h : T.nameType? n = none) (type : ValueType) :
    (T.declareName n type).Extends T where
  enclosingClass := rfl
  nameType? m t hm := by
    have hne : m ≠ n := by
      rintro rfl
      cases h.symm.trans hm
    rw [nameType?_declareName, if_neg hne, hm]
  memberType? _ _ _ := id

/-- Declaring a member that has no type yet extends a table. -/
theorem extends_declareMember {T : TypeTable} {record : List String} {attr : String} (h : T.memberType? record attr = none)
    (type : ValueType) : (T.declareMember record attr type).Extends T where
  enclosingClass := rfl
  nameType? _ _ := id
  memberType? r a t hm := by
    have hne : (r, a) ≠ (record, attr) := by
      rintro ⟨⟩
      cases h.symm.trans hm
    rw [memberType?_declareMember, if_neg hne, hm]

end TypeTable

namespace TypeTable

variable {T U : TypeTable}

/-- Items that have a common type keep their types if each of them keeps its own. -/
theorem typesOf_eq_of_common {items : List Expr} {u : ValueType} (h : ValueType.commonOfAll? (T.typesOf items) = some u)
    (hitems : ∀ x ∈ items, ∀ t, T.typeOf x = some t → U.typeOf x = some t) : U.typesOf items = T.typesOf items := by
  have hsome := (ValueType.isCommonOf_of_commonOfAll? h).typed
  rw [typesOf_eq_map] at hsome
  rw [typesOf_eq_map, typesOf_eq_map]
  apply List.map_congr_left
  intro x hx
  obtain ⟨a, ha⟩ := hsome _ (List.mem_map_of_mem hx)
  rw [ha, hitems x hx a ha]

/-- A larger table gives the types that the smaller one gives. -/
theorem Extends.typeOf (h : U.Extends T) (e : Expr) : ∀ t, T.typeOf e = some t → U.typeOf e = some t := by
  induction e with
  | array items ih =>
    intro t ht
    obtain ⟨u, hu, rfl⟩ := Option.map_eq_some_iff.1 ht
    change (ValueType.commonOfAll? (U.typesOf items)).map ValueType.array = _
    rw [typesOf_eq_of_common hu ih, hu]
    rfl
  | name n => exact h.nameType? n
  | member v a ih =>
    -- the table is asked only for members of a record whose path is known
    intro t ht
    rw [TypeTable.typeOf] at ht ⊢
    split at ht
    · next path hv =>
      rw [ih _ hv]
      exact h.memberType? path a t ht
    · cases ht
  | subscript v i ihv ihi =>
    intro t ht
    obtain ⟨u, hu, helement⟩ := Option.bind_eq_some_iff.1 ht
    exact Option.bind_eq_some_iff.2 ⟨u, ihv u hu, helement⟩
  | binary op l r ihl ihr =>
    intro t ht
    rw [TypeTable.typeOf] at ht ⊢
    cases hclass : op.operatorClass with
    | comparison | logical => rwa [hclass] at ht
    | arithmetic | bitwise =>
      rw [hclass] at ht
      obtain ⟨a, ha, ht⟩ := Option.bind_eq_some_iff.1 ht
      obtain ⟨b, hb, ht⟩ := Option.bind_eq_some_iff.1 ht
      exact Option.bind_eq_some_iff.2 ⟨a, ihl a ha, Option.bind_eq_some_iff.2 ⟨b, ihr b hb, ht⟩⟩
  | unary op e ih =>
    cases op with
    | not => exact fun _ => id
    | neg | invert => exact ih
  | conditional c t f ihc iht ihf => exact iht
  | method r m args ihr ihargs =>
    cases m with
    | length | size | toInt | substring | reverse | toStr => exact fun _ => id
    | min | max | first | last =>
      intro t ht
      obtain ⟨u, hu, helement⟩ := Option.bind_eq_some_iff.1 ht
      exact Option.bind_eq_some_iff.2 ⟨u, ihr u hu, helement⟩
  | _ => exact fun _ => id

end TypeTable

/-! ## Contexts -/

namespace Context

/-- A context knows the types that another knows, and is otherwise the same. -/
structure Extends (Δ Γ : Context) : Prop where
  config : Δ.config = Γ.config
  enclosingClass : Δ.types.enclosingClass = Γ.types.enclosingClass
  typeOf : ∀ x t, Γ.types.typeOf x = some t → Δ.types.typeOf x = some t

namespace Extends

variable {Γ Δ : Context} (h : Δ.Extends Γ) {e x : Expr}

include h

/-- Expressions whose types are known take the same form under an extension. -/
theorem sameForms : Γ.SameForms Δ e where
  typeOf := h.typeOf
  stringEnds := by rw [h.config]
  supportClass := by rw [h.config]
  arrays _ _ := by rw [h.config]
  casts _ _ _ := by rw [h.config]

/-- What goes on with a type goes on with the same type. -/
theorem typeOf_bind {f g : ValueType → Emission Unit} (hpass : (Γ.typeOf x >>= f).outcome = .ok ())
    (hfg : ∀ t, (f t).outcome = .ok () → g t = f t) : Δ.typeOf x >>= g = Γ.typeOf x >>= f := by
  obtain ⟨t, ht, hf⟩ := Emission.outcome_bind_eq_ok.1 hpass
  rw [outcome_typeOf_eq_ok] at ht
  rw [typeOf_of_some ht, typeOf_of_some (h.typeOf x t ht), pure_bind, pure_bind, hfg t hf]

/-- A type that is asked for and known is known under an extension. -/
theorem effect_typeOf (hpass : (Γ.typeOf x).effect.outcome = .ok ()) : (Δ.typeOf x).effect = (Γ.typeOf x).effect := by
  obtain ⟨t, ht⟩ := Emission.outcome_effect_eq_ok.1 hpass
  rw [outcome_typeOf_eq_ok] at ht
  rw [typeOf_of_some ht, typeOf_of_some (h.typeOf x t ht)]

/-- An operator asks the same types: both of a remainder, the right one of an ordering only where the left one is textual. -/
theorem enter_binary {op : BinaryOp} {l r : Expr} (hpass : (Γ.enter (.binary op l r)).outcome = .ok ()) :
    Δ.enter (.binary op l r) = Γ.enter (.binary op l r) := by
  simp only [enter] at hpass ⊢
  by_cases hmod : op = .mod
  · rw [if_pos hmod] at hpass ⊢
    rw [if_pos hmod]
    exact h.typeOf_bind hpass fun a ha => h.typeOf_bind ha fun _ _ => rfl
  · rw [if_neg hmod] at hpass ⊢
    rw [if_neg hmod]
    by_cases hop : op.isOrdering
    · rw [if_pos hop] at hpass ⊢
      rw [if_pos hop]
      refine h.typeOf_bind hpass fun a ha => ?_
      cases htext : a.isTextual with
      | true =>
        rw [htext] at ha
        exact h.effect_typeOf ha
      | false => rfl
    · rw [if_neg hop, if_neg hop]

/-- What passes before its parts asks for the same under an extension. -/
theorem enter_eq (hpass : (Γ.enter x).outcome = .ok ()) : Δ.enter x = Γ.enter x := by
  cases x with
  | array items => exact h.typeOf_bind hpass fun _ _ => rfl
  | subscript v i => exact h.effect_typeOf hpass
  | binary op l r => exact h.enter_binary hpass
  | enumLabel d label | enumById d v => simp only [enter, needEnum, h.enclosingClass]
  | method r m args =>
    simp only [enter] at hpass ⊢
    split at hpass
    · next hacc =>
      rw [if_pos hacc, if_pos hacc]
      exact h.typeOf_bind hpass fun _ _ => rfl
    · cases hpass
  | _ => rfl

theorem leave_eq (hpass : (Γ.leave x).outcome = .ok ()) : Δ.leave x = Γ.leave x := by
  cases x with
  | array items => rw [leave, leave, h.config]
  | subscript v i => exact h.typeOf_bind hpass fun _ _ => rfl
  | method r m args => exact h.typeOf_bind hpass fun _ _ => rfl
  | _ => rfl

/-- What is accepted has the same effect where more types are known. -/
theorem effect_lower_eq (haccepts : Γ.Accepts e) : (e.lower Δ).effect = (e.lower Γ).effect := by
  refine effect_lower_congr fun x hx => ?_
  have hpass := accepts_iff_forall_passes.1 haccepts x hx
  exact ⟨h.enter_eq hpass.enter, h.leave_eq hpass.leave⟩

end Extends

end Context

/-! ## Sessions -/

/-- A session that takes its types from a table. -/
def Session.typedBy (s : Session) (T : TypeTable) : Session := { s with context.types := T.toTyping }

/-- Sessions typed by a table and an extension of it. -/
theorem TypeTable.Extends.context {T U : TypeTable} (h : U.Extends T) (s : Session) :
    (s.typedBy U).context.Extends (s.typedBy T).context :=
  ⟨rfl, h.enclosingClass, h.typeOf⟩

/-- A larger table gives the types that the smaller one gives. What any session emits with the smaller one it emits with the larger
one, to the same text and leaving the same lists. -/
theorem TypeTable.emit_of_extends {T U : TypeTable} (h : U.Extends T) (e : Expr) :
    (∀ t, T.typeOf e = some t → U.typeOf e = some t) ∧
    ∀ (s : Session) (text : String), ((s.typedBy T).step (.emit e)).2 = .emitted (.ok text) →
      ((s.typedBy U).step (.emit e)).2 = .emitted (.ok text) ∧
      ((s.typedBy U).step (.emit e)).1.source = ((s.typedBy T).step (.emit e)).1.source ∧
      ((s.typedBy U).step (.emit e)).1.header = ((s.typedBy T).step (.emit e)).1.header := by
  refine ⟨h.typeOf e, fun s text htext => ?_⟩
  have hctx := h.context s
  have hok : (e.emit (s.typedBy T).context).outcome = .ok text := Session.snd_step_emit_iff.1 htext
  -- every type that was asked for was known, so all nodes do with the larger table what they did
  have heffect := hctx.effect_lower_eq (exists_emit_ok_iff.1 ⟨text, hok⟩)
  have halike := Session.emitsAlike_of_effect s.source s.header s.active heffect
    fun (_ : True) _ => emit_eq_of_sameForms hctx.sameForms
  exact ⟨Session.snd_step_emit_iff.2 (emit_eq_of_sameForms hctx.sameForms hok), halike.source.symm, halike.header.symm⟩

/-- Next to a number the right operand of an ordering may have an unknown type, and the operator stays where a larger table gives it
the type of a text. -/
theorem TypeTable.emit_of_extends_order :
    let T : TypeTable := ({} : TypeTable).declareName "sizes" (.array (.int ⟨true, .four⟩))
    let U : TypeTable := (T.declareName "entry" (.record ["entry"])).declareMember ["entry"] "label" .str
    let r : Expr := .member (.name "entry") "label"
    let e : Expr := .binary .lt (.method (.name "sizes") .max []) r
    let s : Session := { context := ⟨T.toTyping, .conservative⟩ }
    U.Extends T ∧ T.typeOf r = none ∧ U.typeOf r = some .str ∧ U.typeOf e = some .bool ∧
      ∃ text, ((s.typedBy T).step (.emit e)).2 = .emitted (.ok text) ∧ ((s.typedBy U).step (.emit e)).2 = .emitted (.ok text) := by
  intro T U r e s
  have hextends : U.Extends T := (extends_declareMember rfl .str).trans (extends_declareName rfl _)
  obtain ⟨c, hc⟩ : ∃ c, Lowers (s.typedBy T).context e c :=
    ⟨_, .order rfl (a := .int ⟨true, .four⟩) rfl nofun (.extremeItem (Or.inr rfl) rfl (.name "sizes")) (.member (.name "entry"))⟩
  have hemit : ((s.typedBy T).step (.emit e)).2 = .emitted (.ok c.render) :=
    Session.snd_step_emit_iff.2 (emit_ok_iff_lowers.2 ⟨c, hc, rfl⟩)
  obtain ⟨htypes, hemits⟩ := emit_of_extends hextends e
  exact ⟨hextends, rfl, rfl, htypes .bool rfl, c.render, hemit, (hemits s _ hemit).1⟩

end ExprToCpp
