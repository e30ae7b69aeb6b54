import ExprToCpp.Proofs.Effect
import ExprToCpp.Proofs.Registration

/-!
# Equal expressions

Equality of expressions goes by their structure, and at floats by the comparison of IEEE 754, where a NaN differs from itself and
the two zeros are equal. `Expr.Equal` is this relation, one rule for each form. It is symmetric and transitive, and reflexive on the
expressions that hold no NaN. Equal expressions have the same type. Their texts and refusals may differ, since a zero shows its
sign in both; but they run alike: they need the same headers, and both are emitted or both are refused.
-/

namespace ExprToCpp

/-- Two functions agree on related lists if they agree on related items. -/
theorem map_eq_of_forall₂ {α β γ : Type} {R : α → β → Prop} {f : α → γ} {g : β → γ} {xs : List α} {ys : List β}
    (h : List.Forall₂ R xs ys) (hfg : ∀ x ∈ xs, ∀ y, R x y → f x = g y) : xs.map f = ys.map g := by
  rw [← List.forall₂_eq_eq_eq, List.forall₂_map_left_iff, List.forall₂_map_right_iff]
  exact forall₂_of_forall_mem h hfg

/-! ## Floats -/

namespace Binary64

variable {x y z : Binary64}

/-- Equal values have equal bits, or both are zero. -/
theorem ieeeEq_iff : x.ieeeEq y = true ↔ x.isNaN = false ∧ y.isNaN = false ∧ (x = y ∨ x.isZero = true ∧ y.isZero = true) := by
  simp [ieeeEq, and_assoc]

/-- Equality of floats is transitive. -/
theorem ieeeEq_trans (h : x.ieeeEq y = true) (h' : y.ieeeEq z = true) : x.ieeeEq z = true := by
  rw [ieeeEq_iff] at h h' ⊢
  obtain ⟨hx, -, hxy⟩ := h
  obtain ⟨-, hz, hyz⟩ := h'
  refine ⟨hx, hz, ?_⟩
  rcases hxy with rfl | ⟨hx0, hy0⟩
  · exact hyz
  · rcases hyz with rfl | ⟨-, hz0⟩
    · exact Or.inr ⟨hx0, hy0⟩
    · exact Or.inr ⟨hx0, hz0⟩

theorem isFinite_of_isZero (h : x.isZero = true) : x.isFinite = true := by
  simp only [isZero, Bool.and_eq_true, beq_iff_eq] at h
  simp [isFinite, h.1]

/-- Equal floats are both finite or both not. -/
theorem isFinite_of_ieeeEq (h : x.ieeeEq y = true) : x.isFinite = y.isFinite := by
  obtain ⟨-, -, rfl | ⟨hx, hy⟩⟩ := ieeeEq_iff.1 h
  · rfl
  · rw [isFinite_of_isZero hx, isFinite_of_isZero hy]

end Binary64

/-! ## Equality by structure -/

namespace Expr

/-- Two expressions have the same form, with the same names and literals in it and floats that compare as equal. -/
inductive Equal : Expr → Expr → Prop where
  | int (n : Int) : Equal (.int n) (.int n)
  | float {x y : Binary64} : x.ieeeEq y = true → Equal (.float x) (.float y)
  | bool (b : Bool) : Equal (.bool b) (.bool b)
  | str (s : String) : Equal (.str s) (.str s)
  | bytes (bs : List UInt8) : Equal (.bytes bs) (.bytes bs)
  | array {xs ys : List Expr} : List.Forall₂ Equal xs ys → Equal (.array xs) (.array ys)
  | name (n : String) : Equal (.name n) (.name n)
  | member {v w : Expr} (a : String) : Equal v w → Equal (.member v a) (.member w a)
  | subscript {v w i j : Expr} : Equal v w → Equal i j → Equal (.subscript v i) (.subscript w j)
  | binary (op : BinaryOp) {l l' r r' : Expr} : Equal l l' → Equal r r' → Equal (.binary op l r) (.binary op l' r')
  | unary (op : UnaryOp) {e f : Expr} : Equal e f → Equal (.unary op e) (.unary op f)
  | conditional {c c' t t' f f' : Expr} : Equal c c' → Equal t t' → Equal f f' →
      Equal (.conditional c t f) (.conditional c' t' f')
  | cast {v w : Expr} (t : ValueType) : Equal v w → Equal (.cast v t) (.cast w t)
  | enumLabel (d : EnumDecl) (label : String) : Equal (.enumLabel d label) (.enumLabel d label)
  | enumById (d : EnumDecl) {e f : Expr} : Equal e f → Equal (.enumById d e) (.enumById d f)
  | method {e f : Expr} (m : Method) {xs ys : List Expr} : Equal e f → List.Forall₂ Equal xs ys →
      Equal (.method e m xs) (.method f m ys)

/-- Lists that compare equal have equal items. -/
theorem forall₂_equal_of_beqAll {xs ys : List Expr} (h : beqAll xs ys = true)
    (hxs : ∀ x ∈ xs, ∀ y, x.beq y = true → Equal x y) : List.Forall₂ Equal xs ys := by
  induction xs generalizing ys with
  | nil =>
    cases ys with
    | nil => exact .nil
    | cons y ys => cases h
  | cons x xs ih =>
    obtain ⟨hx, hrest⟩ := List.forall_mem_cons.1 hxs
    cases ys with
    | nil => cases h
    | cons y ys =>
      rw [beqAll, Bool.and_eq_true] at h
      exact .cons (hx y h.1) (ih h.2 hrest)

/-- Expressions that compare equal are equal node by node. -/
theorem equal_of_beq {a b : Expr} (h : a.beq b = true) : Equal a b := by
  induction a generalizing b with
  | int n =>
    cases b with
    | int m => rw [beq, beq_iff_eq] at h; exact h ▸ .int n
    | _ => cases h
  | float x =>
    cases b with
    | float y => exact .float h
    | _ => cases h
  | bool p =>
    cases b with
    | bool q => rw [beq, beq_iff_eq] at h; exact h ▸ .bool p
    | _ => cases h
  | str s =>
    cases b with
    | str t => rw [beq, beq_iff_eq] at h; exact h ▸ .str s
    | _ => cases h
  | bytes bs =>
    cases b with
    | bytes cs => rw [beq, beq_iff_eq] at h; exact h ▸ .bytes bs
    | _ => cases h
  | array xs ih =>
    cases b with
    | array ys => exact .array (forall₂_equal_of_beqAll h fun x hx _ => ih x hx)
    | _ => cases h
  | name n =>
    cases b with
    | name m => rw [beq, beq_iff_eq] at h; exact h ▸ .name n
    | _ => cases h
  | member v n ih =>
    cases b with
    | member w m =>
      simp only [beq, Bool.and_eq_true, beq_iff_eq] at h
      obtain ⟨hv, rfl⟩ := h
      exact .member n (ih hv)
    | _ => cases h
  | subscript v i ihv ihi =>
    cases b with
    | subscript w j =>
      simp only [beq, Bool.and_eq_true] at h
      exact .subscript (ihv h.1) (ihi h.2)
    | _ => cases h
  | binary op l r ihl ihr =>
    cases b with
    | binary op' l' r' =>
      simp only [beq, Bool.and_eq_true, beq_iff_eq] at h
      obtain ⟨⟨rfl, hl⟩, hr⟩ := h
      exact .binary op (ihl hl) (ihr hr)
    | _ => cases h
  | unary op e ih =>
    cases b with
    | unary op' f =>
      simp only [beq, Bool.and_eq_true, beq_iff_eq] at h
      obtain ⟨rfl, he⟩ := h
      exact .unary op (ih he)
    | _ => cases h
  | conditional c t f ihc iht ihf =>
    cases b with
    | conditional c' t' f' =>
      simp only [beq, Bool.and_eq_true] at h
      exact .conditional (ihc h.1.1) (iht h.1.2) (ihf h.2)
    | _ => cases h
  | cast v t ih =>
    cases b with
    | cast w u =>
      simp only [beq, Bool.and_eq_true, beq_iff_eq] at h
      obtain ⟨hv, rfl⟩ := h
      exact .cast t (ih hv)
    | _ => cases h
  | enumLabel d label =>
    cases b with
    | enumLabel d' label' =>
      simp only [beq, Bool.and_eq_true, beq_iff_eq] at h
      obtain ⟨rfl, rfl⟩ := h
      exact .enumLabel d label
    | _ => cases h
  | enumById d e ih =>
    cases b with
    | enumById d' f =>
      simp only [beq, Bool.and_eq_true, beq_iff_eq] at h
      obtain ⟨rfl, he⟩ := h
      exact .enumById d (ih he)
    | _ => cases h
  | method e m xs ihe ihxs =>
    cases b with
    | method f m' ys =>
      simp only [beq, Bool.and_eq_true, beq_iff_eq] at h
      obtain ⟨⟨he, rfl⟩, hxs⟩ := h
      exact .method m (ihe he) (forall₂_equal_of_beqAll hxs fun x hx _ => ihxs x hx)
    | _ => cases h

theorem beqAll_of_forall₂ {xs ys : List Expr} (h : List.Forall₂ (fun x y => x.beq y = true) xs ys) : beqAll xs ys = true := by
  induction h with
  | nil => rfl
  | cons hx _ ih => rw [beqAll, hx, ih, Bool.and_self]

/-- Expressions that are equal node by node compare equal. -/
theorem Equal.beq {a b : Expr} (h : Equal a b) : a.beq b = true := by
  induction a generalizing b with
  | float x => cases h with | float h => exact h
  | array xs ih => cases h with | array h => exact beqAll_of_forall₂ (forall₂_of_forall_mem h fun x hx _ => ih x hx)
  | member v n ih => cases h with | member _ h => simp [Expr.beq, ih h]
  | subscript v i ihv ihi => cases h with | subscript hv hi => simp [Expr.beq, ihv hv, ihi hi]
  | binary op l r ihl ihr => cases h with | binary _ hl hr => simp [Expr.beq, ihl hl, ihr hr]
  | unary op e ih => cases h with | unary _ h => simp [Expr.beq, ih h]
  | conditional c t f ihc iht ihf => cases h with | conditional hc ht hf => simp [Expr.beq, ihc hc, iht ht, ihf hf]
  | cast v t ih => cases h with | cast _ h => simp [Expr.beq, ih h]
  | enumById d e ih => cases h with | enumById _ h => simp [Expr.beq, ih h]
  | method e m xs ihe ihxs =>
    cases h with
    | method _ he hxs =>
      simp [Expr.beq, ihe he, beqAll_of_forall₂ (forall₂_of_forall_mem hxs fun x hx _ => ihxs x hx)]
  | _ => cases h; simp [Expr.beq]

/-- Equality of expressions decides the relation. -/
theorem beq_iff_equal {a b : Expr} : (a == b) = true ↔ Equal a b := ⟨equal_of_beq, Equal.beq⟩

namespace Equal

variable {a b c : Expr}

/-- Equality of expressions does not depend on their order. -/
theorem symm (h : Equal a b) : Equal b a := by
  induction a generalizing b with
  | float x => cases h with | float h => exact .float (Binary64.ieeeEq_comm x _ ▸ h)
  | array xs ih => cases h with | array h => exact .array (forall₂_of_forall_mem h fun x hx _ => ih x hx).flip
  | member v n ih => cases h with | member _ h => exact .member n (ih h)
  | subscript v i ihv ihi => cases h with | subscript hv hi => exact .subscript (ihv hv) (ihi hi)
  | binary op l r ihl ihr => cases h with | binary _ hl hr => exact .binary op (ihl hl) (ihr hr)
  | unary op e ih => cases h with | unary _ h => exact .unary op (ih h)
  | conditional c t f ihc iht ihf => cases h with | conditional hc ht hf => exact .conditional (ihc hc) (iht ht) (ihf hf)
  | cast v t ih => cases h with | cast _ h => exact .cast t (ih h)
  | enumById d e ih => cases h with | enumById _ h => exact .enumById d (ih h)
  | method e m xs ihe ihxs =>
    cases h with
    | method _ he hxs => exact .method m (ihe he) (forall₂_of_forall_mem hxs fun x hx _ => ihxs x hx).flip
  | _ => cases h; constructor

theorem forall₂_trans {xs ys zs : List Expr} (hxs : ∀ x ∈ xs, ∀ y z, Equal x y → Equal y z → Equal x z)
    (h : List.Forall₂ Equal xs ys) (h' : List.Forall₂ Equal ys zs) : List.Forall₂ Equal xs zs := by
  induction h generalizing zs with
  | nil => exact h'
  | cons hxy _ ih =>
    obtain ⟨hx, hrest⟩ := List.forall_mem_cons.1 hxs
    cases h' with
    | cons hyz h' => exact .cons (hx _ _ hxy hyz) (ih hrest h')

/-- Equality of expressions is transitive. -/
theorem trans (h : Equal a b) (h' : Equal b c) : Equal a c := by
  induction a generalizing b c with
  | float x => cases h with | float h => cases h' with | float h' => exact .float (Binary64.ieeeEq_trans h h')
  | array xs ih => cases h with | array h => cases h' with | array h' => exact .array (forall₂_trans (fun x hx _ _ => ih x hx) h h')
  | member v n ih => cases h with | member _ h => cases h' with | member _ h' => exact .member n (ih h h')
  | subscript v i ihv ihi =>
    cases h with | subscript hv hi => cases h' with | subscript hv' hi' => exact .subscript (ihv hv hv') (ihi hi hi')
  | binary op l r ihl ihr =>
    cases h with | binary _ hl hr => cases h' with | binary _ hl' hr' => exact .binary op (ihl hl hl') (ihr hr hr')
  | unary op e ih => cases h with | unary _ h => cases h' with | unary _ h' => exact .unary op (ih h h')
  | conditional p t f ihp iht ihf =>
    cases h with
    | conditional hp ht hf =>
      cases h' with
      | conditional hp' ht' hf' => exact .conditional (ihp hp hp') (iht ht ht') (ihf hf hf')
  | cast v t ih => cases h with | cast _ h => cases h' with | cast _ h' => exact .cast t (ih h h')
  | enumById d e ih => cases h with | enumById _ h => cases h' with | enumById _ h' => exact .enumById d (ih h h')
  | method e m xs ihe ihxs =>
    cases h with
    | method _ he hxs =>
      cases h' with
      | method _ he' hxs' => exact .method m (ihe he he') (forall₂_trans (fun x hx _ _ => ihxs x hx) hxs hxs')
  | _ => cases h; exact h'

/-- An expression equals itself if its parts do and it is no NaN. -/
theorem self_iff_children : Equal a a ↔ (∀ x, a = .float x → x.isNaN = false) ∧ ∀ y ∈ a.children, Equal y y := by
  constructor
  · intro h
    refine ⟨?_, ?_⟩
    · rintro x rfl
      cases h with
      | float h => exact (Binary64.ieeeEq_iff.1 h).1
    · cases h with
      | array h => exact List.forall₂_same.1 h
      | method _ he hxs => exact List.forall_mem_cons.2 ⟨he, List.forall₂_same.1 hxs⟩
      | _ => simp_all
  · rintro ⟨hfloat, hparts⟩
    cases a with
    | float x => exact .float (by rw [Binary64.ieeeEq_self, hfloat x rfl, Bool.not_false])
    | array xs => exact .array (List.forall₂_same.2 hparts)
    | method e m xs =>
      obtain ⟨he, hxs⟩ := List.forall_mem_cons.1 hparts
      exact .method m he (List.forall₂_same.2 hxs)
    | _ => constructor <;> exact hparts _ (by simp)

/-- An expression equals itself unless it holds a NaN. -/
theorem self_iff : Equal a a ↔ ∀ x, (Expr.float x).IsPartOf a → x.isNaN = false := by
  have hparts : (∀ x, (Expr.float x).IsPartOf a → x.isNaN = false) ↔
      ∀ y : Expr, y.IsPartOf a → ∀ x, y = .float x → x.isNaN = false := by
    constructor
    · rintro h _ hy x rfl
      exact h x hy
    · intro h x hx
      exact h _ hx x rfl
  rw [hparts]
  clear hparts
  induction a using Expr.inductParts with
  | step a ih =>
    rw [self_iff_children, Expr.forall_isPartOf]
    exact and_congr_right fun _ => forall₂_congr ih

/-- Equal expressions have the same type. -/
theorem typeOf (h : Equal a b) (T : TypeTable) : T.typeOf a = T.typeOf b := by
  induction a generalizing b with
  | array xs ih =>
    cases h with
    | array h => rw [TypeTable.typeOf, TypeTable.typeOf, TypeTable.typesOf_eq_map, TypeTable.typesOf_eq_map,
        map_eq_of_forall₂ h fun x hx _ => ih x hx]
  | member v n ih => cases h with | member _ h => simp only [TypeTable.typeOf, ih h]
  | subscript v i ihv ihi => cases h with | subscript hv hi => simp only [TypeTable.typeOf, ihv hv]
  | binary op l r ihl ihr => cases h with | binary _ hl hr => simp only [TypeTable.typeOf, ihl hl, ihr hr]
  | unary op e ih => cases h with | unary _ h => simp only [TypeTable.typeOf, ih h]
  | conditional c t f ihc iht ihf => cases h with | conditional hc ht hf => simp only [TypeTable.typeOf, iht ht]
  | method e m xs ihe ihxs => cases h with | method _ he hxs => simp only [TypeTable.typeOf, ihe he]
  | _ => cases h; rfl

end Equal

end Expr

/-! ## Runs that differ in values only -/

namespace Emission

variable {α β : Type}

/-- Two emissions need the same headers, and both succeed or both are refused. -/
structure RunsAlike (x : Emission α) (y : Emission β) : Prop where
  needs : x.needs = y.needs
  succeeds : (∃ a, x.outcome = .ok a) ↔ ∃ b, y.outcome = .ok b

namespace RunsAlike

theorem refl (x : Emission α) : RunsAlike x x := ⟨rfl, Iff.rfl⟩

/-- Refusals run alike, whatever they say. -/
theorem refuse (r r' : Refusal) : RunsAlike (.refuse r : Emission α) (.refuse r' : Emission β) :=
  ⟨rfl, by simp⟩

/-- Demands of one condition run alike, whatever they refuse with. -/
theorem demand (condition : Bool) (r r' : Refusal) : RunsAlike (.demand condition r) (.demand condition r') := by
  cases condition with
  | true => exact refl _
  | false => exact refuse r r'

/-- Emissions that run alike one after another. -/
theorem bind {x y : Emission Unit} {f g : Unit → Emission Unit} (h : RunsAlike x y) (hfg : RunsAlike (f ()) (g ())) :
    RunsAlike (x >>= f) (y >>= g) := by
  obtain ⟨hneeds, hok⟩ := h
  have hok' : x.outcome = .ok () ↔ y.outcome = .ok () :=
    ⟨fun hx => (hok.1 ⟨(), hx⟩).elim fun _ hy => hy, fun hy => (hok.2 ⟨(), hy⟩).elim fun _ hx => hx⟩
  constructor
  · cases hx : x.outcome with
    | ok _ => rw [needs_bind_of_ok hx, needs_bind_of_ok (hok'.1 hx), hneeds, hfg.needs]
    | error r =>
      cases hy : y.outcome with
      | ok _ => rw [hok'.2 hy] at hx; cases hx
      | error r' => rw [needs_bind_of_error hx, needs_bind_of_error hy, hneeds]
  · have hsucceeds := hfg.succeeds
    simp only [outcome_bind_unit_eq_ok, exists_and_left, hok']
    exact and_congr_right fun _ => hsucceeds

/-- Steps in turn run alike if they do one by one. -/
theorem inTurn {xs ys : List (Emission Unit)} (h : List.Forall₂ RunsAlike xs ys) :
    RunsAlike (Emission.inTurn xs) (Emission.inTurn ys) := by
  induction h with
  | nil => exact refl _
  | cons hx _ ih => exact hx.bind ih

/-- Emissions run alike if their effects do. -/
theorem effect_iff {x : Emission α} {y : Emission β} : RunsAlike x.effect y.effect ↔ RunsAlike x y := by
  constructor
  · rintro ⟨hneeds, hok⟩
    exact ⟨by simpa using hneeds, by simpa using hok⟩
  · rintro ⟨hneeds, hok⟩
    exact ⟨by simpa using hneeds, by simpa using hok⟩

/-- Two expressions of the same type are asked for it alike, and what follows sees the same answer. -/
theorem typeOf {Γ : Context} {x y : Expr} {f g : ValueType → Emission Unit} (h : Γ.types.typeOf x = Γ.types.typeOf y)
    (hfg : ∀ t, RunsAlike (f t) (g t)) : RunsAlike (Γ.typeOf x >>= f) (Γ.typeOf y >>= g) := by
  cases hx : Γ.types.typeOf x with
  | none => rw [Context.typeOf_of_none hx, Context.typeOf_of_none (h ▸ hx)]; exact refuse _ _
  | some t => rw [Context.typeOf_of_some hx, Context.typeOf_of_some (h ▸ hx), pure_bind, pure_bind]; exact hfg t

end RunsAlike

end Emission

section

open Emission

variable {T : TypeTable} {config : Config} {a b : Expr}

/-- Of two equal radices both are ten or none is. -/
theorem isDefaultRadix_of_equal (h : Expr.Equal a b) : Expr.isDefaultRadix a = Expr.isDefaultRadix b := by
  cases h <;> rfl

/-- A method asks the same of equal arguments, though a refusal may show them. -/
theorem runsAlike_before (m : Method) (type : ValueType) {xs ys : List Expr} (h : List.Forall₂ Expr.Equal xs ys) :
    RunsAlike (m.before type xs) (m.before type ys) := by
  cases m with
  | toStr =>
    cases h with
    | nil => exact .refl _
    | cons hx _ =>
      cases type with
      | int t =>
        change RunsAlike (Emission.demand _ _) (Emission.demand _ _)
        rw [isDefaultRadix_of_equal hx]
        exact .demand _ _ _
      | bytes =>
        cases hx with
        | str s => exact .refl _
        | _ => exact .refuse _ _
      | _ => exact .refuse _ _
  | toInt => cases h <;> cases type <;> exact .refl _
  | _ => exact .refl _

/-- Equal nodes ask for the same before their parts. -/
theorem runsAlike_enter (h : Expr.Equal a b) :
    RunsAlike (Context.enter ⟨T.toTyping, config⟩ a) (Context.enter ⟨T.toTyping, config⟩ b) := by
  cases h with
  | float h =>
    simp only [Context.enter, Binary64.isFinite_of_ieeeEq h]
    exact .refl _
  | array h => exact .typeOf (Expr.Equal.typeOf (.array h) T) fun t => .refl _
  | subscript hv _ => exact .typeOf (hv.typeOf T) fun t => .refl _
  | binary op hl hr =>
    simp only [Context.enter]
    split
    · exact .typeOf (hl.typeOf T) fun t => .typeOf (hr.typeOf T) fun u => .refl _
    · split
      · refine .typeOf (hl.typeOf T) fun t => ?_
        split
        · exact .typeOf (hr.typeOf T) fun u => .refl _
        · exact .refl _
      · exact .refl _
  | method m he hxs =>
    simp only [Context.enter, hxs.length_eq]
    split
    · exact .typeOf (he.typeOf T) fun t => runsAlike_before m t hxs
    · exact .refl _
  | _ => exact .refl _

theorem runsAlike_leave (h : Expr.Equal a b) :
    RunsAlike (Context.leave ⟨T.toTyping, config⟩ a) (Context.leave ⟨T.toTyping, config⟩ b) := by
  cases h with
  | subscript hv _ => exact .typeOf (hv.typeOf T) fun t => .refl _
  | method m he _ => exact .typeOf (he.typeOf T) fun t => .refl _
  | _ => exact .refl _

/-- Equal expressions have equal children. -/
theorem forall₂_children (h : Expr.Equal a b) : List.Forall₂ Expr.Equal a.children b.children := by
  cases h <;> simp_all

/-- Equal expressions run alike: no node looks at the sign of a zero before it is written. -/
theorem runsAlike_lower (h : Expr.Equal a b) :
    RunsAlike (a.lower ⟨T.toTyping, config⟩) (b.lower ⟨T.toTyping, config⟩) := by
  induction a using Expr.inductParts generalizing b with
  | step a ih =>
    have hparts : List.Forall₂ RunsAlike (a.children.map fun x => (x.lower ⟨T.toTyping, config⟩).effect)
        (b.children.map fun x => (x.lower ⟨T.toTyping, config⟩).effect) := by
      rw [List.forall₂_map_left_iff, List.forall₂_map_right_iff]
      exact forall₂_of_forall_mem (forall₂_children h) fun x hx y hxy => RunsAlike.effect_iff.2 (ih x hx hxy)
    rw [← RunsAlike.effect_iff, effect_lower, effect_lower]
    exact (runsAlike_enter h).bind ((RunsAlike.inTurn hparts).bind (runsAlike_leave h))

end

/-! ## Sessions -/

namespace Session

/-- A session emits both of two expressions or refuses both, and holds the same lists afterwards. -/
structure SameEffect (s : Session) (a b : Expr) : Prop where
  emitted : (∃ text, (s.step (.emit a)).2 = .emitted (.ok text)) ↔ ∃ text, (s.step (.emit b)).2 = .emitted (.ok text)
  source : (s.step (.emit a)).1.source = (s.step (.emit b)).1.source
  header : (s.step (.emit a)).1.header = (s.step (.emit b)).1.header

/-- Expressions that are lowered alike have the same effect on a session. -/
theorem sameEffect_of_runsAlike {s : Session} {a b : Expr} (h : Emission.RunsAlike (a.lower s.context) (b.lower s.context)) :
    SameEffect s a b := by
  have hsession : (s.step (.emit a)).1 = (s.step (.emit b)).1 := by
    rw [fst_step_emit, fst_step_emit, needs_emit, needs_emit, h.needs]
  refine ⟨?_, by rw [hsession], by rw [hsession]⟩
  have hanswer : ∀ e : Expr, (∃ text, (s.step (.emit e)).2 = .emitted (.ok text)) ↔ s.context.Accepts e := by
    intro e
    rw [← exists_emit_ok_iff]
    exact exists_congr fun text => snd_step_emit_iff
  rw [hanswer, hanswer]
  exact h.succeeds

/-- Equality of expressions is symmetric and transitive, and reflexive where no NaN is held; equal expressions have the same type
in every table, and in every session over it the same effect. -/
theorem equality_compatible (a b c : Expr) :
    (a == b → b == a) ∧ (a == b → b == c → a == c) ∧
      (a == a ↔ ∀ x, (Expr.float x).IsPartOf a → x.isNaN = false) ∧
      (a == b → ∀ T : TypeTable, T.typeOf a = T.typeOf b ∧ ∀ (config : Config) (source header : IncludeList) (active : UnitFile),
        SameEffect ⟨⟨T.toTyping, config⟩, source, header, active⟩ a b) := by
  simp only [Expr.beq_iff_equal]
  refine ⟨Expr.Equal.symm, Expr.Equal.trans, Expr.Equal.self_iff, fun h T => ⟨h.typeOf T, ?_⟩⟩
  intro config source header active
  exact sameEffect_of_runsAlike (runsAlike_lower h)

/-- The two zeros below a minus: equal, and of the same effect, though only one of the texts groups the zero. -/
theorem equality_compatible_zeros :
    (Expr.unary .neg (.float ⟨0⟩) == Expr.unary .neg (.float ⟨9223372036854775808⟩)) = true ∧
      (Expr.unary .neg (.float ⟨9223372036854775808⟩) == Expr.unary .neg (.float ⟨0⟩)) = true ∧
      SameEffect ⟨⟨({} : TypeTable).toTyping, .conservative⟩, {}, {}, .source⟩ (.unary .neg (.float ⟨0⟩))
        (.unary .neg (.float ⟨9223372036854775808⟩)) := by
  have hequal : (Expr.unary .neg (.float ⟨0⟩) == Expr.unary .neg (.float ⟨9223372036854775808⟩)) = true := by decide
  obtain ⟨hsymm, -, -, heffect⟩ := equality_compatible (.unary .neg (.float ⟨0⟩)) (.unary .neg (.float ⟨9223372036854775808⟩))
    (.unary .neg (.float ⟨0⟩))
  exact ⟨hequal, hsymm hequal, (heffect hequal {}).2 .conservative {} {} .source⟩

end Session

end ExprToCpp
