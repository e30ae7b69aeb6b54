import ExprToCpp.Proofs.Effect
import ExprToCpp.Proofs.Registration

/-!
# The headers an expression requires

Each header that is registered for an emitted expression answers to a node of it (`Context.Requires`): a library header to a form
that the library provides, a project header to an enumeration that another top-level type declares. Every node that has such a
reason is written, so the headers registered are those, and no others. Main statement: `mem_includes_emitted`.
-/

namespace ExprToCpp

/-- The reasons for which a node requires a header. -/
inductive Context.Requires (Γ : Context) : Expr → Include → Prop where
  /-- A float that has no digits is a limit of its type. -/
  | limits {x : Binary64} : x.isFinite = false → Requires Γ (.float x) (.system "limits")
  | vector {items : List Expr} : Requires Γ (.array items) (.system "vector")
  /-- The least and the greatest item of an array are found by the library. -/
  | algorithm {r : Expr} {m : Method} {args : List Expr} {t : ValueType} : m = .min ∨ m = .max →
      Γ.types.typeOf r = some (.array t) → Requires Γ (.method r m args) (.system "algorithm")
  /-- A remainder with a float is computed by the library. -/
  | math {l r : Expr} {p : Precision} : Γ.types.typeOf l = some (.float p) ∨ Γ.types.typeOf r = some (.float p) →
      Requires Γ (.binary .mod l r) (.system "cmath")
  /-- An enumeration is declared in the header of its outermost type, unless that is the one being written. -/
  | enumLabel {d : EnumDecl} {label top : String} : d.owner.head? = some top → Γ.types.enclosingClass.head? ≠ some top →
      Requires Γ (.enumLabel d label) (.project (top ++ ".h"))
  | enumById {d : EnumDecl} {e : Expr} {top : String} : d.owner.head? = some top → Γ.types.enclosingClass.head? ≠ some top →
      Requires Γ (.enumById d e) (.project (top ++ ".h"))

/-! ## What a node needs -/

section

open Emission

variable {Γ : Context} {i : Include}

theorem Emission.needs_demand (condition : Bool) (r : Refusal) : (demand condition r).needs = [] := by
  cases condition <;> rfl

theorem Emission.needs_need (j : Include) : (need j).needs = [j] := rfl

/-- The header of a class is called after it. -/
theorem headerFile_eq (top : String) : Naming.headerFile top = top ++ ".h" := by
  rw [Naming.headerFile, String.append_assoc]
  rfl

/-- An enumeration needs the header of its outermost owner, unless that is the class that is generated. -/
theorem mem_needs_needEnum {d : EnumDecl} : i ∈ (Γ.needEnum d).needs ↔
    ∃ top, d.owner.head? = some top ∧ Γ.types.enclosingClass.head? ≠ some top ∧ i = .project (top ++ ".h") := by
  unfold Context.needEnum EnumDecl.outermost?
  cases hd : d.owner.head? with
  | none => simp
  | some top =>
    by_cases htop : Γ.types.enclosingClass.head? = some top
    · simp [htop]
    · simp [htop, needs_need, headerFile_eq]

/-- Before its receiver is written, a method only asks. -/
theorem needs_before (m : Method) (type : ValueType) (args : List Expr) : (m.before type args).needs = [] := by
  cases m with
  | length | size | first | last => rfl
  | min | max | substring | reverse => exact needs_demand _ _
  | toStr =>
    simp only [Method.before, Method.beforeToStr]
    split
    · exact needs_demand _ _
    all_goals rfl
  | toInt =>
    simp only [Method.before, Method.beforeToInt]
    split <;> rfl

/-- Only the least and the greatest item of an array need a header once the receiver is written. -/
theorem mem_needs_after {m : Method} {type : ValueType} :
    i ∈ (m.after type).needs ↔ (m = .min ∨ m = .max) ∧ type.isArray = true ∧ i = .algorithm := by
  cases m with
  | length | size | first | last => simp [Method.after, needs_demand]
  | min | max => cases h : type.isArray <;> simp [Method.after, needs_need, h]
  | substring | reverse | toStr | toInt => simp [Method.after]

theorem needs_typeOf (x : Expr) : (Γ.typeOf x).needs = [] := by
  rw [Context.typeOf]
  split <;> rfl

/-- What follows the type of an expression needs counts if the type is known. -/
theorem mem_needs_typeOf_bind {x : Expr} {f : ValueType → Emission Unit} :
    i ∈ (Γ.typeOf x >>= f).needs ↔ ∃ type, Γ.types.typeOf x = some type ∧ i ∈ (f type).needs := by
  cases hx : Γ.types.typeOf x with
  | none =>
    rw [Context.typeOf_of_none hx, refuse_bind]
    simp [refuse]
  | some type =>
    rw [Context.typeOf_of_some hx, pure_bind]
    simp

theorem isArray_iff {t : ValueType} : t.isArray = true ↔ ∃ u, t = .array u := by
  cases t <;> simp [ValueType.isArray]

theorem isFloat_iff {t : ValueType} : t.isFloat = true ↔ ∃ p, t = .float p := by
  cases t <;> simp [ValueType.isFloat]

/-- Of the operators, only a remainder with a float needs a header. -/
theorem requires_of_mem_needs_binary {op : BinaryOp} {l r : Expr} (h : i ∈ (Γ.enter (.binary op l r)).needs) :
    Γ.Requires (.binary op l r) i := by
  simp only [Context.enter] at h
  split at h
  · next hmod =>
    obtain ⟨a, ha, h⟩ := mem_needs_typeOf_bind.1 h
    obtain ⟨b, hb, h⟩ := mem_needs_typeOf_bind.1 h
    split at h
    · next hfloat =>
      obtain rfl := List.mem_singleton.1 h
      rw [hmod]
      rcases Bool.or_eq_true_iff.1 hfloat with hfloat | hfloat
      · obtain ⟨p, rfl⟩ := isFloat_iff.1 hfloat
        exact .math (Or.inl ha)
      · obtain ⟨p, rfl⟩ := isFloat_iff.1 hfloat
        exact .math (Or.inr hb)
    · cases h
  · split at h
    · -- an ordering asks for types and needs nothing
      obtain ⟨a, -, h⟩ := mem_needs_typeOf_bind.1 h
      split at h
      · rw [needs_effect, needs_typeOf] at h
        cases h
      · cases h
    · cases h

/-- What a node needs before its parts are written, it requires. -/
theorem requires_of_mem_needs_enter {e : Expr} (h : i ∈ (Γ.enter e).needs) : Γ.Requires e i := by
  cases e with
  | float x =>
    simp only [Context.enter] at h
    split at h
    · cases h
    · next hx =>
      obtain rfl := List.mem_singleton.1 h
      exact .limits (Bool.eq_false_iff.2 hx)
  | array items =>
    obtain ⟨type, -, h⟩ := mem_needs_typeOf_bind.1 h
    rw [needs_demand] at h
    cases h
  | subscript v i =>
    rw [Context.enter, needs_effect, needs_typeOf] at h
    cases h
  | binary op l r => exact requires_of_mem_needs_binary h
  | enumLabel d label =>
    obtain ⟨top, howner, hclass, rfl⟩ := mem_needs_needEnum.1 h
    exact .enumLabel howner hclass
  | enumById d x =>
    obtain ⟨top, howner, hclass, rfl⟩ := mem_needs_needEnum.1 h
    exact .enumById howner hclass
  | method r m args =>
    simp only [Context.enter] at h
    split at h
    · obtain ⟨type, -, h⟩ := mem_needs_typeOf_bind.1 h
      rw [needs_before] at h
      cases h
    · cases h
  | _ => cases h

/-- What a node needs after its parts are written, it requires. -/
theorem requires_of_mem_needs_leave {e : Expr} (h : i ∈ (Γ.leave e).needs) : Γ.Requires e i := by
  cases e with
  | array items =>
    simp only [Context.leave, demand] at h
    split at h
    · obtain rfl := List.mem_singleton.1 h
      exact .vector
    · cases h
  | subscript v i =>
    obtain ⟨type, -, h⟩ := mem_needs_typeOf_bind.1 h
    rw [needs_demand] at h
    cases h
  | method r m args =>
    obtain ⟨type, ht, h⟩ := mem_needs_typeOf_bind.1 h
    obtain ⟨hm, harray, rfl⟩ := mem_needs_after.1 h
    obtain ⟨t, rfl⟩ := isArray_iff.1 harray
    exact .algorithm hm ht
  | _ => cases h

/-- What a node that passes requires, it needs before or after its parts are written. -/
theorem mem_needs_of_requires {e : Expr} (hpass : Γ.Passes e) (h : Γ.Requires e i) :
    i ∈ (Γ.enter e).needs ∨ i ∈ (Γ.leave e).needs := by
  cases h with
  | limits hx =>
    left
    simp [Context.enter, hx, needs_need, Include.limits]
  | vector =>
    right
    obtain ⟨hdemand, -⟩ := outcome_bind_unit_eq_ok.1 hpass.leave
    rw [Context.leave, needs_bind_of_ok hdemand, needs_demand]
    exact List.mem_singleton_self _
  | algorithm hm ht =>
    right
    exact mem_needs_typeOf_bind.2 ⟨_, ht, mem_needs_after.2 ⟨hm, rfl, rfl⟩⟩
  | math hfloat =>
    left
    have henter := hpass.enter
    simp only [Context.enter, if_true, outcome_bind_eq_ok, Context.outcome_typeOf_eq_ok] at henter ⊢
    obtain ⟨a, ha, b, hb, -⟩ := henter
    refine mem_needs_typeOf_bind.2 ⟨a, ha, mem_needs_typeOf_bind.2 ⟨b, hb, ?_⟩⟩
    have hab : (a.isFloat || b.isFloat) = true := by
      rcases hfloat with hl | hr
      · cases ha.symm.trans hl
        rfl
      · cases hb.symm.trans hr
        exact Bool.or_true _
    rw [if_pos hab]
    exact List.mem_singleton_self _
  | enumLabel howner hclass => exact Or.inl (mem_needs_needEnum.2 ⟨_, howner, hclass, rfl⟩)
  | enumById howner hclass => exact Or.inl (mem_needs_needEnum.2 ⟨_, howner, hclass, rfl⟩)

/-- What is accepted needs the headers that its parts require. -/
theorem mem_needs_lower_iff_requires {e : Expr} (h : Γ.Accepts e) :
    i ∈ (e.lower Γ).needs ↔ ∃ x, x.IsPartOf e ∧ Γ.Requires x i := by
  rw [mem_needs_lower h]
  refine exists_congr fun x => and_congr_right fun hx => ⟨?_, ?_⟩
  · exact Or.rec requires_of_mem_needs_enter requires_of_mem_needs_leave
  · exact mem_needs_of_requires (accepts_iff_forall_passes.1 h x hx)

end

/-! ## What a session registers -/

namespace Session

/-- The headers for a file are those of the needs that go there. -/
theorem mem_routed {active file : UnitFile} {needs : List Include} {i : Include} :
    i ∈ routed active file needs ↔ i ∈ needs ∧ active.ofInclude i = file := by
  simp [routed]

/-- Registering headers extends each list by those that are for it. -/
theorem includes_register (s : Session) (needs : List Include) (file : UnitFile) :
    (s.register needs).includes file = (s.includes file).extend (routed s.active file needs) := by
  cases file <;> rfl

/-- An emission adds the headers it needs to the lists they are for, and nothing else. -/
theorem mem_includes_emit (s : Session) (e : Expr) (file : UnitFile) (i : Include) :
    i ∈ ((s.step (.emit e)).1.includes file).entries ↔
      i ∈ (s.includes file).entries ∨ i ∈ (e.lower s.context).needs ∧ s.active.ofInclude i = file := by
  rw [fst_step_emit, includes_register, IncludeList.mem_extend, mem_routed, needs_emit]

/-- After an expression is emitted, each file includes what it included before and, of the headers that the nodes of the expression
require, those that go to it: library headers to the file being written, project headers to the header file. -/
theorem mem_includes_emitted (s : Session) (e : Expr) (text : String) (h : (s.step (.emit e)).2 = .emitted (.ok text))
    (file : UnitFile) (i : Include) :
    i ∈ ((s.step (.emit e)).1.includes file).entries ↔
      i ∈ (s.includes file).entries ∨ (∃ x, x.IsPartOf e ∧ s.context.Requires x i) ∧ s.active.ofInclude i = file := by
  have haccepts : s.context.Accepts e := exists_emit_ok_iff.1 ⟨text, snd_step_emit_iff.1 h⟩
  rw [mem_includes_emit, mem_needs_lower_iff_requires haccepts]

/-- A remainder that calls on all four library headers and on a project header, while the header file is being written. -/
theorem mem_includes_emitted_remainder :
    let s : Session := { context := ⟨({} : TypeTable).toTyping, .conservative⟩, active := .header }
    let e : Expr := .binary .mod (.method (.array [.float ⟨0x7ff0000000000000⟩, .int 1]) .max []) (.enumById ⟨["zip"], "kind"⟩ (.int 2))
    (∃ text, (s.step (.emit e)).2 = .emitted (.ok text)) ∧
      (s.step (.emit e)).1.header.entries = [.system "cmath", .system "limits", .system "vector", .system "algorithm", .project "zip.h"] ∧
      ∀ file i, i ∈ ((s.step (.emit e)).1.includes file).entries ↔
        i ∈ (s.includes file).entries ∨ (∃ x, x.IsPartOf e ∧ s.context.Requires x i) ∧ s.active.ofInclude i = file := by
  intro s e
  have hlowers : ∃ c, Lowers s.context e c :=
    ⟨_, .floatRemainder (p := .double) rfl rfl (Or.inl rfl)
      (.extremeItem (Or.inr rfl) rfl (.array rfl (.cons (.float _) (.cons (.int 1) .nil)) rfl)) (.enumById (.int 2))⟩
  obtain ⟨c, hc⟩ := hlowers
  have hemit : (s.step (.emit e)).2 = .emitted (.ok c.render) :=
    snd_step_emit_iff.2 (emit_ok_iff_lowers.2 ⟨c, hc, rfl⟩)
  exact ⟨⟨_, hemit⟩, by decide, mem_includes_emitted s e _ hemit⟩

end Session

end ExprToCpp
