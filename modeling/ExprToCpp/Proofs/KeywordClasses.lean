import ExprToCpp.Proofs.Cpp.RoundTrip
import ExprToCpp.Proofs.Naming
import ExprToCpp.Proofs.WrittenNames

/-!
# Classes that are called as keywords are

The class of a type is its name and a suffix, and for four names that makes a keyword: a fundamental type, which is a type of its own
but no scope, and no scope has it as a member. Main statement: `scoped_tree_iff_of_lowers`, a keyword stands next to `::` in what is
written for an expression if and only if one of its nodes names such a class there.
-/

namespace ExprToCpp

open Cpp Cpp.Lexer Cpp.Reader

/-- The names whose classes are called as keywords are. -/
def keywordClasses : List String := ["char8", "char16", "char32", "wchar"]

/-- No class around an enumeration is called as a keyword is. -/
def EnumDecl.Scoped (d : EnumDecl) : Prop := ∀ n ∈ d.owner, n ∉ keywordClasses

instance (d : EnumDecl) : Decidable d.Scoped := inferInstanceAs (Decidable (∀ n ∈ d.owner, n ∉ keywordClasses))

/-- No class in a type is called as a keyword is, unless it stands in no scope and is none. -/
def ValueType.Scoped : ValueType → Prop
  | .array t => t.Scoped
  | .record path => path.length = 1 ∨ ∀ n ∈ path, n ∉ keywordClasses
  | .enum d => d.Scoped
  | _ => True

/-- What a node itself names is no keyword in a scope or as one: the enumeration of a label, the type of a cast, and the type of the
items of an array. -/
def Context.Scoped (Γ : Context) : Expr → Prop
  | .enumLabel d _ | .enumById d _ => d.Scoped
  | .cast _ t => t.Scoped
  | .array items => ∀ t, Γ.types.typeOf (.array items) = some (.array t) → t.Scoped
  | _ => True

/-! ## Names -/

/-- A class is called as a keyword is for four names only. -/
theorem className_mem_keywords {n : String} : Naming.className n ∈ keywords ↔ n ∈ keywordClasses := by
  have hkeywords : ∀ w ∈ keywords, ['_', 't'] <:+ w.toList → w ∈ keywordClasses.map Naming.className := by decide +kernel
  have hclasses : ∀ n ∈ keywordClasses, Naming.className n ∈ keywords := by decide +kernel
  refine ⟨fun hmem => ?_, hclasses n⟩
  have hsuffix : ['_', 't'] <:+ (Naming.className n).toList := by
    rw [Naming.className, String.toList_append]
    exact List.suffix_append _ _
  obtain ⟨m, hm, hclass⟩ := List.mem_map.1 (hkeywords _ hmem hsuffix)
  obtain rfl := (String.append_left_inj _).1 hclass
  exact hm

/-- A name that is no keyword is scoped by itself. -/
theorem scopedName_of_isSnakeName {n : String} (h : IsSnakeName n) : ScopedName n := by
  rw [← joinWords_singleton n, scopedName_joinWords ⟨by simp, by simpa using h.isWord⟩]
  exact Or.inl rfl

/-- A name in the scope of classes. -/
theorem scopedName_qualify {owner : List String} {name : String} (howner : ∀ n ∈ owner, IsSnakeName n) (hname : IsIdentifier name) :
    ScopedName (Naming.qualify owner name) ↔ ∀ n ∈ owner, n ∉ keywordClasses := by
  rw [qualify_eq_joinWords, scopedName_joinWords (areWords_concat (isWord_classes howner) hname.1)]
  constructor
  · rintro (hlen | hwords) n hn
    · obtain rfl : owner = [] := by simpa using hlen
      cases hn
    · rw [← className_mem_keywords]
      exact hwords _ (List.mem_append_left _ (List.mem_map_of_mem hn))
  · intro h
    refine Or.inr fun w hw => ?_
    rcases List.mem_append.1 hw with hw | hw
    · obtain ⟨n, hn, rfl⟩ := List.mem_map.1 hw
      rw [className_mem_keywords]
      exact h n hn
    · rw [List.mem_singleton.1 hw]
      exact hname.2

/-- A constant stands next to no keyword if and only if no class around its enumeration is named like one. -/
theorem scopedName_enumConstant {d : EnumDecl} {label : String} (hd : d.WellNamed) (hl : IsSnakeName label) :
    ScopedName (Naming.enumConstant d label) ↔ d.Scoped :=
  scopedName_qualify hd.1 (isIdentifier_label hd.2 hl)

/-- The same holds of the type of the enumeration. -/
theorem scopedName_enumType {d : EnumDecl} (hd : d.WellNamed) : ScopedName (Naming.enumType d) ↔ d.Scoped :=
  scopedName_qualify hd.1 (isIdentifier_enumName hd.2)

/-- A class alone may be named like a keyword; a class in another may not, nor may the one around it. -/
theorem scopedName_qualifiedClass {path : List String} (h : ValueType.WellNamed (.record path)) :
    ScopedName (Naming.qualifiedClass path) ↔ ValueType.Scoped (.record path) := by
  have hwords : AreWords (path.map Naming.className) := ⟨by simpa using h.1, isWord_classes h.2⟩
  have hclass : Naming.qualifiedClass path = joinWords (path.map Naming.className) := rfl
  rw [hclass, scopedName_joinWords hwords, ValueType.Scoped]
  simp [className_mem_keywords]

/-! ## Types -/

/-- Handles bring no keyword. -/
theorem scoped_handle (o : Ownership) (t : Ty) : (o.handle t).Scoped ↔ t.Scoped := by
  cases o <;> exact Iff.rfl

/-- The names of the integer types are in no scope that is a keyword. -/
theorem scopedName_intType (t : IntType) : ScopedName t.cppName := by
  rcases t with ⟨_ | _, _ | _ | _ | _⟩ <;> decide +kernel

/-- A type is written without a keyword next to `::` if its classes allow it. -/
theorem scoped_cppType (o : Ownership) {t : ValueType} (h : t.WellNamed) : (o.cppType t).Scoped ↔ t.Scoped := by
  induction t with
  | int t => exact iff_of_true (scopedName_intType t) trivial
  | float p =>
    refine iff_of_true ?_ trivial
    cases p <;> exact (show ScopedName _ by decide +kernel)
  | bool => exact iff_of_true (show ScopedName "bool" by decide +kernel) trivial
  | str | bytes => exact iff_of_true (show ScopedName "std::string" by decide +kernel) trivial
  | array t ih => exact (scoped_handle o _).trans (ih h)
  | record path => exact (scoped_handle o _).trans (scopedName_qualifiedClass h)
  | «enum» d => exact scopedName_enumType h

/-! ## Expressions -/

/-- The parts of a well-named expression are well named. -/
theorem Expr.WellNamed.child {e x : Expr} (he : e.WellNamed) (hx : x ∈ e.children) : x.WellNamed := by
  cases he with
  | array hitems => exact hitems x hx
  | method hr hargs => exact (List.mem_cons.1 hx).elim (fun h => h ▸ hr) (hargs x)
  | _ => grind [Expr.children]

section

variable {T : TypeTable} {config : Config} {e x : Expr} {c : Cpp.Expr}

/-- The parts of a well-named expression are well named, at any depth. -/
theorem Expr.WellNamed.part (he : e.WellNamed) (hx : x.IsPartOf e) : x.WellNamed := by
  induction hx with
  | self => exact he
  | child hy _ ih => exact ih (he.child hy)

/-- What a node brings is scoped if the classes it names are. -/
theorem forall_brings_scopedName (hT : T.WellNamed) (hx : x.WellNamed) :
    (∀ n, Context.Brings ⟨T.toTyping, config⟩ x n → ScopedName n) ↔ Context.Scoped ⟨T.toTyping, config⟩ x := by
  have hitem : ∀ t, T.typeOf x = some (.array t) → t.WellNamed := fun t ht => hT.typeOf (t := .array t) hx ht
  constructor
  · intro h
    cases x with
    | array items =>
      intro t ht
      rw [← scoped_cppType config.ownership (hitem t ht), Ty.scoped_iff]
      exact fun n hn => h n (.vector ht (List.mem_cons_of_mem _ hn))
    | cast v t =>
      cases hx with
      | cast hv ht =>
        cases t with
        | record path => exact (scopedName_qualifiedClass ht).1 (h _ (.record v path))
        | _ =>
          refine (scoped_cppType config.ownership ht).1 (Ty.scoped_iff.2 fun n hn => h n (.cast ?_ hn))
          nofun
    | enumLabel d label =>
      cases hx with
      | enumLabel hd hl => exact (scopedName_enumConstant hd hl).1 (h _ (.enumLabel d label))
    | enumById d e =>
      cases hx with
      | enumById hd he => exact (scopedName_enumType hd).1 (h _ (.enumById d e))
    | _ => trivial
  · intro h n hn
    cases hn with
    | nan _ | infinity _ _ | fmod _ => decide +kernel
    | @vector items t n ht hn =>
      have hvector : (Ty.vector (config.ownership.cppType t)).Scoped := (scoped_cppType config.ownership (hitem t ht)).2 (h t ht)
      exact Ty.scoped_iff.1 hvector n hn
    | name _ =>
      cases hx with
      | name hn => exact scopedName_of_isSnakeName hn
    | member _ =>
      cases hx with
      | member hv ha => exact scopedName_of_isSnakeName ha
    | cast _ hn =>
      cases hx with
      | cast hv ht => exact Ty.scoped_iff.1 ((scoped_cppType config.ownership ht).2 h) n hn
    | record v path =>
      cases hx with
      | cast hv ht => exact (scopedName_qualifiedClass ht).2 h
    | enumLabel d label =>
      cases hx with
      | enumLabel hd hl => exact (scopedName_enumConstant hd hl).2 h
    | enumById d e =>
      cases hx with
      | enumById hd he => exact (scopedName_enumType hd).2 h
    | extreme hm _ => rcases hm with rfl | rfl <;> decide +kernel

/-- A keyword stands next to `::` in what is written for an expression if and only if a node names a class that is called as one. -/
theorem scoped_tree_iff_of_lowers (hT : T.WellNamed) (hconfig : config.WellNamed) (he : e.WellNamed)
    (h : Lowers ⟨T.toTyping, config⟩ e c) :
    c.tree.Scoped ↔ ∀ x : Expr, x.IsPartOf e → Context.Scoped ⟨T.toTyping, config⟩ x := by
  rw [Cpp.Expr.scoped_tree_iff]
  constructor
  · intro hnames x hx
    rw [← forall_brings_scopedName hT (he.part hx)]
    exact fun n hn => hnames n (mem_names_of_brings h hx hn)
  · intro hparts n hn
    cases namesOnly_of_lowers h n hn with
    | library hn =>
      have hlibrary : ∀ n ∈ libraryNames, ScopedName n := by decide +kernel
      exact hlibrary n hn
    | support hf =>
      have hfunctions : ∀ f ∈ supportFunctions, IsIdentifier f := by
        unfold IsIdentifier
        decide +kernel
      exact hconfig.scopedName (hfunctions _ hf)
    | @brought x n hx hn => exact (forall_brings_scopedName hT (he.part hx)).2 (hparts x hx) n hn

end

end ExprToCpp
