import ExprToCpp.Proofs.Naming
import ExprToCpp.Proofs.RequiredHeaders
import ExprToCpp.Proofs.WrittenNames

/-!
# The headers of what a text names

A text that names something of the library or an enumeration of another type compiles only next to the header that declares it.
Nodes require such headers (`Context.Requires`), except where they write a type in full: a cast to an array or to an enumeration
and the element type of an array literal name what they require no header for (`Context.NamesInType`). Main statement:
`Session.mentions_emitted`, the headers a text calls for answer to one of the two, and the headers that are missing to the second.
-/

namespace ExprToCpp

open Cpp

/-! ## Headers and what they declare -/

/-- The names of the library whose headers are registered, and the headers. -/
def managedNames : List (String × Include) :=
  [("std::vector", .system "vector"), ("std::min_element", .system "algorithm"), ("std::max_element", .system "algorithm"),
    ("std::fmod", .system "cmath"), ("std::numeric_limits", .system "limits")]

/-- What stands before the first colon. -/
def firstWord (q : List Char) : List Char := q.takeWhile (· != ':')

/-- A name that no header declares: one that is not qualified, or one of the library whose header is not registered. -/
def IsUnmanaged (n : String) : Prop :=
  n.toList.count ':' < 2 ∨ firstWord n.toList = "std".toList ∧ ∀ p ∈ managedNames, p.1 ≠ n

instance (n : String) : Decidable (IsUnmanaged n) :=
  inferInstanceAs (Decidable (n.toList.count ':' < 2 ∨ firstWord n.toList = "std".toList ∧ ∀ p ∈ managedNames, p.1 ≠ n))

/-- A header declares a name: one of the library, or the type or a constant of an enumeration whose outermost type is not the one
being written. -/
inductive Context.Declares (Γ : Context) : Include → String → Prop where
  | library {n : String} {i : Include} : (n, i) ∈ managedNames → Declares Γ i n
  | enumType {d : EnumDecl} {top : String} : (∀ n ∈ d.name :: d.owner, IsPlainName n) → d.owner.head? = some top →
      Γ.types.enclosingClass.head? ≠ some top → Declares Γ (.project (top ++ ".h")) (Naming.enumType d)
  | enumConstant {d : EnumDecl} {label top : String} : (∀ n ∈ label :: d.name :: d.owner, IsPlainName n) →
      d.owner.head? = some top → Γ.types.enclosingClass.head? ≠ some top →
      Declares Γ (.project (top ++ ".h")) (Naming.enumConstant d label)

/-- A text has, outside its string literals, a name that a header declares. -/
def Context.Mentions (Γ : Context) (text : String) (i : Include) : Prop :=
  ∃ q, Γ.Declares i q ∧ q.toList ∈ namesIn text.toList

/-! ## The words of a qualified name -/

/-- The first word of a name ends at the first colon. -/
theorem firstWord_append {w : List Char} (hw : ':' ∉ w) (r : List Char) : firstWord (w ++ ':' :: r) = w := by
  have hall : ∀ c ∈ w, (c != ':') = true := fun c hc => bne_iff_ne.2 fun heq => hw (heq ▸ hc)
  rw [firstWord, List.takeWhile_append_of_pos hall, List.takeWhile_cons_of_neg (by simp), List.append_nil]

/-- A plain name has no colon. -/
theorem IsPlainName.colon_notMem {n : String} (h : IsPlainName n) : ':' ∉ n.toList :=
  fun hc => absurd (h _ hc) (by decide)

/-- So it is not qualified. -/
theorem IsPlainName.not_isQualified {n : String} (h : IsPlainName n) : ¬ IsQualified n.toList :=
  fun hscope => h.colon_notMem (hscope.subset List.mem_cons_self)

theorem IsPlainName.upperCase {n : String} (h : IsPlainName n) : IsPlainName (Naming.upperCase n) := by
  intro c hc
  rw [Naming.upperCase, String.toList_map] at hc
  obtain ⟨d, hd, rfl⟩ := List.mem_map.1 hc
  exact isWordChar_toUpper (h d hd)

/-- A name owned by a type begins with the class of the outermost one. -/
theorem exists_qualify_eq {owner : List String} {top : String} (htop : owner.head? = some top) (name : String) :
    ∃ r, (Naming.qualify owner name).toList = (top ++ "_t").toList ++ ':' :: ':' :: r := by
  cases owner with
  | nil => cases htop
  | cons n owner =>
    obtain rfl : n = top := Option.some.inj htop
    have hqualify : (Naming.qualify (n :: owner) name).toList =
        (Naming.qualifiedClass (n :: owner)).toList ++ ':' :: ':' :: name.toList := by
      simp [Naming.qualify, String.toList_append]
    cases owner with
    | nil => exact ⟨name.toList, by rw [hqualify, Naming.qualifiedClass, List.map_cons, List.map_nil,
        String.intercalate_singleton]; rfl⟩
    | cons m owner =>
      have hclass : (Naming.qualifiedClass (n :: m :: owner)).toList =
          (n ++ "_t").toList ++ ':' :: ':' :: (Naming.qualifiedClass (m :: owner)).toList := by
        rw [Naming.qualifiedClass, List.map_cons, List.map_cons, String.intercalate_cons_cons, String.toList_append,
          String.toList_append, List.append_assoc]
        rfl
      exact ⟨_, by rw [hqualify, hclass, List.append_assoc, List.cons_append, List.cons_append]⟩

/-- The first word of a name in a class is the outermost class. -/
theorem firstWord_qualify {owner : List String} {top : String} (htop : owner.head? = some top) (hplain : IsPlainName top)
    (name : String) : firstWord (Naming.qualify owner name).toList = (top ++ "_t").toList := by
  obtain ⟨r, hr⟩ := exists_qualify_eq htop name
  have hcolon : ':' ∉ (top ++ "_t").toList := by
    rw [String.toList_append, List.mem_append, not_or]
    exact ⟨hplain.colon_notMem, by decide⟩
  rw [hr, firstWord_append hcolon]

/-- A name in a class is qualified. -/
theorem isQualified_qualify {owner : List String} {top : String} (htop : owner.head? = some top) (name : String) :
    IsQualified (Naming.qualify owner name).toList := by
  obtain ⟨r, hr⟩ := exists_qualify_eq htop name
  rw [hr]
  exact ⟨_, r, by rw [List.append_assoc]; rfl⟩

/-- A qualified name ends in the name it qualifies. -/
theorem suffix_qualify (owner : List String) (name : String) : name.toList <:+ (Naming.qualify owner name).toList := by
  unfold Naming.qualify
  split
  · exact List.suffix_refl _
  · rw [String.toList_append]
    exact List.suffix_append _ _

theorem isLower_toUpper (c : Char) : c.toUpper.isLower = false := by
  have hlower : ∀ d : Char, d.isLower = (decide (d.val ≥ 'a'.val) && decide (d.val ≤ 'z'.val)) := fun _ => rfl
  rw [Bool.eq_false_iff, hlower, Ne, Bool.and_eq_true, decide_eq_true_eq, decide_eq_true_eq]
  unfold Char.toUpper
  split
  · next h =>
    obtain ⟨hleast, hgreatest⟩ := h
    simp only [ge_iff_le, UInt32.le_iff_toNat_le, UInt32.toNat_add] at hleast hgreatest ⊢
    simp at hleast hgreatest ⊢
    omega
  · next h => exact h

/-- The end of a constant, which is in upper case. -/
theorem getLast_enumConstant (d : EnumDecl) (label : String) :
    ∃ c, (Naming.enumConstant d label).toList.getLast? = some c ∧ c.isLower = false := by
  obtain ⟨front, hfront⟩ := suffix_qualify d.owner (Naming.upperCase (d.name ++ "_" ++ label))
  have hne : (d.name ++ "_" ++ label).toList ≠ [] := by simp
  have hlast : (Naming.upperCase (d.name ++ "_" ++ label)).toList.getLast? =
      some ((d.name ++ "_" ++ label).toList.getLast hne).toUpper := by
    rw [Naming.upperCase, String.toList_map, List.getLast?_map, List.getLast?_eq_some_getLast hne]
    rfl
  refine ⟨((d.name ++ "_" ++ label).toList.getLast hne).toUpper, ?_, isLower_toUpper _⟩
  rw [Naming.enumConstant, ← hfront, List.getLast?_append, hlast]
  rfl

/-! ## Which header declares a name -/

section

variable {Γ : Context} {i : Include} {q : String}

/-- What the name of a foreign enumeration or constant shows: its outermost type, and that it is no class or function. -/
structure Context.ShowsForeign (Γ : Context) (i : Include) (q : List Char) (top : String) : Prop where
  foreign : Γ.types.enclosingClass.head? ≠ some top
  header : i = .project (top ++ ".h")
  first : firstWord q = (top ++ "_t").toList
  last : ['_', 'e'] <:+ q ∨ ∃ c, q.getLast? = some c ∧ c.isLower = false
  qualified : IsQualified q

/-- A header declares a name of the library, or shows a class that is not the one that is generated. -/
theorem Context.Declares.shows (h : Γ.Declares i q) : (q, i) ∈ managedNames ∨ ∃ top, Γ.ShowsForeign i q.toList top := by
  cases h with
  | library h => exact Or.inl h
  | @enumType d top hplain htop hforeign =>
    have hlast : ['_', 'e'] <:+ (Naming.enumType d).toList := by
      refine List.IsSuffix.trans ?_ (suffix_qualify d.owner (d.name ++ Naming.enumSuffix))
      rw [String.toList_append]
      exact List.suffix_append _ _
    have htop' : IsPlainName top := hplain top (List.mem_cons_of_mem _ (List.mem_of_mem_head? htop))
    exact Or.inr ⟨top, hforeign, rfl, firstWord_qualify htop htop' _, Or.inl hlast, isQualified_qualify htop _⟩
  | @enumConstant d label top hplain htop hforeign =>
    have htop' : IsPlainName top :=
      hplain top (List.mem_cons_of_mem _ (List.mem_cons_of_mem _ (List.mem_of_mem_head? htop)))
    exact Or.inr ⟨top, hforeign, rfl, firstWord_qualify htop htop' _, Or.inr (getLast_enumConstant d label),
      isQualified_qualify htop _⟩

/-- The names of the library that headers are kept for look like no generated name. -/
theorem managedNames_spec : ∀ p ∈ managedNames, "std::".toList <+: p.1.toList ∧ ¬ "_t".toList <:+ p.1.toList ∧
    ∀ f ∈ supportFunctions, ¬ (':' :: f.toList) <:+ p.1.toList := by decide

/-- Only qualified names are declared by a header. -/
theorem Context.Declares.isQualified (h : Γ.Declares i q) : IsQualified q.toList := by
  rcases h.shows with hmanaged | ⟨top, hshows⟩
  · have hscope : IsQualified "std::".toList := ⟨"std".toList, [], rfl⟩
    exact hscope.trans (managedNames_spec _ hmanaged).1.isInfix
  · exact hshows.qualified

/-- No class is called as the library's namespace. -/
theorem Context.ShowsForeign.first_ne_std {top : String} (h : Γ.ShowsForeign i q.toList top) :
    firstWord q.toList ≠ "std".toList := by
  intro hstd
  have hsuffix : ['_', 't'] <:+ "std".toList := by
    rw [← hstd, h.first, String.toList_append]
    exact List.suffix_append _ _
  exact absurd hsuffix (by decide)

/-- A name in the namespace of the library is declared by a header that is kept for it. -/
theorem Context.Declares.managed (h : Γ.Declares i q) (hstd : firstWord q.toList = "std".toList) : (q, i) ∈ managedNames := by
  rcases h.shows with hmanaged | ⟨top, hshows⟩
  · exact hmanaged
  · exact absurd hstd hshows.first_ne_std

/-- A header is that of the outermost of the types around a declaration, and this is not the type being written. -/
def Context.IsForeignHeader (Γ : Context) (owner : List String) (i : Include) : Prop :=
  ∃ top, owner.head? = some top ∧ Γ.types.enclosingClass.head? ≠ some top ∧ i = .project (top ++ ".h")

/-- A name that a plain owner qualifies is declared, if at all, in the header of the outermost type. -/
theorem Context.Declares.of_qualify {owner : List String} {name : String} (h : Γ.Declares i (Naming.qualify owner name))
    (howner : ∀ n ∈ owner, IsPlainName n) (hname : IsPlainName name) : Γ.IsForeignHeader owner i := by
  cases htop : owner.head? with
  | none =>
    obtain rfl := List.head?_eq_none_iff.1 htop
    exact absurd h.isQualified hname.not_isQualified
  | some top =>
    have hfirst := firstWord_qualify htop (howner top (List.mem_of_mem_head? htop)) name
    rcases h.shows with hmanaged | ⟨top', hshows⟩
    · have hall : ∀ p ∈ managedNames, firstWord p.1.toList = "std".toList := by decide
      have hsuffix : ['_', 't'] <:+ "std".toList := by
        rw [← hall _ hmanaged, hfirst, String.toList_append]
        exact List.suffix_append _ _
      exact absurd hsuffix (by decide)
    · have htops : top' ++ "_t" = top ++ "_t" := String.toList_inj.1 (hshows.first.symm.trans hfirst)
      obtain rfl : top' = top := by simpa [← String.toList_inj] using htops
      exact ⟨top', htop, hshows.foreign, hshows.header⟩

/-- The type of an enumeration is declared by the header of its outermost owner. -/
theorem Context.Declares.of_enumType {d : EnumDecl} (h : Γ.Declares i (Naming.enumType d))
    (hplain : ∀ n ∈ d.name :: d.owner, IsPlainName n) : Γ.IsForeignHeader d.owner i := by
  obtain ⟨hname, howner⟩ := List.forall_mem_cons.1 hplain
  exact h.of_qualify howner (allChars_append.2 ⟨hname, by decide⟩)

/-- So is each of its constants. -/
theorem Context.Declares.of_enumConstant {d : EnumDecl} {label : String} (h : Γ.Declares i (Naming.enumConstant d label))
    (hplain : ∀ n ∈ label :: d.name :: d.owner, IsPlainName n) : Γ.IsForeignHeader d.owner i := by
  obtain ⟨hlabel, hplain⟩ := List.forall_mem_cons.1 hplain
  obtain ⟨hname, howner⟩ := List.forall_mem_cons.1 hplain
  have hlabelled : IsPlainName (d.name ++ "_" ++ label) :=
    allChars_append.2 ⟨allChars_append.2 ⟨hname, by decide⟩, hlabel⟩
  exact h.of_qualify howner hlabelled.upperCase

/-- What ends in lower case, and not as an enumeration does, is neither an enumeration nor a constant. -/
theorem Context.ShowsForeign.not_suffix {top : String} {q w : List Char} (h : Γ.ShowsForeign i q top)
    (hlength : 2 ≤ w.length) (hlower : w.getLast?.any Char.isLower = true) (henum : ¬ ['_', 'e'] <:+ w) : ¬ w <:+ q := by
  intro hsuffix
  rcases h.last with hlast | ⟨c, hlast, hc⟩
  · exact henum (List.suffix_of_suffix_length_le hlast hsuffix hlength)
  · obtain ⟨front, rfl⟩ := hsuffix
    obtain ⟨d, hd, hdlower⟩ := (Option.any_eq_true _ _).1 hlower
    rw [List.getLast?_append, hd, Option.some_or, Option.some.injEq] at hlast
    rw [hlast, hc] at hdlower
    cases hdlower

/-- No header declares a class. -/
theorem Context.not_declares_class {path : List String} : ¬ Γ.Declares i (Naming.qualifiedClass path) := by
  intro h
  rcases List.eq_nil_or_concat path with rfl | ⟨owner, n, rfl⟩
  · exact h.isQualified.ne_nil rfl
  · rw [List.concat_eq_append] at h
    have hsuffix : "_t".toList <:+ (Naming.qualifiedClass (owner ++ [n])).toList := by
      refine List.IsSuffix.trans ?_ (suffix_joinWords (owner.map Naming.className) (Naming.className n) |>.trans ?_)
      · rw [Naming.className, String.toList_append]
        exact List.suffix_append _ _
      · rw [Naming.qualifiedClass, List.map_append, List.map_singleton]
        exact List.suffix_refl _
    rcases h.shows with hmanaged | ⟨top, hshows⟩
    · exact (managedNames_spec _ hmanaged).2.1 hsuffix
    · exact hshows.not_suffix (w := "_t".toList) (by decide) (by decide) (by decide) hsuffix

/-- No header declares a support function. -/
theorem Context.not_declares_support {scope f : String} (hf : f ∈ supportFunctions) : ¬ Γ.Declares i (scope ++ "::" ++ f) := by
  intro h
  have hsuffix : (':' :: f.toList) <:+ (scope ++ "::" ++ f).toList :=
    ⟨scope.toList ++ [':'], by simp [String.toList_append]⟩
  have hall : ∀ f ∈ supportFunctions, 2 ≤ (':' :: f.toList).length ∧ (':' :: f.toList).getLast?.any Char.isLower = true ∧
      ¬ ['_', 'e'] <:+ (':' :: f.toList) := by decide
  obtain ⟨hlength, hlower, henum⟩ := hall f hf
  rcases h.shows with hmanaged | ⟨top, hshows⟩
  · exact (managedNames_spec _ hmanaged).2.2 f hf hsuffix
  · exact hshows.not_suffix hlength hlower henum hsuffix

end

/-! ## Types that are written in full -/

/-- The type of the innermost items of nested arrays. -/
def ValueType.core : ValueType → ValueType
  | .array t => t.core
  | t => t

/-- An array has the names of its innermost item type. -/
theorem ValueType.names_core (t : ValueType) : t.core.names = t.names := by
  induction t with
  | array t ih => exact ih
  | int _ | float _ | bool | str | bytes | record _ | enum _ => rfl

/-- The headers of the types a node writes without requiring them. -/
inductive Context.NamesInType (Γ : Context) : Expr → Include → Prop where
  | castArray (v : Expr) (t : ValueType) : NamesInType Γ (.cast v (.array t)) (.system "vector")
  | castEnum {v : Expr} {t : ValueType} {d : EnumDecl} {top : String} : t.core = .enum d → d.owner.head? = some top →
      Γ.types.enclosingClass.head? ≠ some top → NamesInType Γ (.cast v t) (.project (top ++ ".h"))
  | elementEnum {items : List Expr} {t : ValueType} {d : EnumDecl} {top : String} :
      Γ.types.typeOf (.array items) = some (.array t) → t.core = .enum d → d.owner.head? = some top →
      Γ.types.enclosingClass.head? ≠ some top → NamesInType Γ (.array items) (.project (top ++ ".h"))

/-- The names of types that are no classes or enumerations, and whose headers are not registered. -/
def typeNames : List String :=
  ["std::shared_ptr", "std::string", "bool", "float", "double", "int8_t", "int16_t", "int32_t", "int64_t", "uint8_t", "uint16_t",
    "uint32_t", "uint64_t"]

/-- Handles name a template of the library only where they are shared. -/
theorem names_handle (o : Ownership) {t : Ty} {n : String} :
    n ∈ (o.handle t).names ↔ n ∈ t.names ∨ o = .shared ∧ n = "std::shared_ptr" := by
  cases o <;> simp [Ownership.handle, or_comm]

/-- The names that the C++ of a type can have. -/
inductive ValueType.Writes : ValueType → String → Prop where
  | fixed {t : ValueType} {n : String} : n ∈ typeNames → Writes t n
  | vector (t : ValueType) : Writes (.array t) "std::vector"
  | record {t : ValueType} {path : List String} : t.core = .record path → Writes t (Naming.qualifiedClass path)
  | enum {t : ValueType} {d : EnumDecl} : t.core = .enum d → Writes t (Naming.enumType d)

/-- The names in the C++ text of a type are those it writes. -/
theorem writes_of_mem_names {o : Ownership} {t : ValueType} {n : String} (hn : n ∈ (o.cppType t).names) : t.Writes n := by
  induction t with
  | int t =>
    obtain rfl := List.mem_singleton.1 hn
    obtain ⟨_ | _, _ | _ | _ | _⟩ := t <;> exact .fixed (by decide)
  | float p => cases p <;> obtain rfl := List.mem_singleton.1 hn <;> exact .fixed (by decide)
  | bool | str | bytes =>
    obtain rfl := List.mem_singleton.1 hn
    exact .fixed (by decide)
  | array t ih =>
    rcases (names_handle o).1 hn with hn | ⟨-, rfl⟩
    · rcases List.mem_cons.1 hn with rfl | hn
      · exact .vector t
      · cases ih hn with
        | fixed h => exact .fixed h
        | vector u => exact .vector _
        | record h => exact .record h
        | enum h => exact .enum h
    · exact .fixed (by decide)
  | record path =>
    rcases (names_handle o).1 hn with hn | ⟨-, rfl⟩
    · obtain rfl := List.mem_singleton.1 hn
      exact .record rfl
    · exact .fixed (by decide)
  | enum d =>
    obtain rfl := List.mem_singleton.1 hn
    exact .enum rfl

/-- Every array type names the vector. -/
theorem vector_mem_names_cppType (o : Ownership) (t : ValueType) : "std::vector" ∈ (o.cppType (.array t)).names :=
  (names_handle o).2 (Or.inl List.mem_cons_self)

/-- A type with an enumeration inside names it. -/
theorem enumType_mem_names_cppType (o : Ownership) {t : ValueType} {d : EnumDecl} (hd : t.core = .enum d) :
    Naming.enumType d ∈ (o.cppType t).names := by
  induction t with
  | array t ih => exact (names_handle o).2 (Or.inl (List.mem_cons_of_mem _ (ih hd)))
  | enum d' =>
    cases hd
    exact List.mem_cons_self
  | int _ | float _ | bool | str | bytes | record _ => cases hd

/-! ## Names and the nodes that bring them -/

/-- The characters of qualified names are kept by naming. -/
theorem isNameKind_nameChar : IsNameKind fun c => isNameChar c = true where
  affix := by decide
  toUpper c h := by
    rcases Bool.or_eq_true_iff.1 h with hword | hcolon
    · exact Bool.or_eq_true_iff.2 (Or.inl (isWordChar_toUpper hword))
    · obtain rfl := eq_of_beq hcolon
      rfl

/-- A name without the brackets of templates. -/
def IsBareName (n : String) : Prop := AllChars (fun c => isNameChar c = true) n

instance (n : String) : Decidable (IsBareName n) := inferInstanceAs (Decidable (AllChars _ n))

theorem IsPlainName.isBareName {n : String} (h : IsPlainName n) : IsBareName n :=
  fun c hc => Bool.or_eq_true_iff.2 (Or.inl (h c hc))

/-- The names in a type are bare if those it is made from are plain. -/
theorem isBareName_cppType (o : Ownership) {t : ValueType} {n : String} (ht : ∀ m ∈ t.names, IsPlainName m)
    (hn : n ∈ (o.cppType t).names) : IsBareName n := by
  have hnames : ∀ m ∈ t.core.names, IsBareName m := by
    rw [t.names_core]
    exact fun m hm => (ht m hm).isBareName
  cases writes_of_mem_names hn with
  | fixed hn =>
    have hall : ∀ n ∈ typeNames, IsBareName n := by decide
    exact hall n hn
  | vector t => decide
  | record hpath =>
    rw [hpath] at hnames
    exact isNameKind_nameChar.qualifiedClass hnames
  | enum hd =>
    rw [hd] at hnames
    exact isNameKind_nameChar.enumType hnames

/-- Such a name is the one name in its text. -/
theorem mem_namesIn_iff {n q : String} (hn : IsBareName n) :
    q.toList ∈ namesIn n.toList ↔ q = n := by
  rw [namesIn_of_isNameChar hn, List.mem_singleton, String.toList_inj]

/-- The names in a limit of the floats. -/
theorem namesIn_limit {n : String}
    (hn : n = "std::numeric_limits<double>::quiet_NaN" ∨ n = "std::numeric_limits<double>::infinity") :
    ∃ w, namesIn n.toList = ["std::numeric_limits".toList, "double".toList, ':' :: ':' :: w] := by
  rcases hn with rfl | rfl
  · exact ⟨"quiet_NaN".toList, by rw [namesIn, code_of_no_quote (by decide)]; decide⟩
  · exact ⟨"infinity".toList, by rw [namesIn, code_of_no_quote (by decide)]; decide⟩

section

variable {Γ : Context} {i : Include} {e x : Expr} {n q : String}

/-- No header is kept for an unmanaged name. -/
theorem IsUnmanaged.not_declares (hn : IsUnmanaged n) : ¬ Γ.Declares i n := by
  intro h
  rcases hn with hcolons | ⟨hstd, hnone⟩
  · have hcount : 2 ≤ n.toList.count ':' := h.isQualified.sublist.count_le ':'
    omega
  · exact hnone _ (h.managed hstd) rfl

/-- The values without digits are declared by the header of the numeric limits. -/
theorem Context.Declares.limits (h : Γ.Declares i q)
    (hn : n = "std::numeric_limits<double>::quiet_NaN" ∨ n = "std::numeric_limits<double>::infinity")
    (hq : q.toList ∈ namesIn n.toList) : i = .system "limits" := by
  obtain ⟨w, hnames⟩ := namesIn_limit hn
  rw [hnames, List.mem_cons, List.mem_cons, List.mem_singleton] at hq
  rcases hq with hq | hq | hq
  · obtain rfl := String.toList_inj.1 hq
    have hmanaged := h.managed rfl
    simpa [managedNames] using hmanaged
  · obtain rfl := String.toList_inj.1 hq
    have hdouble : IsUnmanaged "double" := by decide
    exact absurd h hdouble.not_declares
  · -- nothing stands before the colons, where a declared name has its first word
    have hfirst : firstWord q.toList = [] := by rw [hq]; rfl
    rcases h.shows with hmanaged | ⟨top, hshows⟩
    · have hall : ∀ p ∈ managedNames, firstWord p.1.toList ≠ [] := by decide
      exact absurd hfirst (hall _ hmanaged)
    · have hempty := hshows.first.symm.trans hfirst
      simp at hempty

/-- A type has a declared name only if it is an array or its items are of a foreign enumeration. -/
theorem Context.Declares.of_cppType {o : Ownership} {t : ValueType} (h : Γ.Declares i n) (ht : ∀ m ∈ t.names, IsPlainName m)
    (hn : n ∈ (o.cppType t).names) :
    (∃ u, t = .array u) ∧ i = .system "vector" ∨ ∃ d, t.core = .enum d ∧ Γ.IsForeignHeader d.owner i := by
  cases writes_of_mem_names hn with
  | fixed hn =>
    have hall : ∀ n ∈ typeNames, IsUnmanaged n := by decide
    exact absurd h (hall n hn).not_declares
  | vector u => exact Or.inl ⟨⟨u, rfl⟩, by simpa [managedNames] using h.managed rfl⟩
  | record _ => exact absurd h Context.not_declares_class
  | enum hd =>
    rw [← t.names_core, hd] at ht
    exact Or.inr ⟨_, hd, h.of_enumType ht⟩

/-- A float that is no number is not finite. -/
theorem isFinite_of_isNaN {x : Binary64} (h : x.isNaN = true) : x.isFinite = false := by
  rw [Binary64.isNaN, Bool.and_eq_true] at h
  rw [Binary64.isFinite, bne, h.1]
  rfl

/-- A node that brings a declared name requires its header or writes it in a type. -/
theorem Context.Declares.reason (h : Γ.Declares i q) (hplain : Γ.Plain e) (hx : x.IsPartOf e) (hn : Γ.Brings x n)
    (hq : q.toList ∈ namesIn n.toList) : Γ.Requires x i ∨ Γ.NamesInType x i := by
  have hnames := hplain.names x hx
  cases hn with
  | nan hnan =>
    obtain rfl := h.limits (Or.inl rfl) hq
    exact Or.inl (.limits (isFinite_of_isNaN hnan))
  | infinity _ hfinite =>
    obtain rfl := h.limits (Or.inr rfl) hq
    exact Or.inl (.limits hfinite)
  | @vector items t n ht hn =>
    have htypes : ∀ m ∈ t.names, IsPlainName m := hplain.types _ hx (.array t) ht
    rcases List.mem_cons.1 hn with rfl | hn
    · obtain rfl := (mem_namesIn_iff (by decide)).1 hq
      obtain rfl : i = .system "vector" := by simpa [managedNames] using h.managed rfl
      exact Or.inl .vector
    · obtain rfl := (mem_namesIn_iff (isBareName_cppType _ htypes hn)).1 hq
      rcases h.of_cppType htypes hn with ⟨-, rfl⟩ | ⟨d, hd, top, htop, hforeign, rfl⟩
      · exact Or.inl .vector
      · exact Or.inr (.elementEnum ht hd htop hforeign)
  | name _ | member _ =>
    have hn := hnames n List.mem_cons_self
    obtain rfl := (mem_namesIn_iff hn.isBareName).1 hq
    exact absurd h.isQualified hn.not_isQualified
  | fmod hfloat =>
    obtain rfl := (mem_namesIn_iff (by decide)).1 hq
    obtain rfl : i = .system "cmath" := by simpa [managedNames] using h.managed rfl
    exact Or.inl (.math hfloat)
  | cast _ hn =>
    obtain rfl := (mem_namesIn_iff (isBareName_cppType _ hnames hn)).1 hq
    rcases h.of_cppType hnames hn with ⟨⟨u, rfl⟩, rfl⟩ | ⟨d, hd, top, htop, hforeign, rfl⟩
    · exact Or.inr (.castArray _ u)
    · exact Or.inr (.castEnum hd htop hforeign)
  | record v path =>
    have hclass := isNameKind_nameChar.qualifiedClass fun m hm => (hnames m hm).isBareName
    obtain rfl := (mem_namesIn_iff hclass).1 hq
    exact absurd h Context.not_declares_class
  | enumLabel d label =>
    have hconstant := isNameKind_nameChar.enumConstant fun m hm => (hnames m hm).isBareName
    obtain rfl := (mem_namesIn_iff hconstant).1 hq
    obtain ⟨top, htop, hforeign, rfl⟩ := h.of_enumConstant hnames
    exact Or.inl (.enumLabel htop hforeign)
  | enumById d e =>
    have htype := isNameKind_nameChar.enumType fun m hm => (hnames m hm).isBareName
    obtain rfl := (mem_namesIn_iff htype).1 hq
    obtain ⟨top, htop, hforeign, rfl⟩ := h.of_enumType hnames
    exact Or.inl (.enumById htop hforeign)
  | @extreme r m args t hm ht =>
    have hi : i = .system "algorithm" := by
      rcases hm with rfl | rfl
      · obtain rfl := (mem_namesIn_iff (by decide)).1 hq
        simpa [managedNames, Method.name] using h.managed rfl
      · obtain rfl := (mem_namesIn_iff (by decide)).1 hq
        simpa [managedNames, Method.name] using h.managed rfl
    rw [hi]
    exact Or.inl (.algorithm hm ht)

/-- A node that requires a header or writes it in a type brings a name that the header declares. -/
theorem Context.exists_brings_declared {c : Cpp.Expr} (hplain : Γ.Plain e) (hx : x.IsPartOf e) (hc : Lowers Γ x c)
    (h : Γ.Requires x i ∨ Γ.NamesInType x i) : ∃ n q, Γ.Brings x n ∧ Γ.Declares i q ∧ q.toList ∈ namesIn n.toList := by
  have hnames := hplain.names x hx
  -- all but the limits of floats are declared under the name that is brought
  have hself : ∀ n, Γ.Brings x n → Γ.Declares i n → IsBareName n →
      ∃ n q, Γ.Brings x n ∧ Γ.Declares i q ∧ q.toList ∈ namesIn n.toList :=
    fun n hn hi hchars => ⟨n, n, hn, hi, (mem_namesIn_iff hchars).2 rfl⟩
  rcases h with h | h
  · cases h with
    | @limits x hfinite =>
      have hdeclared : Γ.Declares (.system "limits") "std::numeric_limits" := .library (by decide)
      cases hnan : x.isNaN with
      | true =>
        obtain ⟨w, hw⟩ := namesIn_limit (Or.inl rfl)
        exact ⟨_, _, .nan hnan, hdeclared, hw ▸ List.mem_cons_self⟩
      | false =>
        obtain ⟨w, hw⟩ := namesIn_limit (Or.inr rfl)
        exact ⟨_, _, .infinity hnan hfinite, hdeclared, hw ▸ List.mem_cons_self⟩
    | vector =>
      cases hc with
      | array ht _ _ => exact hself _ (.vector ht List.mem_cons_self) (.library (by decide)) (by decide)
    | algorithm hm ht =>
      rcases hm with rfl | rfl
      · exact hself _ (.extreme (Or.inl rfl) ht) (.library (by decide)) (by decide)
      · exact hself _ (.extreme (Or.inr rfl) ht) (.library (by decide)) (by decide)
    | math hfloat => exact hself _ (.fmod hfloat) (.library (by decide)) (by decide)
    | @enumLabel d label top htop hforeign =>
      exact hself _ (.enumLabel d label) (.enumConstant hnames htop hforeign)
        (isNameKind_nameChar.enumConstant fun m hm => (hnames m hm).isBareName)
    | @enumById d e top htop hforeign =>
      exact hself _ (.enumById d e) (.enumType hnames htop hforeign)
        (isNameKind_nameChar.enumType fun m hm => (hnames m hm).isBareName)
  · cases h with
    | castArray v t =>
      exact hself _ (.cast (by simp) (vector_mem_names_cppType _ t)) (.library (by decide)) (by decide)
    | @castEnum v t d top hd htop hforeign =>
      have hmem := enumType_mem_names_cppType Γ.config.ownership hd
      have hrecord : ∀ path, t ≠ .record path := by
        rintro path rfl
        cases hd
      have hplainEnum : ∀ n ∈ d.name :: d.owner, IsPlainName n := by
        rwa [Expr.names, ← t.names_core, hd] at hnames
      exact hself _ (.cast hrecord hmem) (.enumType hplainEnum htop hforeign) (isBareName_cppType _ hnames hmem)
    | @elementEnum items t d top ht hd htop hforeign =>
      have hmem := enumType_mem_names_cppType Γ.config.ownership hd
      have htypes : ∀ m ∈ t.names, IsPlainName m := hplain.types _ hx (.array t) ht
      have hplainEnum : ∀ n ∈ d.name :: d.owner, IsPlainName n := by
        rwa [← t.names_core, hd] at htypes
      exact hself _ (.vector ht (List.mem_cons_of_mem _ hmem)) (.enumType hplainEnum htop hforeign)
        (isBareName_cppType _ htypes hmem)

/-- The text of an expression calls for the headers that its nodes require or write in types. -/
theorem Context.mentions_render_iff {c : Cpp.Expr} (hplain : Γ.Plain e) (hc : Lowers Γ e c) :
    Γ.Mentions c.render i ↔ ∃ x, x.IsPartOf e ∧ (Γ.Requires x i ∨ Γ.NamesInType x i) := by
  have hmay := namesOnly_of_lowers hc
  have hquote : ∀ n ∈ c.names, '"' ∉ n.toList := by
    intro n hn hmem
    exact absurd (hplain.typeChars (hmay n hn) _ hmem) (by decide)
  constructor
  · rintro ⟨q, hi, hq⟩
    obtain ⟨n, hn, hq⟩ := (mem_namesIn_render hquote hi.isQualified).1 hq
    cases hmay n hn with
    | library hn =>
      have hall : ∀ n ∈ libraryNames, IsBareName n ∧ IsUnmanaged n := by decide
      obtain rfl := (mem_namesIn_iff (hall n hn).1).1 hq
      exact absurd hi (hall _ hn).2.not_declares
    | @support f hf =>
      have hfunctions : ∀ f ∈ supportFunctions, IsBareName f := by decide
      have hchars : IsBareName (Γ.config.supportClass ++ "::" ++ f) := by
        refine allChars_append.2 ⟨allChars_append.2 ⟨fun c hc => ?_, by decide⟩, hfunctions f hf⟩
        rcases hplain.support c hc with hword | rfl
        · exact Bool.or_eq_true_iff.2 (Or.inl hword)
        · rfl
      obtain rfl := (mem_namesIn_iff hchars).1 hq
      exact absurd hi (Context.not_declares_support hf)
    | @brought x n hx hb => exact ⟨x, hx, hi.reason hplain hx hb hq⟩
  · rintro ⟨x, hx, h⟩
    obtain ⟨d, hd⟩ := exists_lowers_part hc hx
    obtain ⟨n, q, hb, hi, hq⟩ := Context.exists_brings_declared hplain hx hd h
    exact ⟨q, hi, (mem_namesIn_render hquote hi.isQualified).2 ⟨n, mem_names_of_brings hc hx hb, hq⟩⟩

end

/-! ## Missing headers -/

/-- No type that is written in full takes a header other than that of vectors and those of the project. -/
theorem Context.NamesInType.vector_or_project {Γ : Context} {x : Expr} {i : Include} (h : Γ.NamesInType x i) :
    i = .vector ∨ ∃ name, i = .project name := by
  cases h with
  | castArray v t => exact Or.inl rfl
  | castEnum _ _ _ | elementEnum _ _ _ _ => exact Or.inr ⟨_, rfl⟩

/-- A text names what a header declares exactly where a node requires the header or writes the name in a type. The header is then
missing from the lists exactly if no node requires it and it was not there before: only a type that is written in full can leave a
header out, and the headers of algorithms, remainders and limits never are left out. -/
theorem Session.mentions_emitted (s : Session) (e : Expr) (text : String) (hplain : s.context.Plain e)
    (h : (s.step (.emit e)).2 = .emitted (.ok text)) (i : Include) :
    (s.context.Mentions text i ↔ ∃ x, x.IsPartOf e ∧ (s.context.Requires x i ∨ s.context.NamesInType x i)) ∧
      (s.context.Mentions text i ∧ i ∉ ((s.step (.emit e)).1.includes (s.active.ofInclude i)).entries ↔
        (∃ x, x.IsPartOf e ∧ s.context.NamesInType x i) ∧ (∀ x, x.IsPartOf e → ¬ s.context.Requires x i) ∧
          i ∉ (s.includes (s.active.ofInclude i)).entries) ∧
      (i = .algorithm ∨ i = .math ∨ i = .limits → s.context.Mentions text i →
        i ∈ ((s.step (.emit e)).1.includes (s.active.ofInclude i)).entries) := by
  have hemit : (e.emit s.context).outcome = .ok text := snd_step_emit_iff.1 h
  have haccepts : s.context.Accepts e := exists_emit_ok_iff.1 ⟨text, hemit⟩
  obtain ⟨c, hc, rfl⟩ := emit_ok_iff_lowers.1 hemit
  have hmentions : s.context.Mentions c.render i ↔ _ := Context.mentions_render_iff hplain hc
  have hregistered := Session.mem_includes_emit s e (s.active.ofInclude i) i
  rw [mem_needs_lower_iff_requires haccepts, and_iff_left rfl] at hregistered
  refine ⟨hmentions, ?_, fun hi hmention => ?_⟩
  · rw [hmentions, hregistered, not_or]
    constructor
    · rintro ⟨⟨x, hx, hreason⟩, hbefore, hnone⟩
      have hnever : ∀ x, x.IsPartOf e → ¬ s.context.Requires x i := fun x hx hrequires => hnone ⟨x, hx, hrequires⟩
      exact ⟨⟨x, hx, hreason.resolve_left (hnever x hx)⟩, hnever, hbefore⟩
    · rintro ⟨⟨x, hx, hwritten⟩, hnever, hbefore⟩
      exact ⟨⟨x, hx, Or.inr hwritten⟩, hbefore, fun ⟨y, hy, hrequires⟩ => hnever y hy hrequires⟩
  · obtain ⟨x, hx, hrequires | hwritten⟩ := hmentions.1 hmention
    · exact hregistered.2 (Or.inr ⟨x, hx, hrequires⟩)
    · rcases hwritten.vector_or_project with rfl | ⟨name, rfl⟩ <;>
        simp [Include.vector, Include.algorithm, Include.math, Include.limits] at hi

/-- A cast to an array of constants of another type's enumeration: the text names the vector and the enumeration, and neither
header is registered. -/
theorem Session.mentions_emitted_cast :
    let s : Session := { context := ⟨({ enclosingClass := ["zip"] } : TypeTable).toTyping, .conservative⟩ }
    let e : Expr := .cast (.name "kinds") (.array (.enum ⟨["dos_datetime"], "weekday"⟩))
    s.context.Plain e ∧
      (s.step (.emit e)).2 = .emitted (.ok "static_cast<std::vector<dos_datetime_t::weekday_e>*>(kinds())") ∧
      (∀ i, i = .system "vector" ∨ i = .project "dos_datetime.h" →
        s.context.Mentions "static_cast<std::vector<dos_datetime_t::weekday_e>*>(kinds())" i ∧
          i ∉ ((s.step (.emit e)).1.includes (s.active.ofInclude i)).entries) := by
  intro s e
  have hemit : (s.step (.emit e)).2 = .emitted (.ok "static_cast<std::vector<dos_datetime_t::weekday_e>*>(kinds())") :=
    snd_step_emit_iff.2 rfl
  have hname : s.context.Plain (.name "kinds") :=
    Context.plain_iff.2 ⟨by decide, by decide, fun t ht => (by cases ht), by simp⟩
  have hplain : s.context.Plain e := by
    refine Context.plain_iff.2 ⟨by decide, by decide, fun t ht => ?_, by simpa [e] using hname⟩
    cases ht
    decide
  have hnever : ∀ i x, x.IsPartOf e → ¬ s.context.Requires x i := by
    intro i
    have hkinds : ∀ x, x.IsPartOf (.name "kinds") → ¬ s.context.Requires x i :=
      Expr.forall_isPartOf.2 ⟨fun h => (by cases h), by simp⟩
    exact Expr.forall_isPartOf.2 ⟨fun h : s.context.Requires (.cast _ _) i => (by cases h), by simpa [e] using hkinds⟩
  have hforeign : s.context.types.enclosingClass.head? ≠ some "dos_datetime" := by decide
  refine ⟨hplain, hemit, fun i hi => (mentions_emitted s e _ hplain hemit i).2.1.2 ?_⟩
  rcases hi with rfl | rfl
  · exact ⟨⟨e, .self, .castArray _ _⟩, hnever _, by decide⟩
  · exact ⟨⟨e, .self, .castEnum rfl rfl hforeign⟩, hnever _, by decide⟩

end ExprToCpp
