import ExprToCpp.Lowering.Basic
import ExprToCpp.Proofs.Cpp.TypeName

/-!
# The names that are generated

Names of the expression language are lower-case words that are no C++ keywords. Every class, constant, accessor and type
generated from such names is then a name C++ reads as one: the suffixes and the upper case keep clear of keywords and of the
library's templates.
-/

namespace ExprToCpp

open Cpp Cpp.Lexer Cpp.Reader

/-! ## Well-named expressions and types -/

/-- The characters of names. -/
def snakeChars : List Char := "abcdefghijklmnopqrstuvwxyz0123456789_".toList

/-- A name of lower-case letters, digits and underscores that begins with no digit and is no keyword. -/
def IsSnakeName (n : String) : Prop :=
  (∀ c ∈ n.toList, c ∈ snakeChars) ∧ n.toList.head?.any (!·.isDigit) = true ∧ n ∉ keywords

instance (n : String) : Decidable (IsSnakeName n) := inferInstanceAs (Decidable (_ ∧ _))

/-- The name of an enumeration and those of its owners are in snake case. -/
def EnumDecl.WellNamed (d : EnumDecl) : Prop := (∀ n ∈ d.owner, IsSnakeName n) ∧ IsSnakeName d.name

/-- The names in a type are names, and a record has one. -/
def ValueType.WellNamed : ValueType → Prop
  | .array t => t.WellNamed
  | .record path => path ≠ [] ∧ ∀ n ∈ path, IsSnakeName n
  | .enum d => d.WellNamed
  | _ => True

/-- The names in an expression are names. -/
inductive Expr.WellNamed : Expr → Prop where
  | int (n : Int) : WellNamed (.int n)
  | float (x : Binary64) : WellNamed (.float x)
  | bool (b : Bool) : WellNamed (.bool b)
  | str (s : String) : WellNamed (.str s)
  | bytes (bs : List UInt8) : WellNamed (.bytes bs)
  | array {items : List Expr} : (∀ e ∈ items, WellNamed e) → WellNamed (.array items)
  | name {n : String} : IsSnakeName n → WellNamed (.name n)
  | member {v : Expr} {a : String} : WellNamed v → IsSnakeName a → WellNamed (.member v a)
  | subscript {v i : Expr} : WellNamed v → WellNamed i → WellNamed (.subscript v i)
  | binary {op : BinaryOp} {l r : Expr} : WellNamed l → WellNamed r → WellNamed (.binary op l r)
  | unary {op : UnaryOp} {e : Expr} : WellNamed e → WellNamed (.unary op e)
  | conditional {c t f : Expr} : WellNamed c → WellNamed t → WellNamed f → WellNamed (.conditional c t f)
  | cast {v : Expr} {t : ValueType} : WellNamed v → t.WellNamed → WellNamed (.cast v t)
  | enumLabel {d : EnumDecl} {label : String} : d.WellNamed → IsSnakeName label → WellNamed (.enumLabel d label)
  | enumById {d : EnumDecl} {e : Expr} : d.WellNamed → WellNamed e → WellNamed (.enumById d e)
  | method {r : Expr} {m : Method} {args : List Expr} : WellNamed r → (∀ e ∈ args, WellNamed e) → WellNamed (.method r m args)

/-- The names in the declared types are names. -/
structure TypeTable.WellNamed (T : TypeTable) : Prop where
  names : ∀ n t, T.nameType? n = some t → t.WellNamed
  members : ∀ path a t, T.memberType? path a = some t → t.WellNamed

/-- The support class has a qualified name. -/
def Config.WellNamed (c : Config) : Prop :=
  ∃ ws, ws ≠ [] ∧ (∀ w ∈ ws, IsIdentifier w) ∧ c.supportClass = String.intercalate "::" ws

/-! ## Words -/

/-- What the characters of snake case have in common, and what their capitals have. -/
theorem snakeChars_spec : ∀ c ∈ snakeChars, isWordChar c = true ∧ isWordChar c.toUpper = true ∧ c.toUpper.isLower = false ∧
    (c.isDigit = false → isWordStart c = true ∧ isWordStart c.toUpper = true) := by
  decide +kernel

/-- The keywords that are no types: none is in upper case, and none ends as an enumeration or a class does. -/
theorem reservedWords_spec : ∀ w ∈ reservedWords,
    (w.toList.any Char.isLower = true ∧ ¬ ['_', 'e'] <:+ w.toList) ∧ ¬ ['_', 't'] <:+ w.toList := by
  decide +kernel

/-- Every keyword has a small letter, and none ends like the type of an enumeration. -/
theorem keywords_spec : ∀ w ∈ keywords, w.toList.any Char.isLower = true ∧ ¬ ['_', 'e'] <:+ w.toList := by
  have htypes : ∀ w ∈ typeKeywords, w.toList.any Char.isLower = true ∧ ¬ ['_', 'e'] <:+ w.toList := by decide +kernel
  intro w hw
  rcases List.mem_append.1 hw with hw | hw
  · exact htypes w hw
  · exact (reservedWords_spec w hw).1

/-- A name in snake case is a word. -/
theorem IsSnakeName.isWord {n : String} (h : IsSnakeName n) : isWord n.toList = true := by
  obtain ⟨hchars, hhead, -⟩ := h
  cases hn : n.toList with
  | nil => rw [hn] at hhead; cases hhead
  | cons c cs =>
    rw [hn] at hchars hhead
    have hc := snakeChars_spec c (hchars c List.mem_cons_self)
    rw [Lexer.isWord, Bool.and_eq_true, List.all_eq_true]
    exact ⟨(hc.2.2.2 (by simpa using hhead)).1, fun d hd => (snakeChars_spec d (hchars d (List.mem_cons_of_mem c hd))).1⟩

/-- And it is no keyword. -/
theorem IsSnakeName.isIdentifier {n : String} (h : IsSnakeName n) : IsIdentifier n := ⟨h.isWord, h.2.2⟩

theorem isWord_append {w v : List Char} (hw : isWord w = true) (hv : ∀ c ∈ v, isWordChar c = true) : isWord (w ++ v) = true := by
  cases w with
  | nil => cases hw
  | cons c w =>
    rw [Lexer.isWord, Bool.and_eq_true, List.all_eq_true] at hw
    rw [List.cons_append, Lexer.isWord, Bool.and_eq_true, List.all_eq_true]
    refine ⟨hw.1, fun d hd => ?_⟩
    rcases List.mem_append.1 hd with hd | hd
    · exact hw.2 d hd
    · exact hv d hd

/-- A word that can be a type: no keyword, or one that names a type. -/
def IsTypeWord (w : String) : Prop := isWord w.toList = true ∧ w ∉ reservedWords

/-- An identifier can be a type. -/
theorem Cpp.IsIdentifier.isTypeWord {w : String} (h : IsIdentifier w) : IsTypeWord w :=
  ⟨h.1, fun hmem => h.2 (List.mem_append_right _ hmem)⟩

/-- A class may be called as a fundamental type is, but not as a keyword that is no type. -/
theorem isTypeWord_className {n : String} (h : IsSnakeName n) : IsTypeWord (Naming.className n) := by
  have htext : (Naming.className n).toList = n.toList ++ ['_', 't'] := by simp [Naming.className, Naming.classSuffix]
  refine ⟨?_, fun hmem => ?_⟩
  · rw [htext]
    exact isWord_append h.isWord (by decide)
  · exact (reservedWords_spec _ hmem).2 (htext ▸ List.suffix_append _ _)

/-- The type of an enumeration is no keyword, as none has its suffix. -/
theorem isIdentifier_enumName {n : String} (h : IsSnakeName n) : IsIdentifier (n ++ Naming.enumSuffix) := by
  have htext : (n ++ Naming.enumSuffix).toList = n.toList ++ ['_', 'e'] := by simp [Naming.enumSuffix]
  refine ⟨?_, fun hmem => ?_⟩
  · rw [htext]
    exact isWord_append h.isWord (by decide)
  · exact (keywords_spec _ hmem).2 (htext ▸ List.suffix_append _ _)

/-- In capitals there is no small letter. -/
theorem isLower_upperCase {s : String} (h : ∀ c ∈ s.toList, c ∈ snakeChars) :
    ∀ c ∈ (Naming.upperCase s).toList, c.isLower = false := by
  intro c hc
  rw [Naming.upperCase, String.toList_map] at hc
  obtain ⟨d, hd, rfl⟩ := List.mem_map.1 hc
  exact (snakeChars_spec d (h d hd)).2.2.1

/-- A label after the name of its enumeration is in snake case. -/
theorem snake_label {n label : String} (hn : IsSnakeName n) (hl : IsSnakeName label) :
    ∀ c ∈ (n ++ "_" ++ label).toList, c ∈ snakeChars := by
  intro c hc
  simp only [String.toList_append, List.mem_append] at hc
  rcases hc with (hc | hc) | hc
  · exact hn.1 c hc
  · have hunderscore : ∀ d ∈ "_".toList, d ∈ snakeChars := by decide
    exact hunderscore c hc
  · exact hl.1 c hc

/-- Upper case makes a word of its own: every keyword has a lower-case letter. -/
theorem isIdentifier_label {n label : String} (hn : IsSnakeName n) (hl : IsSnakeName label) :
    IsIdentifier (Naming.upperCase (n ++ "_" ++ label)) := by
  have hsnake := snake_label hn hl
  refine ⟨?_, fun hmem => ?_⟩
  · obtain ⟨hchars, hhead, -⟩ := hn
    rw [Naming.upperCase, String.toList_map, String.toList_append, String.toList_append, List.append_assoc]
    rw [String.toList_append, String.toList_append, List.append_assoc] at hsnake
    cases htext : n.toList with
    | nil => rw [htext] at hhead; cases hhead
    | cons c cs =>
      rw [htext] at hhead hchars hsnake
      rw [List.cons_append, List.map_cons, Lexer.isWord, Bool.and_eq_true, List.all_eq_true]
      refine ⟨((snakeChars_spec c (hchars c List.mem_cons_self)).2.2.2 (by simpa using hhead)).2, fun u hu => ?_⟩
      obtain ⟨d, hd, rfl⟩ := List.mem_map.1 hu
      exact (snakeChars_spec d (hsnake d (List.mem_cons_of_mem c hd))).2.1
  · obtain ⟨c, hc, hclower⟩ := List.any_eq_true.1 (keywords_spec _ hmem).1
    rw [isLower_upperCase hsnake c hc] at hclower
    cases hclower

/-! ## Qualified names -/

/-- The last word of a qualified name stands after its scope. -/
theorem joinWords_concat {ws : List String} (hws : ws ≠ []) (w : String) : joinWords (ws ++ [w]) = joinWords ws ++ "::" ++ w := by
  induction ws with
  | nil => exact absurd rfl hws
  | cons v ws ih =>
    cases ws with
    | nil => simp [joinWords]
    | cons u ws =>
      have htail := ih (List.cons_ne_nil u ws)
      rw [joinWords] at htail ⊢
      rw [List.cons_append, List.cons_append, String.intercalate_cons_cons, ← List.cons_append, htail, joinWords, joinWords,
        String.intercalate_cons_cons, String.append_assoc, String.append_assoc, String.append_assoc, String.append_assoc,
        String.append_assoc]

/-- A qualified name ends in its last word. -/
theorem suffix_joinWords (ws : List String) (w : String) : w.toList <:+ (joinWords (ws ++ [w])).toList := by
  by_cases hws : ws = []
  · subst hws
    simp [joinWords]
  · rw [joinWords_concat hws, String.toList_append]
    exact List.suffix_append _ _

theorem areWords_concat {ws : List String} {w : String} (hws : ∀ v ∈ ws, isWord v.toList = true) (hw : isWord w.toList = true) :
    AreWords (ws ++ [w]) := by
  refine ⟨by simp, fun v hv => ?_⟩
  rcases List.mem_append.1 hv with hv | hv
  · exact hws v hv
  · rw [List.mem_singleton.1 hv]
    exact hw

/-- A word that stands alone is the last word of its name. -/
theorem forall_alone_concat {p : String → Prop} {ws : List String} {w : String} (hw : p w) :
    (ws ++ [w]).length = 1 → ∀ v ∈ ws ++ [w], p v := by
  intro hlen v hv
  obtain rfl : ws = [] := List.length_eq_zero_iff.1 (by simpa using hlen)
  rwa [List.mem_singleton.1 hv]

/-- An identifier, in a scope or alone, names a value, unless it ends the name of a template. -/
theorem isValueName_concat {ws : List String} {w : String} (hws : ∀ v ∈ ws, isWord v.toList = true) (hw : IsIdentifier w)
    (htemplate : ∀ t ∈ callableTemplates, ¬ w.toList <:+ t.toList) : IsValueName (joinWords (ws ++ [w])) := by
  refine ⟨ws ++ [w], areWords_concat hws hw.1, ?_, ?_, rfl⟩
  · exact forall_alone_concat hw.2
  · exact fun hmem => htemplate _ hmem (suffix_joinWords ws w)

/-- A word for a type, in a scope or alone, names one, unless it ends the name of a template. -/
theorem isTypeName_concat {ws : List String} {w : String} (hws : ∀ v ∈ ws, isWord v.toList = true) (hw : IsTypeWord w)
    (htemplate : ∀ t ∈ ["std::vector", "std::shared_ptr", "std::unique_ptr"], ¬ w.toList <:+ t.toList) :
    IsTypeName (joinWords (ws ++ [w])) := by
  refine ⟨ws ++ [w], areWords_concat hws hw.1, ?_, ?_, rfl⟩
  · exact forall_alone_concat hw.2
  · have hsuffix := suffix_joinWords ws w
    have hne : ∀ t ∈ ["std::vector", "std::shared_ptr", "std::unique_ptr"], joinWords (ws ++ [w]) ≠ t := by
      rintro t ht heq
      exact htemplate t ht (heq ▸ hsuffix)
    simp only [List.mem_cons, List.not_mem_nil, or_false, forall_eq_or_imp, forall_eq] at hne
    rw [classTemplate?, if_neg hne.1, if_neg hne.2.1, if_neg hne.2.2]

/-- The classes on a path are words. -/
theorem isWord_classes {path : List String} (h : ∀ n ∈ path, IsSnakeName n) :
    ∀ w ∈ path.map Naming.className, isWord w.toList = true := by
  intro w hw
  obtain ⟨n, hn, rfl⟩ := List.mem_map.1 hw
  exact (isTypeWord_className (h n hn)).1

/-- A name in the scope of a class is joined to the classes on its path. -/
theorem qualify_eq_joinWords (owner : List String) (name : String) :
    Naming.qualify owner name = joinWords (owner.map Naming.className ++ [name]) := by
  cases owner with
  | nil => simp [Naming.qualify, joinWords]
  | cons n owner => rw [joinWords_concat (by simp)]; rfl

/-- The qualified name of a class names a type, and no template. -/
theorem isTypeName_qualifiedClass {path : List String} (hne : path ≠ []) (h : ∀ n ∈ path, IsSnakeName n) :
    IsTypeName (Naming.qualifiedClass path) := by
  rcases List.eq_nil_or_concat path with rfl | ⟨owner, n, rfl⟩
  · exact absurd rfl hne
  · rw [List.concat_eq_append] at h ⊢
    have hn : IsSnakeName n := h n (by simp)
    have hclass : Naming.qualifiedClass (owner ++ [n]) = joinWords (owner.map Naming.className ++ [Naming.className n]) := by
      rw [Naming.qualifiedClass, List.map_append]
      rfl
    rw [hclass]
    refine isTypeName_concat (isWord_classes fun m hm => h m (by simp [hm])) (isTypeWord_className hn) ?_
    intro t ht hsuffix
    have hend : ['_', 't'] <:+ t.toList := by
      refine List.IsSuffix.trans ?_ hsuffix
      rw [Naming.className, String.toList_append]
      exact List.suffix_append _ _
    have hnot : ∀ t ∈ ["std::vector", "std::shared_ptr", "std::unique_ptr"], ¬ ['_', 't'] <:+ t.toList := by decide
    exact hnot t ht hend

/-- So does that of an enumeration. -/
theorem isTypeName_enumType {d : EnumDecl} (h : d.WellNamed) : IsTypeName (Naming.enumType d) := by
  rw [Naming.enumType, qualify_eq_joinWords]
  refine isTypeName_concat (isWord_classes h.1) (isIdentifier_enumName h.2).isTypeWord ?_
  intro t ht hsuffix
  have hend : ['_', 'e'] <:+ t.toList := by
    refine List.IsSuffix.trans ?_ hsuffix
    rw [String.toList_append]
    exact List.suffix_append _ _
  have hnot : ∀ t ∈ ["std::vector", "std::shared_ptr", "std::unique_ptr"], ¬ ['_', 'e'] <:+ t.toList := by decide
  exact hnot t ht hend

/-- The name of a constant names a value. -/
theorem isValueName_enumConstant {d : EnumDecl} {label : String} (hd : d.WellNamed) (hl : IsSnakeName label) :
    IsValueName (Naming.enumConstant d label) := by
  rw [Naming.enumConstant, qualify_eq_joinWords]
  refine isValueName_concat (isWord_classes hd.1) (isIdentifier_label hd.2 hl) ?_
  intro t ht hsuffix
  -- the name of every template ends in a lower-case letter
  have hlast : ∀ t ∈ callableTemplates, t.toList.getLast?.any Char.isLower = true := by decide
  have hword := (isIdentifier_label hd.2 hl).1
  have hlower := isLower_upperCase (snake_label hd.2 hl)
  obtain ⟨front, hfront⟩ := hsuffix
  have ht := hlast t ht
  rcases List.eq_nil_or_concat (Naming.upperCase (d.name ++ "_" ++ label)).toList with hnil | ⟨init, c, hc⟩
  · rw [hnil] at hword
    cases hword
  · rw [hc, List.concat_eq_append] at hlower hfront
    rw [← hfront, ← List.append_assoc, List.getLast?_concat, Option.any_some, hlower c (by simp)] at ht
    cases ht

/-- A name is no template's: these are qualified. -/
theorem isValueName_of_isSnakeName {n : String} (h : IsSnakeName n) : IsValueName n := by
  refine ⟨[n], ⟨by simp, by simpa using h.isWord⟩, ?_, ?_, by simp [joinWords]⟩
  · simpa using h.2.2
  · have hcolon : ∀ t ∈ callableTemplates, ':' ∈ t.toList := by decide
    intro hmem
    rw [joinWords, String.intercalate_singleton] at hmem
    exact absurd (h.1 ':' (hcolon n hmem)) (by decide)

/-- The loop variables are identifiers. -/
theorem isIdentifier_variableName (n : LoopName) : IsIdentifier n.variableName := by
  cases n <;> exact ⟨by decide, by decide⟩

theorem isValueName_variableName (n : LoopName) : IsValueName n.variableName := by
  cases n <;> exact ⟨[_], by decide, by decide, by decide, rfl⟩

/-- The words of a support function's name: those of the support class, then its own. -/
theorem Config.WellNamed.exists_words {c : Config} (h : c.WellNamed) (f : String) :
    ∃ ws, (∀ w ∈ ws, IsIdentifier w) ∧ c.supportClass ++ "::" ++ f = joinWords (ws ++ [f]) := by
  obtain ⟨ws, hne, hws, hclass⟩ := h
  refine ⟨ws, hws, ?_⟩
  rw [joinWords_concat hne, hclass]
  rfl

/-- The support functions are members of the support class. -/
theorem Config.WellNamed.isValueName {c : Config} (h : c.WellNamed) {f : String} (hf : IsIdentifier f)
    (htemplate : ∀ t ∈ callableTemplates, ¬ f.toList <:+ t.toList) : IsValueName (c.supportClass ++ "::" ++ f) := by
  obtain ⟨ws, hws, hname⟩ := h.exists_words f
  rw [hname]
  exact isValueName_concat (fun w hw => (hws w hw).1) hf htemplate

/-- The support class is in no scope that is a keyword. -/
theorem Config.WellNamed.scopedName {c : Config} (h : c.WellNamed) {f : String} (hf : IsIdentifier f) :
    ScopedName (c.supportClass ++ "::" ++ f) := by
  obtain ⟨ws, hws, hname⟩ := h.exists_words f
  rw [hname, scopedName_joinWords (areWords_concat (fun w hw => (hws w hw).1) hf.1)]
  refine Or.inr fun w hw => ?_
  rcases List.mem_append.1 hw with hw | hw
  · exact (hws w hw).2
  · rw [List.mem_singleton.1 hw]
    exact hf.2

/-! ## Types -/

theorem isTypeName_intType (t : IntType) : IsTypeName t.cppName := by
  rcases t with ⟨_ | _, _ | _ | _ | _⟩ <;> exact ⟨[_], by decide +kernel, by decide +kernel, by decide +kernel, rfl⟩

/-- A handle names nothing that what it points to does not name, apart from templates. -/
theorem wellNamed_handle (o : Ownership) {t : Ty} (h : t.WellNamed) : (o.handle t).WellNamed := by
  cases o <;> exact h

/-- The C++ type of a well-named type is well-named. -/
theorem wellNamed_cppType (o : Ownership) {t : ValueType} (h : t.WellNamed) : (o.cppType t).WellNamed := by
  induction t with
  | int t => exact isTypeName_intType t
  | float p => cases p <;> exact ⟨[_], by decide, by decide, by decide, rfl⟩
  | bool => exact ⟨["bool"], by decide, by decide, by decide, rfl⟩
  | str => exact ⟨["std", "string"], by decide, by decide, by decide, rfl⟩
  | bytes => exact ⟨["std", "string"], by decide, by decide, by decide, rfl⟩
  | array t ih => exact wellNamed_handle o (t := .vector (o.cppType t)) (ih h)
  | record path => exact wellNamed_handle o (t := .named (Naming.qualifiedClass path)) (isTypeName_qualifiedClass h.1 h.2)
  | «enum» d => exact isTypeName_enumType h

/-- The type of an element is well-named if that of the array is. -/
theorem wellNamed_element {t u : ValueType} (h : t.WellNamed) (hu : t.element? = some u) : u.WellNamed := by
  cases t with
  | array t =>
    obtain rfl : t = u := Option.some.inj hu
    exact h
  | str => cases hu; trivial
  | bytes => cases hu; trivial
  | _ => cases hu

/-- The type of an arithmetic result names nothing. -/
theorem wellNamed_arithmetic {a b u : ValueType} (hu : a.arithmetic? b = some u) : u.WellNamed := by
  unfold ValueType.arithmetic? at hu
  split at hu <;> cases hu <;> trivial

/-- The common type of two types is well-named if the first one is. -/
theorem wellNamed_common {a b u : ValueType} (ha : a.WellNamed) (hu : a.common? b = some u) : u.WellNamed := by
  unfold ValueType.common? at hu
  split at hu
  · cases hu
    exact ha
  · split at hu
    · exact wellNamed_arithmetic hu
    · cases hu

/-- The common type of items is built from the type of the first. -/
theorem wellNamed_commonOfAll {ts : List (Option ValueType)} {u : ValueType} (h : ∀ t ∈ ts, ∀ a, t = some a → a.WellNamed)
    (hu : ValueType.commonOfAll? ts = some u) : u.WellNamed := by
  cases ts with
  | nil => cases hu
  | cons t ts =>
    have hfirst := h t List.mem_cons_self
    clear h
    rw [ValueType.commonOfAll?] at hu
    induction ts generalizing t with
    | nil => exact hfirst u hu
    | cons s ts ih =>
      refine ih _ hu fun a ha => ?_
      obtain ⟨b, hb, c, -, hc⟩ : ∃ b, t = some b ∧ ∃ c, s = some c ∧ b.common? c = some a := by
        simpa [Option.bind_eq_some_iff] using ha
      exact wellNamed_common (hfirst b hb) hc

namespace TypeTable

/-- A type found for a well-named expression is well named. -/
theorem WellNamed.typeOf {T : TypeTable} (hT : T.WellNamed) {e : Expr} (he : e.WellNamed) {t : ValueType}
    (ht : T.typeOf e = some t) : t.WellNamed := by
  induction e generalizing t with
  | int n => cases ht; trivial
  | float x => cases ht; trivial
  | bool b => cases ht; trivial
  | str s => cases ht; trivial
  | bytes bs => cases ht; trivial
  | array items ih =>
    cases he with
    | array hitems =>
      change (ValueType.commonOfAll? (T.typesOf items)).map .array = some t at ht
      obtain ⟨u, hu, rfl⟩ := Option.map_eq_some_iff.1 ht
      change u.WellNamed
      refine wellNamed_commonOfAll (fun s hs a ha => ?_) hu
      rw [typesOf_eq_map] at hs
      obtain ⟨x, hx, rfl⟩ := List.mem_map.1 hs
      exact ih x hx (hitems x hx) ha
  | name n => exact hT.names n t ht
  | member v a ih =>
    rw [TypeTable.typeOf] at ht
    split at ht
    · exact hT.members _ _ _ ht
    · cases ht
  | subscript v i ihv ihi =>
    cases he with
    | subscript hv hi =>
      obtain ⟨u, hu, helement⟩ := Option.bind_eq_some_iff.1 ht
      exact wellNamed_element (ihv hv hu) helement
  | binary op l r ihl ihr =>
    rw [TypeTable.typeOf] at ht
    split at ht
    · cases ht; trivial
    · cases ht; trivial
    all_goals
      obtain ⟨a, -, hb⟩ := Option.bind_eq_some_iff.1 ht
      obtain ⟨b, -, harith⟩ := Option.bind_eq_some_iff.1 hb
      exact wellNamed_arithmetic harith
  | unary op e ih =>
    cases he with
    | unary he =>
      cases op with
      | not => cases ht; trivial
      | neg => exact ih he ht
      | invert => exact ih he ht
  | conditional c e f ihc ihe ihf =>
    cases he with
    | conditional hc he hf => exact ihe he ht
  | cast v target ih =>
    cases he with
    | cast hv htarget =>
      cases ht
      exact htarget
  | enumLabel d l =>
    cases he with
    | enumLabel hd hl =>
      cases ht
      exact hd
  | enumById d e ih =>
    cases he with
    | enumById hd he =>
      cases ht
      exact hd
  | method r m args ihr ihargs =>
    cases he with
    | method hr hargs =>
      have helement : (T.typeOf r).bind ValueType.element? = some t → t.WellNamed := by
        intro hbind
        obtain ⟨u, hu, helement⟩ := Option.bind_eq_some_iff.1 hbind
        exact wellNamed_element (ihr hr hu) helement
      cases m with
      | min => exact helement ht
      | max => exact helement ht
      | first => exact helement ht
      | last => exact helement ht
      | _ => cases ht; trivial

end TypeTable

end ExprToCpp
