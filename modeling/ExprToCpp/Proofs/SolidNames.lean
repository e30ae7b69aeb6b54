import ExprToCpp.Proofs.Cpp.Construction
import ExprToCpp.Proofs.ExprParts

/-!
# Names without blanks or quotes

The names of an expression and of the types it is emitted with are written into the C++ text as they are. If none of them holds a
blank or a quote, no name in the C++ expression does (`solid_of_lowers`). Blanks and quotes are one case of a kind of characters
that generated names and types keep to (`IsNameKind`, `IsTypeKind`).
-/

namespace ExprToCpp

open Cpp

/-! ## Expressions and types -/

/-- The names in a type. -/
def ValueType.names : ValueType → List String
  | .array t => t.names
  | .record path => path
  | .enum d => d.name :: d.owner
  | _ => []

/-- The names at the root of an expression. -/
def Expr.names : Expr → List String
  | .name n => [n]
  | .member _ a => [a]
  | .cast _ t => t.names
  | .enumLabel d label => label :: d.name :: d.owner
  | .enumById d _ => d.name :: d.owner
  | _ => []

/-- No name holds a blank or a quote that is written for the root of an expression: none there, and none in its type. -/
structure Context.SolidAt (Γ : Context) (e : Expr) : Prop where
  names : ∀ n ∈ e.names, IsSolid n
  type : ∀ t, Γ.types.typeOf e = some t → ∀ n ∈ t.names, IsSolid n

/-- No name that is written for an expression holds a blank or a quote. -/
structure Context.Solid (Γ : Context) (e : Expr) : Prop where
  support : IsSolid Γ.config.supportClass
  parts : ∀ x : Expr, x.IsPartOf e → Γ.SolidAt x

/-- Solid names are asked of the expression itself. -/
theorem Context.Solid.root {Γ : Context} {e : Expr} (h : Γ.Solid e) : Γ.SolidAt e := h.parts e .self

/-- They are asked of every part, so a child of a solid expression is solid. -/
theorem Context.Solid.child {Γ : Context} {e x : Expr} (h : Γ.Solid e) (hx : x ∈ e.children) : Γ.Solid x :=
  ⟨h.support, fun y hy => h.parts y (.child hx hy)⟩

/-! ## The text of generated names -/

/-- Every character of a text is of a kind. -/
def AllChars (p : Char → Prop) (s : String) : Prop := ∀ c ∈ s.toList, p c

instance (p : Char → Prop) [DecidablePred p] (s : String) : Decidable (AllChars p s) :=
  inferInstanceAs (Decidable (∀ c ∈ s.toList, p c))

/-- A property of all characters can be checked on the two halves of a text. -/
theorem allChars_append {p : Char → Prop} {s t : String} : AllChars p (s ++ t) ↔ AllChars p s ∧ AllChars p t := by
  simp only [AllChars, String.toList_append, List.forall_mem_append]

/-- The characters that classes, enumerations and constants have besides those of the names they are called after. -/
def nameAffixes : List Char := "_et:".toList

/-- The characters that types have besides those of the names in them. -/
def typeAffixes : List Char := "abcdefghijklmnopqrstuvwxyz0123456789_:<>*".toList

/-- A kind of characters that generated names keep to if the names they are generated from do. -/
structure IsNameKind (p : Char → Prop) : Prop where
  affix : ∀ c ∈ nameAffixes, p c
  toUpper : ∀ c, p c → p c.toUpper

/-- A kind of characters that types keep to as well. -/
structure IsTypeKind (p : Char → Prop) : Prop extends IsNameKind p where
  typeAffix : ∀ c ∈ typeAffixes, p c

namespace IsNameKind

variable {p : Char → Prop}

/-- The texts that naming adds around the names it is given are made of the few characters that every kind of name has. -/
theorem fixed (hp : IsNameKind p) (s : String) (hs : ∀ c ∈ s.toList, c ∈ nameAffixes) : AllChars p s :=
  fun c hc => hp.affix c (hs c hc)

/-- The qualified name of a class keeps to the kind of characters of the names on its path. -/
theorem qualifiedClass (hp : IsNameKind p) {path : List String} (h : ∀ n ∈ path, AllChars p n) :
    AllChars p (Naming.qualifiedClass path) := by
  have hclass : ∀ n, AllChars p n → AllChars p (Naming.className n) :=
    fun n hn => allChars_append.2 ⟨hn, hp.fixed _ (by decide)⟩
  induction path with
  | nil => exact hp.fixed _ (by decide)
  | cons n path ih =>
    obtain ⟨hn, hpath⟩ := List.forall_mem_cons.1 h
    cases path with
    | nil =>
      rw [Naming.qualifiedClass, List.map_cons, List.map_nil, String.intercalate_singleton]
      exact hclass n hn
    | cons n' path =>
      rw [Naming.qualifiedClass, List.map_cons, List.map_cons, String.intercalate_cons_cons, allChars_append, allChars_append]
      exact ⟨⟨hclass n hn, hp.fixed _ (by decide)⟩, ih hpath⟩

/-- So does a name in the scope of a class. -/
theorem qualify (hp : IsNameKind p) {owner : List String} {name : String} (howner : ∀ n ∈ owner, AllChars p n)
    (hname : AllChars p name) : AllChars p (Naming.qualify owner name) := by
  unfold Naming.qualify
  split
  · exact hname
  · rw [allChars_append, allChars_append]
    exact ⟨⟨hp.qualifiedClass howner, hp.fixed _ (by decide)⟩, hname⟩

theorem enumType (hp : IsNameKind p) {d : EnumDecl} (h : ∀ n ∈ d.name :: d.owner, AllChars p n) :
    AllChars p (Naming.enumType d) := by
  obtain ⟨hname, howner⟩ := List.forall_mem_cons.1 h
  exact hp.qualify howner (allChars_append.2 ⟨hname, hp.fixed _ (by decide)⟩)

/-- Naming may write letters as capitals without leaving the kind of characters. -/
theorem upperCase (hp : IsNameKind p) {s : String} (h : AllChars p s) : AllChars p (Naming.upperCase s) := by
  intro c hc
  rw [Naming.upperCase, String.toList_map] at hc
  obtain ⟨d, hd, rfl⟩ := List.mem_map.1 hc
  exact hp.toUpper d (h d hd)

/-- The name of an enumeration constant keeps to the kind of characters of its label, the enumeration and the owners. -/
theorem enumConstant (hp : IsNameKind p) {d : EnumDecl} {label : String} (h : ∀ n ∈ label :: d.name :: d.owner, AllChars p n) :
    AllChars p (Naming.enumConstant d label) := by
  rw [List.forall_mem_cons, List.forall_mem_cons] at h
  obtain ⟨hlabel, hname, howner⟩ := h
  exact hp.qualify howner (hp.upperCase (allChars_append.2 ⟨allChars_append.2 ⟨hname, hp.fixed _ (by decide)⟩, hlabel⟩))

end IsNameKind

namespace IsTypeKind

variable {p : Char → Prop}

/-- The texts that types have of their own are made of the characters that every kind of type text has. -/
theorem fixedType (hp : IsTypeKind p) (s : String) (hs : ∀ c ∈ s.toList, c ∈ typeAffixes) : AllChars p s :=
  fun c hc => hp.typeAffix c (hs c hc)

/-- A vector adds no character of another kind to its item type. -/
theorem vector (hp : IsTypeKind p) {t : Ty} (h : AllChars p t.render) : AllChars p (Ty.vector t).render :=
  allChars_append.2 ⟨allChars_append.2 ⟨hp.fixedType _ (by decide), h⟩, hp.fixedType _ (by decide)⟩

theorem handle (hp : IsTypeKind p) (o : Ownership) {t : Ty} (h : AllChars p t.render) : AllChars p (o.handle t).render := by
  cases o with
  | raw | uniqueAndRaw => exact allChars_append.2 ⟨h, hp.fixedType _ (by decide)⟩
  | shared => exact allChars_append.2 ⟨allChars_append.2 ⟨hp.fixedType _ (by decide), h⟩, hp.fixedType _ (by decide)⟩

/-- The names of the fixed-width integer types are of every kind. -/
theorem intType (hp : IsTypeKind p) (t : IntType) : AllChars p t.cppName := by
  obtain ⟨_ | _, _ | _ | _ | _⟩ := t <;> exact hp.fixedType _ (by decide)

/-- The C++ text of a value's type has only characters of that kind if the names in the type do. -/
theorem cppType (hp : IsTypeKind p) (o : Ownership) {t : ValueType} (h : ∀ n ∈ t.names, AllChars p n) :
    AllChars p (o.cppType t).render := by
  induction t with
  | int t => exact hp.intType t
  | float precision => cases precision <;> cases o <;> exact hp.fixedType _ (by decide)
  | bool | str | bytes => cases o <;> exact hp.fixedType _ (by decide)
  | array t ih => exact hp.handle o (hp.vector (ih h))
  | record path => exact hp.handle o (hp.qualifiedClass h)
  | enum d => exact hp.enumType h

end IsTypeKind

/-- Writing letters as capitals makes no character that is below the letters. -/
theorem toUpper_ne {c d : Char} (h : c ≠ d) (hd : d.toNat < 'A'.toNat) : c.toUpper ≠ d := by
  unfold Char.toUpper
  split
  · next hletter =>
    rintro rfl
    obtain ⟨hleast, hgreatest⟩ := hletter
    simp only [Char.toNat, UInt32.le_iff_toNat_le, UInt32.toNat_add] at hleast hgreatest hd
    simp at hleast hgreatest hd
    omega
  · exact h

/-- Names without blanks or quotes generate names and types without them. -/
theorem isTypeKind_solid : IsTypeKind fun c => c ≠ ' ' ∧ c ≠ '"' where
  affix := by decide
  typeAffix := by decide
  toUpper _ h := ⟨toUpper_ne h.1 (by decide), toUpper_ne h.2 (by decide)⟩

/-! ## The names that lowering writes -/

/-- A sign in front of a solid expression brings no name. -/
theorem solid_signed (negative : Bool) {e : Cpp.Expr} (h : e.Solid) : (Cpp.Expr.signed negative e).Solid := by
  cases negative <;> exact h

theorem solid_ofInt (n : Int) : (Cpp.Expr.ofInt n).Solid := by
  unfold Cpp.Expr.ofInt Cpp.Expr.exceptionalInt Cpp.Expr.belowLeast Cpp.Expr.signedInt
  split
  · exact solid_signed _ trivial
  · split_ifs
    · exact ⟨solid_signed _ trivial, trivial⟩
    · exact ⟨solid_signed _ trivial, trivial⟩
    · exact solid_signed _ trivial

/-- A float that has no digits is a name of the library, which is solid. -/
theorem solid_ofBinary64 (x : Binary64) : (Cpp.Expr.ofBinary64 x).Solid := by
  have hlimit : ∀ n, IsSolid n → (Cpp.Expr.call (.name n) []).Solid := fun n hn => ⟨hn, trivial⟩
  unfold Cpp.Expr.ofBinary64
  split_ifs
  · exact hlimit _ (by decide)
  · exact solid_signed _ trivial
  · exact solid_signed _ (hlimit _ (by decide))

/-- A string object names only the string class. -/
theorem solid_stringObject (style : Escape.Style) (bytes : List UInt8) (withLength : Bool) :
    (Cpp.Expr.stringObject style bytes withLength).Solid := by
  have hname : IsSolid "std::string" := by decide
  cases withLength with
  | false => exact ⟨hname, trivial, trivial⟩
  | true => exact ⟨hname, trivial, trivial, trivial⟩

theorem isSolid_variableName (n : LoopName) : IsSolid n.variableName := by
  cases n <;> decide

/-- A name that is referred to stays as it is, or is the name of a loop variable. -/
theorem solid_reference {n : String} (h : IsSolid n) : (Naming.reference n).Solid := by
  unfold Naming.reference
  split
  · exact isSolid_variableName _
  · exact ⟨h, trivial⟩

/-- So does the name of a member. -/
theorem solid_member {c : Cpp.Expr} {n : String} (hc : c.Solid) (h : IsSolid n) : (Naming.member c n).Solid := by
  unfold Naming.member
  split
  · exact ⟨hc, isSolid_variableName _⟩
  · exact ⟨⟨hc, h⟩, trivial⟩

/-- A support function is named by its class and its own name. -/
theorem solid_support {config : Config} {f : String} (hconfig : IsSolid config.supportClass) (hf : IsSolid f) :
    (config.support f).Solid :=
  isSolid_append.2 ⟨isSolid_append.2 ⟨hconfig, by decide⟩, hf⟩

/-- A cast to a record adds only the text of the record's type. -/
theorem solid_recast (o : Ownership) {t : Ty} {c : Cpp.Expr} (ht : IsSolid t.render) (hc : c.Solid) : (o.recast t c).Solid := by
  cases o with
  | raw => exact ⟨isTypeKind_solid.handle .raw ht, hc⟩
  | uniqueAndRaw => exact ⟨isTypeKind_solid.handle .uniqueAndRaw ht, hc⟩
  | shared => exact ⟨ht, hc⟩

/-- The construction of an array adds only the text of its type to the items. -/
theorem solid_makeArray {o : Ownership} {t : Ty} {cs : List Cpp.Expr} {c : Cpp.Expr} (ht : IsSolid t.render)
    (hcs : Cpp.Expr.SolidAll cs) (h : o.makeArray (.vector t) cs = .ok c) : c.Solid := by
  cases o with
  | raw =>
    cases h
    exact ⟨⟨t, rfl, ht⟩, hcs⟩
  | uniqueAndRaw =>
    cases h
    exact ⟨isTypeKind_solid.vector ht, ⟨t, rfl, ht⟩, hcs⟩
  | shared => cases h

section

variable {Γ : Context} {c : Cpp.Expr}

/-- A method call names support functions and members of the library, and else what its parts name. -/
theorem solid_method {r : Expr} {m : Method} {args : List Expr} (hsupport : IsSolid Γ.config.supportClass)
    (hr : ∀ c, Lowers Γ r c → c.Solid) (hargs : ∀ x ∈ args, ∀ c, Lowers Γ x c → c.Solid)
    (h : Lowers Γ (.method r m args) c) : c.Solid := by
  cases h with
  | textLength _ _ _ h => exact ⟨⟨hr _ h, by decide⟩, trivial⟩
  | arraySize _ _ h | firstItem _ h | lastItem _ h => exact ⟨⟨hr _ h, by decide⟩, trivial⟩
  | firstByte _ _ h =>
    split
    · exact ⟨⟨hr _ h, by decide⟩, trivial⟩
    · exact ⟨hr _ h, trivial⟩
  | lastByte _ _ h =>
    split
    · exact ⟨⟨hr _ h, by decide⟩, trivial⟩
    · exact ⟨hr _ h, ⟨⟨hr _ h, by decide⟩, trivial⟩, trivial⟩
  | extremeItem hm _ h =>
    have hname : IsSolid ("std::" ++ m.name ++ "_element") := by rcases hm with rfl | rfl <;> decide
    exact ⟨hname, ⟨⟨hr _ h, by decide⟩, trivial⟩, ⟨⟨hr _ h, by decide⟩, trivial⟩, trivial⟩
  | extremeByte hm _ h =>
    have hname : IsSolid ("byte_array_" ++ m.name) := by rcases hm with rfl | rfl <;> decide
    exact ⟨solid_support hsupport hname, hr _ h, trivial⟩
  | @substring _ i j _ _ _ _ h hi hj =>
    have hstart := hargs i (by simp) _ hi
    exact ⟨⟨hr _ h, by decide⟩, hstart, ⟨hargs j (by simp) _ hj, hstart⟩, trivial⟩
  | reverse _ h => exact ⟨solid_support hsupport (by decide), hr _ h, trivial⟩
  | intText _ _ h => exact ⟨solid_support hsupport (by decide), hr _ h, trivial⟩
  | decoded _ h => exact ⟨solid_support hsupport (by decide), hr _ h, trivial, trivial⟩
  | parsed _ _ h => exact ⟨(by decide : IsSolid "std::stoi"), hr _ h, trivial⟩
  | @parsedInRadix _ radix _ _ _ _ h hradix =>
    exact ⟨(by decide : IsSolid "std::stoi"), hr _ h, trivial, hargs radix (by simp) _ hradix, trivial⟩
  | truthValue _ h =>
    have hc := hr _ h
    exact ⟨hc, trivial, trivial⟩
  | truncated _ h => exact ⟨(by decide : IsSolid "int"), hr _ h⟩
  | ownText _ h => exact hr _ h
  | ownInt _ _ h => exact hr _ h

/-- The names in the C++ expression hold no blanks or quotes if those it is made from do not. -/
theorem solid_of_lowers {e : Expr} (he : Γ.Solid e) (h : Lowers Γ e c) : c.Solid := by
  induction e generalizing c with
  | int n => cases h; exact solid_ofInt n
  | float x => cases h; exact solid_ofBinary64 x
  | bool b => cases h; exact trivial
  | str s => cases h; exact solid_stringObject _ _ _
  | bytes bs => cases h; exact solid_stringObject _ _ _
  | array items ih =>
    cases h with
    | @array _ t cs _ ht hitems hmake =>
      have hcs : Cpp.Expr.SolidAll cs := by
        rw [Cpp.Expr.solidAll_iff]
        intro d hd
        obtain ⟨x, hx, hlowers⟩ := exists_lowers_of_mem hitems hd
        exact ih x hx (he.child hx) hlowers
      have hnames : ∀ n ∈ t.names, IsSolid n := he.root.type (.array t) ht
      exact solid_makeArray (isTypeKind_solid.cppType _ hnames) hcs hmake
  | name n => cases h; exact solid_reference (he.root.names n (by simp [Expr.names]))
  | member v a ih =>
    cases h with
    | member h => exact solid_member (ih (he.child (by simp)) h) (he.root.names a (by simp [Expr.names]))
  | subscript v i ihv ihi =>
    have hv : Γ.Solid v := he.child (by simp)
    have hi : Γ.Solid i := he.child (by simp)
    cases h with
    | item _ h h' => exact ⟨⟨ihv hv h, by decide⟩, ihi hi h', trivial⟩
    | byte _ h h' => exact ⟨ihv hv h, ihi hi h'⟩
  | binary op l r ihl ihr =>
    have hl : Γ.Solid l := he.child (by simp)
    have hr : Γ.Solid r := he.child (by simp)
    cases h with
    | intRemainder _ _ h h' => exact ⟨solid_support he.support (by decide), ihl hl h, ihr hr h', trivial⟩
    | floatRemainder _ _ _ h h' => exact ⟨(by decide : IsSolid "std::fmod"), ihl hl h, ihr hr h', trivial⟩
    | otherRemainder _ _ _ _ h h' => exact ⟨ihl hl h, ihr hr h'⟩
    | textOrder _ _ _ _ _ h h' => exact ⟨⟨⟨ihl hl h, by decide⟩, ihr hr h', trivial⟩, trivial⟩
    | order _ _ _ h h' => exact ⟨ihl hl h, ihr hr h'⟩
    | binary _ _ h h' => exact ⟨ihl hl h, ihr hr h'⟩
  | unary op e ih =>
    cases h with
    | unary h =>
      have hc := ih (he.child (by simp)) h
      exact hc
  | conditional e t f ihe iht ihf =>
    cases h with
    | conditional h h' h'' =>
      have hcond := ihe (he.child (by simp)) h
      have htrue := iht (he.child (by simp)) h'
      have hfalse := ihf (he.child (by simp)) h''
      exact ⟨hcond, htrue, hfalse⟩
  | cast v t ih =>
    have hv : Γ.Solid v := he.child (by simp)
    cases h with
    | castRecord h => exact solid_recast _ (isTypeKind_solid.qualifiedClass he.root.names) (ih hv h)
    | cast _ h => exact ⟨isTypeKind_solid.cppType _ he.root.names, ih hv h⟩
  | enumLabel d label => cases h; exact isTypeKind_solid.enumConstant he.root.names
  | enumById d e ih =>
    cases h with
    | enumById h => exact ⟨isTypeKind_solid.enumType he.root.names, ih (he.child (by simp)) h⟩
  | method r m args ihr ihargs =>
    have hr : Γ.Solid r := he.child (by simp)
    exact solid_method he.support (fun _ => ihr hr) (fun x hx _ => ihargs x hx (he.child (by simp [hx]))) h

end

end ExprToCpp
