import ExprToCpp.Proofs.Cpp.WellFormed
import ExprToCpp.Proofs.Naming
import ExprToCpp.Proofs.WrittenNames

/-!
# Emitted text reads back

What stands for an expression is well-formed, and owns what it makes under one strategy only (`wellFormed_of_lowers`), so its text
is the tokens of its tree (`rendered_of_lowers`). The grammar of C++ is not asked for names only: a point after a number would be
part of the number, and nothing but the types of expressions keeps the two apart (`endsInNumber_of_isTextual`).
-/

namespace ExprToCpp

open Cpp

/-! ## Literals -/

section

variable {owning : Bool}

theorem wellFormed_signed {e : Cpp.Expr} (negative : Bool) (h : e.WellFormed owning) :
    (Cpp.Expr.signed negative e).WellFormed owning := by
  cases negative with
  | true => exact .unary (.operator .neg) h
  | false => exact h

theorem wellFormed_signedInt (n : Int) (s : IntSuffix) : (Cpp.Expr.signedInt n s).WellFormed owning :=
  wellFormed_signed _ (.int n.natAbs s)

theorem wellFormed_belowLeast (n : Int) (s : IntSuffix) : (Cpp.Expr.belowLeast n s).WellFormed owning :=
  .paren (.binary .sub (wellFormed_signedInt n s) (.int 1 .plain))

/-- Every integer is written by a well-formed expression. -/
theorem wellFormed_ofInt (n : Int) : (Cpp.Expr.ofInt n).WellFormed owning := by
  unfold Cpp.Expr.ofInt
  split
  · exact wellFormed_signedInt n _
  · unfold Cpp.Expr.exceptionalInt
    split
    · exact wellFormed_belowLeast _ _
    · split
      · exact wellFormed_belowLeast _ _
      · exact wellFormed_signedInt n .plain

/-- So is every float. -/
theorem wellFormed_ofBinary64 (x : Binary64) : (Cpp.Expr.ofBinary64 x).WellFormed owning := by
  have hnan : Cpp.Expr.WellFormed owning (.call (.name ("std::numeric_limits<double>::" ++ "quiet_NaN")) []) :=
    .call rfl (.limit ⟨by decide, by decide⟩) nofun
  have hinf : Cpp.Expr.WellFormed owning (.call (.name ("std::numeric_limits<double>::" ++ "infinity")) []) :=
    .call rfl (.limit ⟨by decide, by decide⟩) nofun
  unfold Cpp.Expr.ofBinary64
  split
  · exact hnan
  · apply wellFormed_signed
    split
    · exact .float _
    · exact hinf

theorem isValueName_string : IsValueName "std::string" := ⟨["std", "string"], by decide, by decide, by decide, rfl⟩

/-- String objects are well-formed. -/
theorem wellFormed_stringObject (style : Escape.Style) (bytes : List UInt8) (withLength : Bool) :
    (Cpp.Expr.stringObject style bytes withLength).WellFormed owning := by
  apply Expr.WellFormed.call rfl (.name isValueName_string)
  intro a ha
  rcases List.mem_cons.1 ha with rfl | ha
  · exact .string style bytes
  · cases withLength with
    | true =>
      rw [List.mem_singleton.1 ha]
      exact .int _ _
    | false => cases ha

/-- The text of an integer reads back. -/
theorem written_ofInt (n : Int) : Written (Cpp.Expr.ofInt n) where
  rendered := (show (Cpp.Expr.ofInt n).WellFormed false from wellFormed_ofInt n).rendered
  namesScoped := by
    rw [Cpp.Expr.scoped_tree_iff, names_ofInt]
    exact nofun

/-- The text of a string literal reads back. -/
theorem written_string (style : Escape.Style) (bytes : List UInt8) : Written (.string style bytes) :=
  ⟨rendered_string style bytes, trivial⟩

/-- The text of a string object reads back. -/
theorem written_stringObject (style : Escape.Style) (bytes : List UInt8) (withLength : Bool) :
    Written (Cpp.Expr.stringObject style bytes withLength) where
  rendered := (show (Cpp.Expr.stringObject style bytes withLength).WellFormed false from wellFormed_stringObject _ _ _).rendered
  namesScoped := by
    have hstring : ScopedName "std::string" := by decide +kernel
    rw [Cpp.Expr.scoped_tree_iff]
    cases withLength <;> simpa [Cpp.Expr.stringObject] using hstring

/-! ## Names -/

/-- A reference to a name in snake case is well-formed. -/
theorem wellFormed_reference {n : String} (h : IsSnakeName n) : (Naming.reference n).WellFormed owning := by
  unfold Naming.reference
  split
  · exact .name (isValueName_variableName _)
  · exact .call rfl (.name (isValueName_of_isSnakeName h)) nofun

/-- So is an access to a member with such a name. -/
theorem wellFormed_member {c : Cpp.Expr} {n : String} (hc : c.WellFormed owning) (h : IsSnakeName n) :
    (Naming.member c n).WellFormed owning := by
  unfold Naming.member
  split
  · exact .arrow (isIdentifier_variableName _) hc
  · exact .call rfl (.arrow h.isIdentifier hc) nofun

/-- A call of a support function. -/
theorem wellFormed_support {config : Config} {f : String} {args : List Cpp.Expr} (hconfig : config.WellNamed) (hf : IsIdentifier f)
    (htemplate : ∀ t ∈ Reader.callableTemplates, ¬ f.toList <:+ t.toList) (hargs : ∀ a ∈ args, a.WellFormed owning) :
    Cpp.Expr.WellFormed owning (.call (config.support f) args) :=
  .call rfl (.name (hconfig.isValueName hf htemplate)) hargs

end

/-! ## Numbers and their types -/

theorem endsInNumber_reference (n : String) : (Naming.reference n).endsInNumber = false := by
  unfold Naming.reference
  split <;> rfl

theorem endsInNumber_member (c : Cpp.Expr) (n : String) : (Naming.member c n).endsInNumber = false := by
  unfold Naming.member
  split <;> rfl

theorem endsInNumber_recast (o : Ownership) (t : Ty) (c : Cpp.Expr) : (o.recast t c).endsInNumber = false := by
  cases o <;> rfl

/-- Constructions of arrays end in a bracket. -/
theorem endsInNumber_makeArray {o : Ownership} {t : Ty} {cs : List Cpp.Expr} {c : Cpp.Expr} (h : o.makeArray t cs = .ok c) :
    c.endsInNumber = false := by
  cases o with
  | raw => cases h; rfl
  | uniqueAndRaw => cases h; rfl
  | shared => cases h

/-- Arithmetic that gives a text is done on texts. -/
theorem isTextual_of_arithmetic {a b t : ValueType} (h : a.arithmetic? b = some t) (ht : t.isTextual = true) :
    b.isTextual = true := by
  unfold ValueType.arithmetic? at h
  split at h <;> cases h <;> first | rfl | cases ht

/-- What stands for a text does not end in a number, so its members may be called. -/
theorem endsInNumber_of_isTextual {T : TypeTable} {config : Config} {e : Expr} {c : Cpp.Expr} {t : ValueType}
    (h : Lowers ⟨T.toTyping, config⟩ e c) (ht : T.typeOf e = some t) (htext : t.isTextual = true) : c.endsInNumber = false := by
  induction e generalizing c t with
  | int n => cases ht; cases htext
  | float x => cases ht; cases htext
  | array items ih =>
    cases h with
    | array _ _ hmade => exact endsInNumber_makeArray hmade
  | name n => cases h; exact endsInNumber_reference n
  | member v a ih => cases h; exact endsInNumber_member _ a
  | cast v t ih =>
    cases h with
    | castRecord => exact endsInNumber_recast _ _ _
    | cast => rfl
  | binary op l r ihl ihr =>
    -- the right operand of arithmetic is a text if the result is one, and no other operator gives a text
    have hright : ∀ {d}, Lowers ⟨T.toTyping, config⟩ r d → d.endsInNumber = false := by
      intro d hd
      rw [TypeTable.typeOf] at ht
      split at ht
      · cases ht; cases htext
      · cases ht; cases htext
      all_goals
        obtain ⟨a, -, hb⟩ := Option.bind_eq_some_iff.1 ht
        obtain ⟨b, hb, hab⟩ := Option.bind_eq_some_iff.1 hb
        exact ihr hd hb (isTextual_of_arithmetic hab htext)
    cases h with
    | otherRemainder _ _ _ _ _ hr => rw [Cpp.Expr.endsInNumber, hright hr]
    | order _ _ _ _ hr => rw [Cpp.Expr.endsInNumber, hright hr]
    | binary _ _ _ hr => rw [Cpp.Expr.endsInNumber, hright hr]
    | _ => rfl
  | unary op e ih =>
    cases h with
    | unary hc =>
      rw [Cpp.Expr.endsInNumber]
      cases op with
      | not => cases ht; cases htext
      | neg => exact ih hc ht htext
      | invert => exact ih hc ht htext
  | method r m args ihr ihargs =>
    cases h with
    | ownInt => cases ht; cases htext
    | ownText htype hr => exact ihr hr htype rfl
    | firstByte => split <;> rfl
    | lastByte => split <;> rfl
    | _ => rfl
  | _ => cases h <;> rfl

/-! ## Expressions -/

section

variable {T : TypeTable} {config : Config} {owning : Bool} {e : Expr} {c d : Cpp.Expr} {m : String}

/-- The construction of an array is well-formed if its type and its items are. -/
theorem wellFormed_makeArray {o : Ownership} {t : Ty} {cs : List Cpp.Expr} (ht : t.WellNamed)
    (hcs : ∀ x ∈ cs, x.WellFormed (o == .uniqueAndRaw)) (h : o.makeArray t cs = .ok c) : c.WellFormed (o == .uniqueAndRaw) := by
  cases o with
  | raw => cases h; exact .new ht hcs
  | uniqueAndRaw => cases h; exact .own rfl ht (.new ht hcs)
  | shared => cases h

/-- A cast to a record is well-formed if its type and its operand are. -/
theorem wellFormed_recast (o : Ownership) {t : Ty} (ht : t.WellNamed) (h : c.WellFormed owning) :
    (o.recast t c).WellFormed owning := by
  cases o with
  | raw => exact .staticCast ht h
  | uniqueAndRaw => exact .staticCast ht h
  | shared => exact .staticPointerCast ht h

/-- A call without arguments of a member of a string. -/
theorem wellFormed_onString (hm : IsIdentifier m) (hc : c.endsInNumber = false) (h : c.WellFormed owning) :
    Cpp.Expr.WellFormed owning (.call (.dot c m) []) :=
  .call rfl (.dot hm hc h) nofun

/-- A call without arguments of a member of an array. -/
theorem wellFormed_onArray (hm : IsIdentifier m) (h : c.WellFormed owning) : Cpp.Expr.WellFormed owning (.call (.arrow c m) []) :=
  .call rfl (.arrow hm h) nofun

theorem forall_singleton (hc : c.WellFormed owning) : ∀ x ∈ [c], x.WellFormed owning := by
  intro x hx
  rwa [List.mem_singleton.1 hx]

theorem forall_pair (hc : c.WellFormed owning) (hd : d.WellFormed owning) : ∀ x ∈ [c, d], x.WellFormed owning := by
  intro x hx
  rcases List.mem_cons.1 hx with rfl | hx
  · exact hc
  · exact forall_singleton hd x hx

/-- The comparison of two texts is well-formed, as no text ends in a number. -/
theorem wellFormed_textOrder {op : BinaryOp} (hc : c.endsInNumber = false) (h : c.WellFormed owning) (hd : d.WellFormed owning) :
    Cpp.Expr.WellFormed owning (.paren (.binary op (.call (.dot c "compare") [d]) (.int 0 .plain))) :=
  .paren (.binary op (.call rfl (.dot ⟨by decide, by decide⟩ hc h) (forall_singleton hd)) (.int 0 .plain))

/-- A substring is well-formed for the same reason. -/
theorem wellFormed_substring (hc : c.endsInNumber = false) (h : c.WellFormed owning) {i j : Cpp.Expr} (hi : i.WellFormed owning)
    (hj : j.WellFormed owning) : Cpp.Expr.WellFormed owning (.call (.dot c "substr") [i, .binary .sub j i]) :=
  .call rfl (.dot ⟨by decide, by decide⟩ hc h) (forall_pair hi (.binary .sub hj hi))

/-- The two ends of a range of an array are taken from two copies of its text. -/
theorem wellFormed_extremeItem {m : Method} (hm : m = .min ∨ m = .max) (h : c.WellFormed owning) :
    Cpp.Expr.WellFormed owning (.unary .deref
      (.call (.name ("std::" ++ m.name ++ "_element")) [.call (.arrow c "begin") [], .call (.arrow c "end") []])) := by
  have hname : IsValueName ("std::" ++ m.name ++ "_element") := by
    rcases hm with rfl | rfl
    · exact ⟨["std", "min_element"], by decide, by decide, by decide, rfl⟩
    · exact ⟨["std", "max_element"], by decide, by decide, by decide, rfl⟩
  have hbegin : Cpp.Expr.WellFormed owning (.call (.arrow c "begin") []) := wellFormed_onArray ⟨by decide, by decide⟩ h
  have hend : Cpp.Expr.WellFormed owning (.call (.arrow c "end") []) := wellFormed_onArray ⟨by decide, by decide⟩ h
  exact .unary .deref (.call rfl (.name hname) (forall_pair hbegin hend))

theorem logicalOr_le_primary : BindingLevel.logicalOr.rank ≤ BindingLevel.primary.rank := by decide

theorem isValueName_stoi : IsValueName "std::stoi" := ⟨["std", "stoi"], by decide, by decide, by decide, rfl⟩

theorem isValueName_fmod : IsValueName "std::fmod" := ⟨["std", "fmod"], by decide, by decide, by decide, rfl⟩

/-- What stands for a method call is well-formed if the receiver and the arguments are. -/
theorem wellFormed_method {r : Expr} {m : Method} {args : List Expr} (hconfig : config.WellNamed)
    (hr : ∀ x, Lowers ⟨T.toTyping, config⟩ r x → x.WellFormed owning)
    (hargs : ∀ a ∈ args, ∀ x, Lowers ⟨T.toTyping, config⟩ a x → x.WellFormed owning)
    (h : Lowers ⟨T.toTyping, config⟩ (.method r m args) c) : c.WellFormed owning := by
  cases h with
  | textLength hm ht htext hc =>
    exact wellFormed_onString ⟨by decide, by decide⟩ (endsInNumber_of_isTextual hc ht htext) (hr _ hc)
  | arraySize hm ht hc => exact wellFormed_onArray ⟨by decide, by decide⟩ (hr _ hc)
  | firstItem ht hc => exact wellFormed_onArray ⟨by decide, by decide⟩ (hr _ hc)
  | firstByte ht htext hc =>
    split
    · exact wellFormed_onString ⟨by decide, by decide⟩ (endsInNumber_of_isTextual hc ht htext) (hr _ hc)
    · exact .index (hr _ hc) (.int 0 .plain)
  | lastItem ht hc => exact wellFormed_onArray ⟨by decide, by decide⟩ (hr _ hc)
  | lastByte ht htext hc =>
    split
    · exact wellFormed_onString ⟨by decide, by decide⟩ (endsInNumber_of_isTextual hc ht htext) (hr _ hc)
    · have hlength := wellFormed_onString (m := "length") ⟨by decide, by decide⟩ (endsInNumber_of_isTextual hc ht htext) (hr _ hc)
      exact .index (hr _ hc) (.binary .sub hlength (.int 1 .plain))
  | extremeItem hm ht hc => exact wellFormed_extremeItem hm (hr _ hc)
  | extremeByte hm ht hc =>
    rcases hm with rfl | rfl
    · exact wellFormed_support (f := "byte_array_min") hconfig ⟨by decide, by decide⟩ (by decide) (forall_singleton (hr _ hc))
    · exact wellFormed_support (f := "byte_array_max") hconfig ⟨by decide, by decide⟩ (by decide) (forall_singleton (hr _ hc))
  | @substring _ i j c ci cj ht hc hci hcj =>
    exact wellFormed_substring (endsInNumber_of_isTextual hc ht rfl) (hr _ hc) (hargs i (by simp) _ hci) (hargs j (by simp) _ hcj)
  | reverse ht hc => exact wellFormed_support hconfig ⟨by decide, by decide⟩ (by decide) (forall_singleton (hr _ hc))
  | intText ht hten hc => exact wellFormed_support hconfig ⟨by decide, by decide⟩ (by decide) (forall_singleton (hr _ hc))
  | decoded ht hc =>
    exact wellFormed_support hconfig ⟨by decide, by decide⟩ (by decide) (forall_pair (hr _ hc) (.string .text _))
  | ownText ht hc => exact hr _ hc
  | parsed ht hten hc => exact .call rfl (.name isValueName_stoi) (forall_singleton (hr _ hc))
  | @parsedInRadix _ radix c cr ht hradix hc hcr =>
    apply Expr.WellFormed.call rfl (.name isValueName_stoi)
    intro x hx
    rcases List.mem_cons.1 hx with rfl | hx
    · exact hr _ hc
    · exact forall_pair (.int 0 .plain) (hargs radix (by simp) _ hcr) x hx
  | truthValue ht hc =>
    exact .paren (.conditional logicalOr_le_primary (.paren (hr _ hc)) (.int 1 .plain)
      (.int 0 .plain))
  | truncated ht hc =>
    exact .staticCast (t := .named "int") ⟨["int"], by decide, by decide, by decide, rfl⟩ (hr _ hc)
  | ownInt ht hkind hc => exact hr _ hc

/-- What stands for a well-named expression is well-formed, and owns what it makes only under one strategy. -/
theorem wellFormed_of_lowers (hT : T.WellNamed) (hconfig : config.WellNamed) (he : e.WellNamed)
    (h : Lowers ⟨T.toTyping, config⟩ e c) : c.WellFormed (config.ownership == .uniqueAndRaw) := by
  induction e generalizing c with
  | int n => cases h; exact wellFormed_ofInt n
  | float x => cases h; exact wellFormed_ofBinary64 x
  | bool b => cases h; exact .bool b
  | str s => cases h; exact wellFormed_stringObject .text _ _
  | bytes bs => cases h; exact wellFormed_stringObject .raw bs true
  | array items ih =>
    cases h with
    | @array _ t cs _ ht hcs hmade =>
      have htype : ValueType.WellNamed (.array t) := hT.typeOf he ht
      have hcpp : Ty.WellNamed (.vector (config.ownership.cppType t)) := wellNamed_cppType config.ownership (t := t) htype
      cases he with
      | array hitems =>
        refine wellFormed_makeArray hcpp (fun x hx => ?_) hmade
        obtain ⟨a, ha, hax⟩ := exists_lowers_of_mem hcs hx
        exact ih a ha (hitems a ha) hax
  | name n =>
    cases h
    cases he with
    | name hn => exact wellFormed_reference hn
  | member v a ih =>
    cases he with
    | member hv ha =>
      cases h with
      | member hc => exact wellFormed_member (ih hv hc) ha
  | subscript v i ihv ihi =>
    cases he with
    | subscript hv hi =>
      cases h with
      | item ht hcv hci =>
        exact .call rfl (.arrow ⟨by decide, by decide⟩ (ihv hv hcv)) (forall_singleton (ihi hi hci))
      | byte ht hcv hci => exact .index (ihv hv hcv) (ihi hi hci)
  | binary op l r ihl ihr =>
    cases he with
    | binary hl hr =>
      cases h with
      | intRemainder _ _ hcl hcr =>
        exact wellFormed_support hconfig ⟨by decide, by decide⟩ (by decide) (forall_pair (ihl hl hcl) (ihr hr hcr))
      | floatRemainder _ _ _ hcl hcr =>
        exact .call rfl (.name isValueName_fmod) (forall_pair (ihl hl hcl) (ihr hr hcr))
      | otherRemainder _ _ _ _ hcl hcr => exact .binary .mod (ihl hl hcl) (ihr hr hcr)
      | textOrder _ ha hta _ _ hcl hcr =>
        exact wellFormed_textOrder (endsInNumber_of_isTextual hcl ha hta) (ihl hl hcl) (ihr hr hcr)
      | order _ _ _ hcl hcr => exact .binary op (ihl hl hcl) (ihr hr hcr)
      | binary _ _ hcl hcr => exact .binary op (ihl hl hcl) (ihr hr hcr)
  | unary op e ih =>
    cases he with
    | unary he =>
      cases h with
      | unary hc => exact .unary (.operator op) (ih he hc)
  | conditional e t f ihe iht ihf =>
    cases he with
    | conditional he ht hf =>
      cases h with
      | conditional hce hct hcf =>
        exact .paren (.conditional logicalOr_le_primary (.paren (ihe he hce)) (.paren (iht ht hct))
          (.paren (ihf hf hcf)))
  | cast v t ih =>
    cases he with
    | cast hv ht =>
      cases h with
      | castRecord hc =>
        exact wellFormed_recast config.ownership (t := .named _) (isTypeName_qualifiedClass ht.1 ht.2) (ih hv hc)
      | cast _ hc => exact .staticCast (wellNamed_cppType config.ownership ht) (ih hv hc)
  | enumLabel d label =>
    cases h
    cases he with
    | enumLabel hd hl => exact .name (isValueName_enumConstant hd hl)
  | enumById d e ih =>
    cases he with
    | enumById hd he =>
      cases h with
      | enumById hc => exact .staticCast (t := .named _) (isTypeName_enumType hd) (ih he hc)
  | method r m args ihr ihargs =>
    cases he with
    | method hr hargs =>
      exact wellFormed_method hconfig (fun x hx => ihr hr hx) (fun a ha x hx => ihargs a ha (hargs a ha) hx) h

/-- What stands for a well-named expression is written so that it reads back. -/
theorem rendered_of_lowers (hT : T.WellNamed) (hconfig : config.WellNamed) (he : e.WellNamed)
    (h : Lowers ⟨T.toTyping, config⟩ e c) : Rendered c :=
  (wellFormed_of_lowers hT hconfig he h).rendered

end

end ExprToCpp
