import ExprToCpp.Proofs.Naming
import ExprToCpp.Proofs.SolidNames

/-!
# A spelling names one type

Strings and byte sequences are held alike; apart from that, no two types are spelled the same in C++ (`render_cppType_eq_iff`). The
end of a spelling tells what it is of: an enumeration ends in `_e`, a handle in `*` or `>`, and within a handle a vector ends in `>`
where a class ends in `_t`. A path is read off a qualified name because no name holds a colon.
-/

namespace ExprToCpp

open Cpp Cpp.Reader

/-- The type that has text in the place of byte sequences. -/
def ValueType.asText : ValueType → ValueType
  | .bytes => .str
  | .array t => .array t.asText
  | t => t

/-- Bytes are written like strings. -/
theorem cppType_asText (o : Ownership) (t : ValueType) : o.cppType t.asText = o.cppType t := by
  induction t with
  | array t ih => rw [ValueType.asText, Ownership.cppType, Ownership.cppType, ih]
  | _ => rfl

/-! ## Qualified names -/

/-- What stands after the first word of a qualified name. -/
def scopedWords (ws : List String) : List Char := ws.flatMap fun w => ':' :: ':' :: w.toList

/-- A qualified name is its first word and the others with `::` before each. -/
theorem toList_joinWords (w : String) (ws : List String) : (joinWords (w :: ws)).toList = w.toList ++ scopedWords ws := by
  induction ws generalizing w with
  | nil => simp [joinWords, scopedWords]
  | cons v ws ih =>
    have htail := ih v
    rw [joinWords] at htail ⊢
    rw [String.intercalate_cons_cons, String.toList_append, String.toList_append, htail, List.append_assoc]
    rfl

/-- The first word ends where the first colon stands. -/
theorem takeWhile_append_scopedWords {w : String} (hw : AllChars (· ≠ ':') w) (ws : List String) :
    (w.toList ++ scopedWords ws).takeWhile (· ≠ ':') = w.toList := by
  rw [List.takeWhile_append_of_pos (by simpa [AllChars] using hw)]
  cases ws <;> simp [scopedWords]

/-- The first word ends at the first colon, so it can be told from the others. -/
theorem append_scopedWords_inj {w v : String} {ws vs : List String} (hw : AllChars (· ≠ ':') w) (hv : AllChars (· ≠ ':') v)
    (h : w.toList ++ scopedWords ws = v.toList ++ scopedWords vs) : w = v ∧ scopedWords ws = scopedWords vs := by
  have hword : w.toList = v.toList := by
    rw [← takeWhile_append_scopedWords hw ws, h, takeWhile_append_scopedWords hv]
  rw [hword] at h
  exact ⟨String.toList_inj.1 hword, List.append_cancel_left h⟩

/-- The words after it can be told from one another. -/
theorem scopedWords_inj {ws vs : List String} (hws : ∀ w ∈ ws, AllChars (· ≠ ':') w) (hvs : ∀ v ∈ vs, AllChars (· ≠ ':') v)
    (h : scopedWords ws = scopedWords vs) : ws = vs := by
  induction ws generalizing vs with
  | nil =>
    cases vs with
    | nil => rfl
    | cons v vs => cases h
  | cons w ws ih =>
    cases vs with
    | nil => cases h
    | cons v vs =>
      rw [List.forall_mem_cons] at hws hvs
      have htail : w.toList ++ scopedWords ws = v.toList ++ scopedWords vs := (List.cons.inj (List.cons.inj h).2).2
      obtain ⟨rfl, hrest⟩ := append_scopedWords_inj hws.1 hvs.1 htail
      rw [ih hws.2 hvs.2 hrest]

/-- A qualified name has one way to be read as words, if it has any. -/
theorem joinWords_inj {ws vs : List String} (hws : ∀ w ∈ ws, AllChars (· ≠ ':') w) (hvs : ∀ v ∈ vs, AllChars (· ≠ ':') v)
    (hne : ws ≠ []) (hne' : vs ≠ []) (h : joinWords ws = joinWords vs) : ws = vs := by
  obtain ⟨w, ws, rfl⟩ := List.exists_cons_of_ne_nil hne
  obtain ⟨v, vs, rfl⟩ := List.exists_cons_of_ne_nil hne'
  rw [← String.toList_inj, toList_joinWords, toList_joinWords] at h
  rw [List.forall_mem_cons] at hws hvs
  obtain ⟨rfl, hrest⟩ := append_scopedWords_inj hws.1 hvs.1 h
  rw [scopedWords_inj hws.2 hvs.2 hrest]

/-- Different names give different classes. -/
theorem className_injective : Function.Injective Naming.className := fun _ _ h => (String.append_left_inj _).1 h

theorem allChars_classes {path : List String} (h : ∀ n ∈ path, AllChars (· ≠ ':') n) :
    ∀ w ∈ path.map Naming.className, AllChars (· ≠ ':') w := by
  intro w hw
  obtain ⟨n, hn, rfl⟩ := List.mem_map.1 hw
  exact allChars_append.2 ⟨h n hn, by decide⟩

/-- Different paths give different classes. -/
theorem qualifiedClass_inj {path path' : List String} (hpath : ∀ n ∈ path, AllChars (· ≠ ':') n)
    (hpath' : ∀ n ∈ path', AllChars (· ≠ ':') n) (h : Naming.qualifiedClass path = Naming.qualifiedClass path') : path = path' := by
  -- without a path the name is empty, and no class is called that
  have hempty : ∀ n ns, Naming.qualifiedClass [] ≠ Naming.qualifiedClass (n :: ns) := by
    intro n ns hnil
    have htext := toList_joinWords (Naming.className n) (ns.map Naming.className)
    rw [← List.map_cons, joinWords, ← Naming.qualifiedClass, ← hnil, Naming.className] at htext
    simp [Naming.qualifiedClass, Naming.classSuffix] at htext
  cases path with
  | nil =>
    cases path' with
    | nil => rfl
    | cons n ns => exact absurd h (hempty n ns)
  | cons n ns =>
    cases path' with
    | nil => exact absurd h.symm (hempty n ns)
    | cons n' ns' =>
      have hclasses := joinWords_inj (allChars_classes hpath) (allChars_classes hpath') (by simp) (by simp) h
      exact List.map_injective_iff.2 className_injective hclasses

/-- A qualified name has one owner and one last word, if there is no colon in any part of it. -/
theorem qualify_inj {owner owner' : List String} {name name' : String} (hname : ∀ n ∈ name :: owner, AllChars (· ≠ ':') n)
    (hname' : ∀ n ∈ name' :: owner', AllChars (· ≠ ':') n) (h : Naming.qualify owner name = Naming.qualify owner' name') :
    owner = owner' ∧ name = name' := by
  have hwords : ∀ {owner : List String} {name : String}, (∀ n ∈ name :: owner, AllChars (· ≠ ':') n) →
      ∀ w ∈ owner.map Naming.className ++ [name], AllChars (· ≠ ':') w := by
    intro owner name hname w hw
    rw [List.forall_mem_cons] at hname
    rcases List.mem_append.1 hw with hw | hw
    · exact allChars_classes hname.2 w hw
    · rw [List.mem_singleton.1 hw]
      exact hname.1
  rw [qualify_eq_joinWords, qualify_eq_joinWords] at h
  obtain ⟨howner, hlast⟩ := List.append_inj' (joinWords_inj (hwords hname) (hwords hname') (by simp) (by simp) h) rfl
  exact ⟨List.map_injective_iff.2 className_injective howner, (List.cons.inj hlast).1⟩

/-- Different enumerations have different types. -/
theorem enumType_inj {d d' : EnumDecl} (hd : ∀ n ∈ d.name :: d.owner, AllChars (· ≠ ':') n)
    (hd' : ∀ n ∈ d'.name :: d'.owner, AllChars (· ≠ ':') n) (h : Naming.enumType d = Naming.enumType d') : d = d' := by
  have hsuffixed : ∀ {d : EnumDecl}, (∀ n ∈ d.name :: d.owner, AllChars (· ≠ ':') n) →
      ∀ n ∈ (d.name ++ Naming.enumSuffix) :: d.owner, AllChars (· ≠ ':') n := by
    intro d hd
    rw [List.forall_mem_cons] at hd ⊢
    exact ⟨allChars_append.2 ⟨hd.1, by decide⟩, hd.2⟩
  obtain ⟨howner, hname⟩ := qualify_inj (hsuffixed hd) (hsuffixed hd') h
  cases d
  cases d'
  rw [EnumDecl.mk.injEq]
  exact ⟨howner, (String.append_left_inj _).1 hname⟩

/-! ## How a spelling ends -/

/-- What the end of a spelling tells. -/
inductive Ending where
  | fixed
  | enumeration
  | handle
  deriving DecidableEq

/-- The end of a text, which is given from its last character on. -/
def Ending.ofReversed : List Char → Ending
  | '*' :: _ | '>' :: _ => .handle
  | 'e' :: '_' :: _ => .enumeration
  | _ => .fixed

/-- The end of a text. -/
def Ending.ofText (text : String) : Ending := ofReversed text.toList.reverse

/-- The end of a type's spelling. -/
def ValueType.ending : ValueType → Ending
  | .array _ | .record _ => .handle
  | .enum _ => .enumeration
  | _ => .fixed

/-- How a text ends can be seen from its last characters. -/
theorem ofText_of_suffix {text : String} (last : List Char) (h : last <:+ text.toList) :
    ∃ rest, Ending.ofText text = .ofReversed (last.reverse ++ rest) := by
  obtain ⟨front, hfront⟩ := h
  exact ⟨front.reverse, by rw [Ending.ofText, ← hfront, List.reverse_append]⟩

/-- How two texts in a row end can be seen from the second one. -/
theorem ofText_append (s t : String) : ∃ rest, Ending.ofText (s ++ t) = .ofReversed (t.toList.reverse ++ rest) :=
  ofText_of_suffix t.toList (by rw [String.toList_append]; exact List.suffix_append _ _)

theorem ofText_render_vector (t : Ty) : Ending.ofText (Ty.vector t).render = .handle :=
  (ofText_append ("std::vector<" ++ t.render) ">").elim fun _ h => h

/-- A handle ends like a template, or in a star. -/
theorem ofText_render_handle (o : Ownership) (t : Ty) : Ending.ofText (o.handle t).render = .handle := by
  cases o with
  | raw | uniqueAndRaw => exact (ofText_append t.render "*").elim fun _ h => h
  | shared => exact (ofText_append ("std::shared_ptr<" ++ t.render) ">").elim fun _ h => h

/-- A qualified name ends as its last word does. -/
theorem ofText_joinWords (ws : List String) (s t : String) :
    ∃ rest, Ending.ofText (joinWords (ws ++ [s ++ t])) = .ofReversed (t.toList.reverse ++ rest) := by
  refine ofText_of_suffix t.toList (List.IsSuffix.trans ?_ (suffix_joinWords ws (s ++ t)))
  rw [String.toList_append]
  exact List.suffix_append _ _

/-- A class is no vector, and a record without a path has no name. -/
theorem ofText_qualifiedClass (path : List String) : Ending.ofText (Naming.qualifiedClass path) = .fixed := by
  rcases List.eq_nil_or_concat path with rfl | ⟨owner, n, rfl⟩
  · decide
  · rw [List.concat_eq_append, Naming.qualifiedClass, List.map_append]
    exact (ofText_joinWords (owner.map Naming.className) n Naming.classSuffix).elim fun _ h => h

/-- The type of an enumeration ends in its suffix. -/
theorem ofText_enumType (d : EnumDecl) : Ending.ofText (Naming.enumType d) = .enumeration := by
  rw [Naming.enumType, qualify_eq_joinWords]
  exact (ofText_joinWords (d.owner.map Naming.className) d.name Naming.enumSuffix).elim fun _ h => h

/-- The types that are no handles and no enumerations, byte sequences apart. -/
def fixedTypes : List ValueType :=
  [true, false].flatMap (fun signed => [Width.one, .two, .four, .eight].map fun width => .int ⟨signed, width⟩) ++
    [.float .single, .float .double, .bool, .str]

/-- The types with a fixed text are those in the list. -/
theorem mem_fixedTypes {t : ValueType} (h : t.ending = .fixed) : t.asText ∈ fixedTypes := by
  cases t with
  | int t => obtain ⟨_ | _, _ | _ | _ | _⟩ := t <;> decide
  | float p => cases p <;> decide
  | bool | str | bytes => decide
  | array | record | «enum» => cases h

/-- They end like none of the others, and no two of them are written alike. -/
theorem render_fixedTypes (o : Ownership) : ∀ t ∈ fixedTypes, Ending.ofText (o.cppType t).render = .fixed ∧
    ∀ u ∈ fixedTypes, (o.cppType t).render = (o.cppType u).render → t = u := by
  cases o <;> decide +kernel

/-- How the text of a type ends tells which kind of type it is. -/
theorem ofText_cppType (o : Ownership) (t : ValueType) : Ending.ofText (o.cppType t).render = t.ending := by
  cases t with
  | array t => exact ofText_render_handle o _
  | record path => exact ofText_render_handle o _
  | «enum» d => exact ofText_enumType d
  | _ =>
    rw [← cppType_asText]
    exact (render_fixedTypes o _ (mem_fixedTypes rfl)).1

/-! ## Equal spellings -/

/-- Handles that are written alike point to what is written alike. -/
theorem render_handle_inj {o : Ownership} {t u : Ty} (h : (o.handle t).render = (o.handle u).render) : t.render = u.render := by
  cases o with
  | raw | uniqueAndRaw => exact (String.append_left_inj _).1 h
  | shared => exact (String.append_right_inj _).1 ((String.append_left_inj _).1 h)

/-- Vectors that are written alike have items that are written alike. -/
theorem render_vector_inj {t u : Ty} (h : (Ty.vector t).render = (Ty.vector u).render) : t.render = u.render :=
  (String.append_right_inj _).1 ((String.append_left_inj _).1 h)

/-- A handle is to a vector or to a class. -/
theorem render_vector_ne_class (t : Ty) (path : List String) : (Ty.vector t).render ≠ Naming.qualifiedClass path := by
  intro h
  have hending := ofText_render_vector t
  rw [h, ofText_qualifiedClass] at hending
  cases hending

/-- Types that are written alike are equal, up to bytes and strings. -/
theorem asText_eq_of_render_eq {o : Ownership} {t u : ValueType} (ht : ∀ n ∈ t.names, AllChars (· ≠ ':') n)
    (hu : ∀ n ∈ u.names, AllChars (· ≠ ':') n) (h : (o.cppType t).render = (o.cppType u).render) : t.asText = u.asText := by
  have hending : t.ending = u.ending := by rw [← ofText_cppType o t, h, ofText_cppType]
  induction t generalizing u with
  | array t ih =>
    cases u with
    | array u =>
      have hitem : (o.cppType t).render = (o.cppType u).render := render_vector_inj (render_handle_inj h)
      have hitems : t.asText = u.asText := ih ht hu hitem (by rw [← ofText_cppType o t, hitem, ofText_cppType])
      rw [ValueType.asText, ValueType.asText, hitems]
    | record path => exact absurd (render_handle_inj h) (render_vector_ne_class _ path)
    | _ => cases hending
  | record path =>
    cases u with
    | array u => exact absurd (render_handle_inj h).symm (render_vector_ne_class _ path)
    | record path' =>
      have hpath : path = path' := qualifiedClass_inj ht hu (render_handle_inj h)
      rw [hpath]
    | _ => cases hending
  | «enum» d =>
    cases u with
    | «enum» d' =>
      have hd : d = d' := enumType_inj ht hu h
      rw [hd]
    | _ => cases hending
  | _ =>
    refine (render_fixedTypes o _ (mem_fixedTypes rfl)).2 _ (mem_fixedTypes hending.symm) ?_
    rw [cppType_asText, cppType_asText, h]

/-- Two types whose names hold no colon, such as identifiers, are spelled alike exactly when they differ in nothing but byte sequences
in the place of strings. -/
theorem render_cppType_eq_iff (o : Ownership) (t u : ValueType) (ht : ∀ n ∈ t.names, AllChars (· ≠ ':') n)
    (hu : ∀ n ∈ u.names, AllChars (· ≠ ':') n) : (o.cppType t).render = (o.cppType u).render ↔ t.asText = u.asText := by
  constructor
  · exact asText_eq_of_render_eq ht hu
  · intro h
    rw [← cppType_asText o t, h, cppType_asText]

/-- Only byte sequences and strings share a spelling, at any depth; a class `a` in `b` is not an enumeration `a` of `b`. -/
theorem render_cppType_eq_iff_nested :
    (Ownership.shared.cppType (.array (.array .bytes))).render = (Ownership.shared.cppType (.array (.array .str))).render ∧
      (Ownership.shared.cppType (.array (.record ["b", "a"]))).render ≠
        (Ownership.shared.cppType (.array (.enum ⟨["b"], "a"⟩))).render := by
  constructor
  · exact (render_cppType_eq_iff .shared (.array (.array .bytes)) (.array (.array .str)) (by decide) (by decide)).2 (by decide)
  · exact (render_cppType_eq_iff .shared (.array (.record ["b", "a"])) (.array (.enum ⟨["b"], "a"⟩)) (by decide) (by decide)).not.2
      (by decide)

-- a colon in a name blurs a path
example : (Ownership.raw.cppType (.record ["a_t::b"])).render = (Ownership.raw.cppType (.record ["a", "b"])).render := by decide

end ExprToCpp
