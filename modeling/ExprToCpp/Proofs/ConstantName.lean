import ExprToCpp.Proofs.Effect
import ExprToCpp.Proofs.TypeSpelling

/-!
# What the name of a constant tells

The constant of a label is called by the enumeration's name and the label, with an underscore between them and in upper case, within
the class that owns the enumeration. The owner can be read off the constant, and so can the name and the label as one text. Where the
one ends and the other begins cannot, since both may hold underscores. Main statement: `enumConstant_eq_iff`.
-/

namespace ExprToCpp

open Cpp

/-! ## Upper case -/

/-- The letters of snake case come back from their capitals. -/
theorem toLower_toUpper : ∀ c ∈ snakeChars, c.toUpper.toLower = c := by decide +kernel

/-- Lower case gives back a name in upper case. -/
theorem map_toLower_upperCase {s : String} (hs : AllChars (· ∈ snakeChars) s) :
    (Naming.upperCase s).toList.map Char.toLower = s.toList := by
  have hback : ∀ c ∈ s.toList, (Char.toLower ∘ Char.toUpper) c = id c := fun c hc => toLower_toUpper c (hs c hc)
  rw [Naming.upperCase, String.toList_map, List.map_map, List.map_congr_left hback, List.map_id]

/-- So do names in snake case. -/
theorem upperCase_inj {s t : String} (hs : AllChars (· ∈ snakeChars) s) (ht : AllChars (· ∈ snakeChars) t)
    (h : Naming.upperCase s = Naming.upperCase t) : s = t := by
  rw [← String.toList_inj, ← map_toLower_upperCase hs, h, map_toLower_upperCase ht]

/-! ## A name and a label as one text -/

/-- What the second name has after the first one begins the label of the first: `animal` with `big_cat` against `animal_big` with
`cat`. -/
def MovesWords (name label name' label' : String) : Prop := ∃ w, name' = name ++ "_" ++ w ∧ label = w ++ "_" ++ label'

namespace MovesWords

variable {name label name' label' : String}

/-- Words moved over the underscore between name and label leave the joined name as it is. -/
theorem joined_eq (h : MovesWords name label name' label') : name ++ "_" ++ label = name' ++ "_" ++ label' := by
  obtain ⟨w, rfl, rfl⟩ := h
  simp only [String.append_assoc]

/-- Both the name and the label change when words are moved. -/
theorem ne (h : MovesWords name label name' label') : name ≠ name' ∧ label ≠ label' := by
  obtain ⟨w, hname, hlabel⟩ := h
  have hlonger := congrArg String.length hname
  have hshorter := congrArg String.length hlabel
  simp only [String.length_append, show "_".length = 1 from rfl] at hlonger hshorter
  constructor
  · rintro rfl
    omega
  · rintro rfl
    omega

/-- If the second name is longer, the underscore after the first one is inside it. -/
theorem of_append {w : List Char} (hname : name'.toList = name.toList ++ w)
    (hlabel : '_' :: label.toList = w ++ '_' :: label'.toList) :
    name = name' ∧ label = label' ∨ MovesWords name label name' label' := by
  cases w with
  | nil =>
    rw [List.append_nil] at hname
    exact Or.inl ⟨(String.toList_inj.1 hname).symm, String.toList_inj.1 (List.cons.inj hlabel).2⟩
  | cons c w =>
    obtain ⟨rfl, hrest⟩ := List.cons.inj hlabel
    refine Or.inr ⟨String.ofList w, ?_, ?_⟩
    · rw [← String.toList_inj, hname]
      simp
    · rw [← String.toList_inj, hrest]
      simp

end MovesWords

/-- A name and a label can be read off the text they make together, up to the words that may belong to either. -/
theorem joined_eq_iff (name label name' label' : String) : name ++ "_" ++ label = name' ++ "_" ++ label' ↔
    name = name' ∧ label = label' ∨ MovesWords name label name' label' ∨ MovesWords name' label' name label := by
  constructor
  · intro h
    have hchars : name.toList ++ '_' :: label.toList = name'.toList ++ '_' :: label'.toList := by
      simpa using congrArg String.toList h
    rcases List.append_eq_append_iff.1 hchars with ⟨w, hname, hlabel⟩ | ⟨w, hname, hlabel⟩
    · exact (MovesWords.of_append hname hlabel).imp_right Or.inl
    · rcases MovesWords.of_append hname hlabel with ⟨rfl, rfl⟩ | hmoves
      · exact Or.inl ⟨rfl, rfl⟩
      · exact Or.inr (Or.inr hmoves)
  · rintro (⟨rfl, rfl⟩ | hmoves | hmoves)
    · rfl
    · exact hmoves.joined_eq
    · exact hmoves.joined_eq.symm

/-! ## Constants -/

section

variable {d d' : EnumDecl} {label label' : String}

theorem allChars_joined {name : String} (hname : AllChars (· ∈ snakeChars) name) (hlabel : AllChars (· ∈ snakeChars) label) :
    AllChars (· ∈ snakeChars) (name ++ "_" ++ label) :=
  allChars_append.2 ⟨allChars_append.2 ⟨hname, by decide⟩, hlabel⟩

theorem ne_colon_of_snakeChars : ∀ c ∈ snakeChars, c ≠ ':' := by decide

/-- No part of a constant's name holds a colon. -/
theorem ne_colon_constant (h : ∀ n ∈ label :: d.name :: d.owner, AllChars (· ∈ snakeChars) n) :
    ∀ n ∈ Naming.upperCase (d.name ++ "_" ++ label) :: d.owner, AllChars (· ≠ ':') n := by
  simp only [List.forall_mem_cons] at h ⊢
  obtain ⟨hlabel, hname, howner⟩ := h
  refine ⟨fun c hc => ?_, fun n hn c hc => ne_colon_of_snakeChars c (howner n hn c hc)⟩
  rw [Naming.upperCase, String.toList_map] at hc
  obtain ⟨e, he, rfl⟩ := List.mem_map.1 hc
  exact toUpper_ne (ne_colon_of_snakeChars e (allChars_joined hname hlabel e he)) (by decide)

/-- A constant tells its owner, and its name and label as one text. -/
theorem enumConstant_eq_iff_joined (h : ∀ n ∈ label :: d.name :: d.owner, AllChars (· ∈ snakeChars) n)
    (h' : ∀ n ∈ label' :: d'.name :: d'.owner, AllChars (· ∈ snakeChars) n) :
    Naming.enumConstant d label = Naming.enumConstant d' label' ↔
      d.owner = d'.owner ∧ d.name ++ "_" ++ label = d'.name ++ "_" ++ label' := by
  constructor
  · intro heq
    obtain ⟨howner, hupper⟩ := qualify_inj (ne_colon_constant h) (ne_colon_constant h') heq
    simp only [List.forall_mem_cons] at h h'
    exact ⟨howner, upperCase_inj (allChars_joined h.2.1 h.1) (allChars_joined h'.2.1 h'.1) hupper⟩
  · rintro ⟨howner, hjoined⟩
    rw [Naming.enumConstant, Naming.enumConstant, howner, hjoined]

/-- A label is emitted as the name of its constant, in every context. -/
theorem outcome_emit_enumLabel (Γ : Context) (d : EnumDecl) (label : String) :
    (Expr.emit Γ (.enumLabel d label)).outcome = .ok (Naming.enumConstant d label) :=
  emit_ok_iff_lowers.2 ⟨_, .enumLabel d label, rfl⟩

end

/-- Two constants with names in lower case, digits and underscores are called the same if and only if they have the same owner and
either the same name and label, or words that end the name of one and begin the label of the other. So the labels of one enumeration
are told apart, and so are the enumerations with one label. Two constants are emitted as the same text, wherever they stand, if and
only if they are called the same. -/
theorem enumConstant_eq_iff (d d' : EnumDecl) (label label' : String)
    (h : ∀ n ∈ label :: d.name :: d.owner, AllChars (· ∈ snakeChars) n)
    (h' : ∀ n ∈ label' :: d'.name :: d'.owner, AllChars (· ∈ snakeChars) n) :
    (Naming.enumConstant d label = Naming.enumConstant d' label' ↔ d.owner = d'.owner ∧
        (d.name = d'.name ∧ label = label' ∨ MovesWords d.name label d'.name label' ∨ MovesWords d'.name label' d.name label)) ∧
      (Naming.enumConstant d label = Naming.enumConstant d' label' → (d.name = d'.name ↔ label = label')) ∧
      ∀ Γ Γ' : Context, (Expr.emit Γ (.enumLabel d label)).outcome = (Expr.emit Γ' (.enumLabel d' label')).outcome ↔
        Naming.enumConstant d label = Naming.enumConstant d' label' := by
  refine ⟨?_, fun heq => ?_, fun Γ Γ' => ?_⟩
  · rw [enumConstant_eq_iff_joined h h', joined_eq_iff]
  · rw [enumConstant_eq_iff_joined h h', joined_eq_iff] at heq
    rcases heq.2 with ⟨hname, hlabel⟩ | hmoves | hmoves
    · exact iff_of_true hname hlabel
    · exact iff_of_false hmoves.ne.1 hmoves.ne.2
    · exact iff_of_false hmoves.ne.1.symm hmoves.ne.2.symm
  · rw [outcome_emit_enumLabel, outcome_emit_enumLabel, Except.ok.injEq]

/-- A word may stand in the name or in the label, but not in the owner. -/
theorem enumConstant_eq_iff_moved :
    (∀ n ∈ ["zoo", "animal", "big_cat", "animal_big", "cat", "big"], AllChars (· ∈ snakeChars) n) ∧
      Naming.enumConstant ⟨["zoo"], "animal"⟩ "big_cat" = Naming.enumConstant ⟨["zoo"], "animal_big"⟩ "cat" ∧
      Naming.enumConstant ⟨["zoo"], "animal"⟩ "big_cat" ≠ Naming.enumConstant ⟨["zoo", "animal"], "big"⟩ "cat" := by
  refine ⟨by decide, ?_, ?_⟩
  · exact (enumConstant_eq_iff ⟨["zoo"], "animal"⟩ ⟨["zoo"], "animal_big"⟩ "big_cat" "cat" (by decide) (by decide)).1.2
      ⟨rfl, Or.inr (Or.inl ⟨"big", by decide, by decide⟩)⟩
  · intro heq
    have howner := ((enumConstant_eq_iff ⟨["zoo"], "animal"⟩ ⟨["zoo", "animal"], "big"⟩ "big_cat" "cat" (by decide) (by decide)).1.1
      heq).1
    exact absurd howner (by decide)

/-- A constant does not tell its enumeration and its label. -/
theorem enumConstant_not_injective :
    let animal : EnumDecl := ⟨["zoo"], "animal"⟩
    let bigAnimal : EnumDecl := ⟨["zoo"], "animal_big"⟩
    (∀ n ∈ ["zoo", "animal", "big_cat", "animal_big", "cat"], IsSnakeName n) ∧
      Naming.enumConstant animal "big_cat" = "zoo_t::ANIMAL_BIG_CAT" ∧
      Naming.enumConstant bigAnimal "cat" = "zoo_t::ANIMAL_BIG_CAT" ∧ animal.name ≠ bigAnimal.name ∧ "big_cat" ≠ "cat" := by
  decide +kernel

end ExprToCpp
