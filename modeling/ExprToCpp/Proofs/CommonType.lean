import Mathlib.Data.List.Induction
import ExprToCpp.Proofs.ElementType

/-!
# The common type of several items

Taking the common type of two types is a partial join: idempotent, commutative and associative, and undefined only where no type is
above both. So the common type of the items of an array is the least type that all of them widen to, in whatever order and however
often they stand there. Main statements: `commonOfAll?_eq_some_iff` and `typeOf_array_of_same_types`.
-/

namespace ExprToCpp

/-! ## Two numbers -/

namespace IntType

/-- The integer type that covers two others does not depend on their order. -/
theorem join_comm (a b : IntType) : a.join b = b.join a := by
  obtain ⟨as, aw⟩ := a
  obtain ⟨bs, bw⟩ := b
  rw [join, join, Bool.or_comm]
  cases aw <;> cases bw <;> rfl

theorem join_assoc (a b c : IntType) : (a.join b).join c = a.join (b.join c) := by
  obtain ⟨as, aw⟩ := a
  obtain ⟨bs, bw⟩ := b
  obtain ⟨cs, cw⟩ := c
  simp only [join, Bool.or_assoc]
  cases aw <;> cases bw <;> cases cw <;> rfl

end IntType

namespace ValueType

/-- The common type of two numbers. Floats of one precision keep it, and everything else with a float is a double. -/
def widest : ValueType → ValueType → ValueType
  | .int a, .int b => .int (a.join b)
  | .float p, .float q => .float (if p = q then p else .double)
  | _, _ => .float .double

/-- The wider of two numeric types is numeric. -/
theorem isNumeric_widest (a b : ValueType) : (a.widest b).isNumeric = true := by
  unfold widest
  split <;> rfl

/-- It does not depend on their order. -/
theorem widest_comm {a b : ValueType} (ha : a.isNumeric = true) (hb : b.isNumeric = true) : a.widest b = b.widest a := by
  cases a with
  | int a =>
    cases b with
    | int b => exact congrArg ValueType.int (IntType.join_comm a b)
    | float q => rfl
    | _ => cases hb
  | float p =>
    cases b with
    | int b => rfl
    | float q => cases p <;> cases q <;> rfl
    | _ => cases hb
  | _ => cases ha

theorem widest_assoc {a b c : ValueType} (ha : a.isNumeric = true) (hb : b.isNumeric = true) (hc : c.isNumeric = true) :
    (a.widest b).widest c = a.widest (b.widest c) := by
  cases a with
  | int a =>
    cases b with
    | int b =>
      cases c with
      | int c => exact congrArg ValueType.int (IntType.join_assoc a b c)
      | float r => rfl
      | _ => cases hc
    | float q =>
      cases c with
      | int c => rfl
      | float r => cases q <;> cases r <;> rfl
      | _ => cases hc
    | _ => cases hb
  | float p =>
    cases b with
    | int b =>
      cases c with
      | int c => rfl
      | float r => cases p <;> cases r <;> rfl
      | _ => cases hc
    | float q =>
      cases c with
      | int c => cases p <;> cases q <;> rfl
      | float r => cases p <;> cases q <;> cases r <;> rfl
      | _ => cases hc
    | _ => cases hb
  | _ => cases ha

/-- Two numeric types have the wider one in common. -/
theorem common?_of_isNumeric {a b : ValueType} (ha : a.isNumeric = true) (hb : b.isNumeric = true) :
    a.common? b = some (a.widest b) := by
  cases a with
  | int a =>
    cases b with
    | int b => exact common?_int a b
    | float q => rfl
    | _ => cases hb
  | float p =>
    cases b with
    | int b => rfl
    | float q => cases p <;> cases q <;> rfl
    | _ => cases hb
  | _ => cases ha

/-! ## Two types -/

/-- A type has itself in common with itself. -/
theorem common?_self (a : ValueType) : a.common? a = some a := if_pos rfl

/-- A type that is no number has a common type with itself alone. -/
theorem common?_of_not_isNumeric {a b : ValueType} (h : a.isNumeric = false ∨ b.isNumeric = false) :
    a.common? b = if a = b then some a else none := by
  have hboth : (a.isNumeric && b.isNumeric) = false := by
    rw [Bool.and_eq_false_iff]
    exact h
  rw [common?, hboth]
  rfl

/-- A numeric type has nothing in common with another. -/
theorem common?_of_isNumeric_ne {a b : ValueType} (h : a.isNumeric ≠ b.isNumeric) : a.common? b = none := by
  have hne : a ≠ b := fun hab => h (congrArg isNumeric hab)
  have hfalse : a.isNumeric = false ∨ b.isNumeric = false := by
    cases ha : a.isNumeric with
    | false => exact Or.inl rfl
    | true => exact Or.inr (Bool.eq_false_iff.2 fun hb => h (ha.trans hb.symm))
  rw [common?_of_not_isNumeric hfalse, if_neg hne]

/-- What two types have in common does not depend on their order. -/
theorem common?_comm (a b : ValueType) : a.common? b = b.common? a := by
  by_cases hnumeric : a.isNumeric = true ∧ b.isNumeric = true
  · obtain ⟨ha, hb⟩ := hnumeric
    rw [common?_of_isNumeric ha hb, common?_of_isNumeric hb ha, widest_comm ha hb]
  · rw [not_and_or, Bool.not_eq_true, Bool.not_eq_true] at hnumeric
    rw [common?_of_not_isNumeric hnumeric, common?_of_not_isNumeric hnumeric.symm]
    by_cases hab : a = b
    · rw [if_pos hab, if_pos hab.symm, hab]
    · rw [if_neg hab, if_neg (Ne.symm hab)]

/-- The common type of three types, where it is defined, is the same from either end, and it is undefined from both. -/
theorem common?_assoc (a b c : ValueType) : (a.common? b).bind (·.common? c) = (b.common? c).bind a.common? := by
  cases hb : b.isNumeric with
  | false =>
    rw [common?_of_not_isNumeric (Or.inr hb), common?_of_not_isNumeric (Or.inl hb)]
    by_cases hab : a = b
    · by_cases hbc : b = c
      · rw [if_pos hab, if_pos hbc, Option.bind_some, Option.bind_some, hab, hbc]
      · rw [if_pos hab, if_neg hbc, Option.bind_some, Option.bind_none, hab, common?_of_not_isNumeric (Or.inl hb), if_neg hbc]
    · by_cases hbc : b = c
      · rw [if_neg hab, if_pos hbc, Option.bind_some, Option.bind_none, common?_of_not_isNumeric (Or.inr hb), if_neg hab]
      · rw [if_neg hab, if_neg hbc, Option.bind_none, Option.bind_none]
  | true =>
    cases ha : a.isNumeric with
    | false =>
      -- the left two have nothing in common, and neither has the first with the common type of the others
      rw [common?_of_isNumeric_ne (by rw [ha, hb]; decide), Option.bind_none]
      cases hc : c.isNumeric with
      | false => rw [common?_of_isNumeric_ne (by rw [hb, hc]; decide), Option.bind_none]
      | true =>
        rw [common?_of_isNumeric hb hc, Option.bind_some, common?_of_isNumeric_ne (by rw [ha, isNumeric_widest]; decide)]
    | true =>
      rw [common?_of_isNumeric ha hb, Option.bind_some]
      cases hc : c.isNumeric with
      | false =>
        rw [common?_of_isNumeric_ne (by rw [hc, isNumeric_widest]; decide), common?_of_isNumeric_ne (by rw [hb, hc]; decide),
          Option.bind_none]
      | true =>
        rw [common?_of_isNumeric hb hc, Option.bind_some, common?_of_isNumeric (isNumeric_widest a b) hc,
          common?_of_isNumeric ha (isNumeric_widest b c), widest_assoc ha hb hc]

/-! ## Widening -/

/-- A type widens to another if that is their common type. -/
def WidensTo (a b : ValueType) : Prop := a.common? b = some b

theorem WidensTo.refl (a : ValueType) : a.WidensTo a := common?_self a

theorem WidensTo.trans {a b c : ValueType} (hab : a.WidensTo b) (hbc : b.WidensTo c) : a.WidensTo c := by
  have hassoc := common?_assoc a b c
  rw [hab, hbc, Option.bind_some, Option.bind_some, hbc] at hassoc
  exact hassoc.symm

/-- Types that widen to each other are equal. -/
theorem WidensTo.antisymm {a b : ValueType} (hab : a.WidensTo b) (hba : b.WidensTo a) : a = b := by
  rw [WidensTo, common?_comm] at hba
  exact Option.some.inj (hba.symm.trans hab)

/-- Only numeric types widen. -/
theorem WidensTo.eq_of_not_isNumeric {a b : ValueType} (h : a.WidensTo b) (ha : a.isNumeric = false) : a = b := by
  by_contra hne
  rw [WidensTo, common?_of_not_isNumeric (Or.inl ha), if_neg hne] at h
  cases h

/-- Types that widen to one type have a common type, and it widens to that one too. -/
theorem WidensTo.common? {a b u : ValueType} (ha : a.WidensTo u) (hb : b.WidensTo u) : ∃ c, a.common? b = some c ∧ c.WidensTo u := by
  have hassoc := common?_assoc a b u
  rw [hb, Option.bind_some, ha] at hassoc
  exact Option.bind_eq_some_iff.1 hassoc

/-- The common type of two types is the least that both widen to. -/
theorem widensTo_iff_of_common? {a b c : ValueType} (h : a.common? b = some c) (u : ValueType) :
    c.WidensTo u ↔ a.WidensTo u ∧ b.WidensTo u := by
  constructor
  · intro hu
    have hleft : a.WidensTo c := by
      have hassoc := common?_assoc a a b
      rw [common?_self, Option.bind_some, h, Option.bind_some] at hassoc
      exact hassoc.symm
    have hright : b.WidensTo c := by
      have hassoc := common?_assoc b b a
      rw [common?_self, Option.bind_some, common?_comm, h, Option.bind_some] at hassoc
      exact hassoc.symm
    exact ⟨hleft.trans hu, hright.trans hu⟩
  · rintro ⟨ha, hb⟩
    obtain ⟨d, hd, hdu⟩ := ha.common? hb
    rwa [Option.some.inj (h.symm.trans hd)]

/-! ## All items -/

/-- A type is what the types of some items have in common: each item is typed, and they all widen to another type exactly where it
does. -/
structure IsCommonOf (t : ValueType) (types : List (Option ValueType)) : Prop where
  typed : ∀ r ∈ types, ∃ a, r = some a
  widensTo_iff : ∀ u, t.WidensTo u ↔ ∀ a, some a ∈ types → a.WidensTo u

/-- Types have at most one type in common. -/
theorem IsCommonOf.unique {t u : ValueType} {types : List (Option ValueType)} (ht : t.IsCommonOf types) (hu : u.IsCommonOf types) :
    t = u := by
  have htu : t.WidensTo u := (ht.widensTo_iff u).2 ((hu.widensTo_iff u).1 (.refl u))
  have hut : u.WidensTo t := (hu.widensTo_iff t).2 ((ht.widensTo_iff t).1 (.refl t))
  exact htu.antisymm hut

/-- One more item is taken in at the end. -/
theorem commonOfAll?_concat {types : List (Option ValueType)} (hne : types ≠ []) (r : Option ValueType) :
    commonOfAll? (types ++ [r]) = (commonOfAll? types).bind fun a => r.bind a.common? := by
  obtain ⟨s, ss, rfl⟩ := List.exists_cons_of_ne_nil hne
  rw [List.cons_append, commonOfAll?, commonOfAll?, List.foldl_append]
  rfl

/-- The common type of one more type is what it has in common with that of the others. -/
theorem IsCommonOf.concat {a b t : ValueType} {types : List (Option ValueType)} (h : a.IsCommonOf types)
    (ht : a.common? b = some t) : t.IsCommonOf (types ++ [some b]) where
  typed r hr := by
    rcases List.mem_append.1 hr with hr | hr
    · exact h.typed r hr
    · exact ⟨b, List.mem_singleton.1 hr⟩
  widensTo_iff u := by
    rw [widensTo_iff_of_common? ht, h.widensTo_iff]
    simp only [List.mem_append, List.mem_singleton, Option.some.injEq, or_imp, forall_and, forall_eq]

/-- What the fold gives is what the items have in common. -/
theorem isCommonOf_of_commonOfAll? {types : List (Option ValueType)} {t : ValueType} (h : commonOfAll? types = some t) :
    t.IsCommonOf types := by
  induction types using List.reverseRecOn generalizing t with
  | nil => cases h
  | append_singleton types r ih =>
    by_cases hne : types = []
    · subst hne
      obtain rfl : r = some t := h
      exact ⟨fun s hs => ⟨t, List.mem_singleton.1 hs⟩, fun u => by simp⟩
    · rw [commonOfAll?_concat hne] at h
      obtain ⟨a, ha, h⟩ := Option.bind_eq_some_iff.1 h
      obtain ⟨b, rfl, hab⟩ := Option.bind_eq_some_iff.1 h
      exact (ih ha).concat hab

/-- Items that all widen to one type have a common one. -/
theorem exists_commonOfAll? {types : List (Option ValueType)} {u : ValueType} (hne : types ≠ [])
    (htypes : ∀ r ∈ types, ∃ a, r = some a ∧ a.WidensTo u) : ∃ t, commonOfAll? types = some t := by
  induction types using List.reverseRecOn with
  | nil => exact absurd rfl hne
  | append_singleton types r ih =>
    rw [List.forall_mem_append, List.forall_mem_singleton] at htypes
    obtain ⟨hrest, b, rfl, hb⟩ := htypes
    by_cases hempty : types = []
    · exact ⟨b, by rw [hempty]; rfl⟩
    · obtain ⟨a, ha⟩ := ih hempty hrest
      have hau : a.WidensTo u := by
        rw [(isCommonOf_of_commonOfAll? ha).widensTo_iff]
        intro x hx
        obtain ⟨y, hy, hyu⟩ := hrest _ hx
        rwa [Option.some.inj hy]
      obtain ⟨c, hc, -⟩ := hau.common? hb
      exact ⟨c, by rw [commonOfAll?_concat hempty, ha, Option.bind_some, Option.bind_some, hc]⟩

/-- The fold finds what the items have in common, wherever they have something in common. -/
theorem commonOfAll?_eq_some_iff {types : List (Option ValueType)} {t : ValueType} :
    commonOfAll? types = some t ↔ types ≠ [] ∧ t.IsCommonOf types := by
  constructor
  · intro h
    refine ⟨?_, isCommonOf_of_commonOfAll? h⟩
    rintro rfl
    cases h
  · rintro ⟨hne, h⟩
    have hbelow : ∀ r ∈ types, ∃ a, r = some a ∧ a.WidensTo t := by
      intro r hr
      obtain ⟨a, rfl⟩ := h.typed r hr
      exact ⟨a, rfl, (h.widensTo_iff t).1 (.refl t) a hr⟩
    obtain ⟨u, hu⟩ := exists_commonOfAll? hne hbelow
    rw [hu, h.unique (isCommonOf_of_commonOfAll? hu)]

/-- The common type depends only on which types there are. -/
theorem IsCommonOf.congr {t : ValueType} {types others : List (Option ValueType)} (hsame : ∀ r, r ∈ types ↔ r ∈ others)
    (h : t.IsCommonOf types) : t.IsCommonOf others where
  typed r hr := h.typed r ((hsame r).2 hr)
  widensTo_iff u := by
    rw [h.widensTo_iff]
    exact forall_congr' fun a => imp_congr_left (hsame (some a))

/-- What items have in common depends on nothing but which types there are among them. -/
theorem commonOfAll?_congr {types others : List (Option ValueType)} (hsame : ∀ r, r ∈ types ↔ r ∈ others) :
    commonOfAll? types = commonOfAll? others := by
  have hnil : types = [] ↔ others = [] := by
    rw [List.eq_nil_iff_forall_not_mem, List.eq_nil_iff_forall_not_mem]
    exact forall_congr' fun r => not_congr (hsame r)
  apply Option.ext
  intro t
  rw [commonOfAll?_eq_some_iff, commonOfAll?_eq_some_iff]
  exact and_congr (not_congr hnil) ⟨.congr hsame, .congr fun r => (hsame r).symm⟩

end ValueType

/-! ## Array literals -/

namespace TypeTable

/-- An array literal has the common type of its items, if there are items and it exists. -/
theorem typeOf_array_eq_some_iff {T : TypeTable} {items : List Expr} {t : ValueType} :
    T.typeOf (.array items) = some (.array t) ↔ items ≠ [] ∧ t.IsCommonOf (items.map T.typeOf) := by
  rw [typeOf, typesOf_eq_map, Option.map_eq_some_iff]
  simp only [ValueType.array.injEq, exists_eq_right]
  rw [ValueType.commonOfAll?_eq_some_iff, ne_eq, List.map_eq_nil_iff]

/-- An array literal has no type but that of an array. -/
theorem exists_of_typeOf_array {T : TypeTable} {items : List Expr} {t : ValueType} (h : T.typeOf (.array items) = some t) :
    ∃ u, t = .array u := by
  rw [typeOf, Option.map_eq_some_iff] at h
  obtain ⟨u, -, rfl⟩ := h
  exact ⟨u, rfl⟩

/-- The common type of two types is idempotent, commutative and associative, and an array literal is typed exactly where its items
have something in common. So two literals with the same types among their items, untyped ones included, have the same type or both
none: neither the order nor the number of the items matters. -/
theorem typeOf_array_of_same_types (T : TypeTable) :
    (∀ a : ValueType, a.common? a = some a) ∧ (∀ a b : ValueType, a.common? b = b.common? a) ∧
      (∀ a b c : ValueType, (a.common? b).bind (·.common? c) = (b.common? c).bind a.common?) ∧
      (∀ items t, T.typeOf (.array items) = some (.array t) ↔ items ≠ [] ∧ t.IsCommonOf (items.map T.typeOf)) ∧
      ∀ items others, (∀ r, r ∈ items.map T.typeOf ↔ r ∈ others.map T.typeOf) →
        T.typeOf (.array items) = T.typeOf (.array others) := by
  refine ⟨ValueType.common?_self, ValueType.common?_comm, ValueType.common?_assoc, fun _ _ => typeOf_array_eq_some_iff, ?_⟩
  intro items others hsame
  rw [typeOf, typeOf, typesOf_eq_map, typesOf_eq_map, ValueType.commonOfAll?_congr hsame]

/-- A float of single precision before and after an integer: the elements are doubles, as they are with one such float after it. -/
theorem typeOf_array_of_same_types_precision :
    let T : TypeTable := { names := [("x", .float .single), ("n", .int ⟨true, .four⟩)] }
    T.typeOf (.array [.name "x", .name "n", .name "x"]) = T.typeOf (.array [.name "n", .name "x"]) ∧
      T.typeOf (.array [.name "n", .name "x"]) = some (.array (.float .double)) ∧
      T.typeOf (.array [.name "x", .name "x"]) = some (.array (.float .single)) := by
  intro T
  obtain ⟨-, -, -, -, hsame⟩ := typeOf_array_of_same_types T
  refine ⟨hsame _ _ fun r => ?_, rfl, rfl⟩
  simp only [List.map_cons, List.map_nil, List.mem_cons, List.not_mem_nil, or_false]
  constructor
  · rintro (h | h | h)
    · exact Or.inr h
    · exact Or.inl h
    · exact Or.inr h
  · rintro (h | h)
    · exact Or.inr (Or.inl h)
    · exact Or.inl h

end TypeTable

end ExprToCpp
