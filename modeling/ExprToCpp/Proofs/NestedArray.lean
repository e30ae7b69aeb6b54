import ExprToCpp.Proofs.CommonType
import ExprToCpp.Proofs.Effect

/-!
# Array literals in array literals

A vector of arrays has the handles of the arrays as its elements, and an array literal among its items is the construction of a new
vector. Two recursions have to meet: the element type comes from the type of the literal, the type of the item from how it is
constructed. They agree on the inner vector at every nesting level, but not on the pointer to it: where new arrays have an owner of
another type than their handles, no inner construction has the type of its place. Main statement: `element_types_of_nested`.
-/

namespace ExprToCpp

open Cpp

/-! ## Nesting levels -/

namespace Cpp.Expr

/-- The element type that a construction writes for its vector, and the items it puts there. -/
def vectorItems? : Expr → Option (Ty × List Expr)
  | .new (.vector t) items => some (t, items)
  | .own _ (.new (.vector t) items) => some (t, items)
  | _ => none

/-- The type of a construction: the plain pointer to the new object, or the pointer that owns it. -/
def constructedType? : Expr → Option Ty
  | .new t _ => some (.pointer t)
  | .own t _ => some (.unique t)
  | _ => none

/-- At some nesting level, a vector whose element type is written `t` has a construction of type `u` among its items. -/
inductive Encloses : Expr → Ty → Ty → Prop where
  | item {c d : Expr} {t u : Ty} {ds : List Expr} :
      c.vectorItems? = some (t, ds) → d ∈ ds → d.constructedType? = some u → Encloses c t u
  | inside {c d : Expr} {s t u : Ty} {ds : List Expr} :
      c.vectorItems? = some (s, ds) → d ∈ ds → Encloses d t u → Encloses c t u

/-- What has items constructs something. -/
theorem constructedType?_ne_none_of_vectorItems? {c : Expr} {t : Ty} {ds : List Expr} (h : c.vectorItems? = some (t, ds)) :
    c.constructedType? ≠ none := by
  unfold vectorItems? at h
  split at h
  · exact Option.some_ne_none _
  · exact Option.some_ne_none _
  · cases h

/-- What encloses a construction is one. -/
theorem Encloses.constructedType?_ne_none {c : Expr} {t u : Ty} (h : c.Encloses t u) : c.constructedType? ≠ none := by
  cases h with
  | item hc => exact constructedType?_ne_none_of_vectorItems? hc
  | inside hc => exact constructedType?_ne_none_of_vectorItems? hc

theorem constructedType?_signed (negative : Bool) {e : Expr} (h : e.constructedType? = none) :
    (signed negative e).constructedType? = none := by
  cases negative with
  | true => rfl
  | false => exact h

theorem constructedType?_ofInt (n : Int) : (ofInt n).constructedType? = none := by
  unfold ofInt exceptionalInt
  split
  · exact constructedType?_signed _ rfl
  · split_ifs
    · rfl
    · rfl
    · exact constructedType?_signed _ rfl

theorem constructedType?_ofBinary64 (x : Binary64) : (ofBinary64 x).constructedType? = none := by
  unfold ofBinary64
  split
  · rfl
  · apply constructedType?_signed
    split <;> rfl

end Cpp.Expr

/-- An owning pointer is never written like a plain one, which ends in a star. -/
theorem Cpp.Ty.render_unique_ne_render_pointer (s t : Ty) : (Ty.unique s).render ≠ (Ty.pointer t).render := by
  intro h
  have hunique : (Ty.unique s).render = "std::unique_ptr<" ++ s.render ++ ">" := rfl
  have hpointer : (Ty.pointer t).render = t.render ++ "*" := rfl
  rw [hunique, hpointer, ← String.toList_inj] at h
  have hgt : ">".toList = ['>'] := by simp
  have hstar : "*".toList = ['*'] := by simp
  simp only [String.toList_append, hgt, hstar] at h
  have hlast : ['>'] = ['*'] := List.append_inj_right' h rfl
  exact absurd hlast (by decide)

/-- At some nesting level, an array literal has the literal of `inner` among its items. -/
inductive Expr.Nests : Expr → List Expr → Prop where
  | item {items inner : List Expr} : .array inner ∈ items → Nests (.array items) inner
  | inside {items inner : List Expr} {x : Expr} : x ∈ items → Nests x inner → Nests (.array items) inner

/-! ## Constructions -/

namespace Ownership

/-- The pointer to an array that has just been made: the handle, unless the owner is of a type of its own. -/
def owner : Ownership → Ty → Ty
  | .uniqueAndRaw, t => .unique t
  | .raw, t => handle .raw t
  | .shared, t => handle .shared t

/-- An array that can be made has its items, and the type of its owner. -/
theorem constructedType?_makeArray {o : Ownership} {t : Ty} {cs : List Cpp.Expr} {c : Cpp.Expr}
    (h : o.makeArray (.vector t) cs = .ok c) :
    c.vectorItems? = some (t, cs) ∧ c.constructedType? = some (o.owner (.vector t)) := by
  cases o with
  | raw | uniqueAndRaw =>
    cases h
    exact ⟨rfl, rfl⟩
  | shared => cases h

/-- What owns an array differs from its handle under one ownership only. -/
theorem owner_eq_handle_iff {o : Ownership} {t : Ty} : o.owner t = o.handle t ↔ o ≠ .uniqueAndRaw := by
  cases o <;> simp [owner, handle]

theorem render_owner_eq_render_handle_iff {o : Ownership} {t : Ty} :
    (o.owner t).render = (o.handle t).render ↔ o ≠ .uniqueAndRaw := by
  cases o with
  | raw | shared => simp [owner]
  | uniqueAndRaw => exact iff_of_false (Ty.render_unique_ne_render_pointer t t) (not_not_intro rfl)

/-- Arrays can be made under two ownerships only, so what is not the one is the other. -/
theorem ne_uniqueAndRaw_iff_of_makeArray {o : Ownership} {t : Ty} {cs : List Cpp.Expr} {c : Cpp.Expr} (h : o.makeArray t cs = .ok c) :
    o ≠ .uniqueAndRaw ↔ o = .raw := by
  cases o with
  | raw | uniqueAndRaw => decide
  | shared => cases h

/-- A cast to a record is no construction. -/
theorem constructedType?_recast (o : Ownership) (t : Ty) (c : Cpp.Expr) : (o.recast t c).constructedType? = none := by
  cases o <;> rfl

end Ownership

section

variable {T : TypeTable} {config : Config}

/-- Only array literals become constructions. -/
theorem exists_array_of_constructedType? {e : Expr} {c : Cpp.Expr} (h : Lowers ⟨T.toTyping, config⟩ e c)
    (hc : c.constructedType? ≠ none) : ∃ items, e = .array items := by
  induction e generalizing c with
  | array items => exact ⟨items, rfl⟩
  | int n =>
    cases h
    exact absurd (Cpp.Expr.constructedType?_ofInt n) hc
  | float x =>
    cases h
    exact absurd (Cpp.Expr.constructedType?_ofBinary64 x) hc
  | name n =>
    cases h
    unfold Naming.reference at hc
    split at hc <;> exact absurd rfl hc
  | member v a =>
    cases h
    unfold Naming.member at hc
    split at hc <;> exact absurd rfl hc
  | cast v t =>
    cases h with
    | castRecord => exact absurd (Ownership.constructedType?_recast _ _ _) hc
    | cast => exact absurd rfl hc
  | method r m args ihr =>
    cases h with
    | ownText ht hr =>
      -- the receiver, written as it is, would be an array literal of another type
      obtain ⟨items, rfl⟩ := ihr hr hc
      obtain ⟨u, hu⟩ := TypeTable.exists_of_typeOf_array ht
      cases hu
    | ownInt ht hint hr =>
      obtain ⟨items, rfl⟩ := ihr hr hc
      obtain ⟨u, rfl⟩ := TypeTable.exists_of_typeOf_array ht
      rcases hint with ⟨i, hi⟩ | ⟨d, hd⟩
      · cases hi
      · cases hd
    | firstByte | lastByte => split at hc <;> exact absurd rfl hc
    | _ => exact absurd rfl hc
  | _ => cases h <;> exact absurd rfl hc

/-- Arrays have a common type only if they are of one type. -/
theorem TypeTable.element_eq_of_array_mem {items inner : List Expr} {s t : ValueType}
    (ht : T.typeOf (.array items) = some (.array t)) (hmem : .array inner ∈ items)
    (hs : T.typeOf (.array inner) = some (.array s)) : t = .array s := by
  have hwidens := ((typeOf_array_eq_some_iff.1 ht).2.widensTo_iff t).1 (.refl t)
  have harray : (ValueType.array s).WidensTo t := hwidens _ (hs ▸ List.mem_map_of_mem hmem)
  exact (harray.eq_of_not_isNumeric rfl).symm

/-- The constructions in a construction are those of the array literals in the literal, each in a vector of its handles. -/
theorem encloses_iff {e : Expr} {c : Cpp.Expr} (h : Lowers ⟨T.toTyping, config⟩ e c) {t u : Ty} :
    c.Encloses t u ↔ ∃ inner s, e.Nests inner ∧ T.typeOf (.array inner) = some (.array s) ∧
      t = config.ownership.cppType (.array s) ∧ u = config.ownership.owner (.vector (config.ownership.cppType s)) := by
  induction e generalizing c with
  | array items ih =>
    cases h with
    | @array _ v cs _ ht hitems hmake =>
      obtain ⟨hvector, -⟩ := Ownership.constructedType?_makeArray hmake
      constructor
      · intro hc
        cases hc with
        | item hds hd hu =>
          cases hvector.symm.trans hds
          obtain ⟨x, hx, hxd⟩ := exists_lowers_of_mem hitems hd
          obtain ⟨inner, rfl⟩ := exists_array_of_constructedType? hxd (hu ▸ Option.some_ne_none _)
          cases hxd with
          | @array _ s _ _ hs _ hinner =>
            have hu' := (Ownership.constructedType?_makeArray hinner).2
            rw [hu, Option.some.injEq] at hu'
            exact ⟨inner, s, .item hx, hs, by rw [TypeTable.element_eq_of_array_mem ht hx hs], hu'⟩
        | inside hds hd hdu =>
          cases hvector.symm.trans hds
          obtain ⟨x, hx, hxd⟩ := exists_lowers_of_mem hitems hd
          obtain ⟨inner, s, hnests, hrest⟩ := (ih x hx hxd).1 hdu
          exact ⟨inner, s, .inside hx hnests, hrest⟩
      · rintro ⟨inner, s, hnests, hs, rfl, rfl⟩
        cases hnests with
        | item hx =>
          obtain ⟨d, hd, hxd⟩ := exists_lowers_of_mem_left hitems hx
          cases hxd with
          | @array _ s' _ _ hs' _ hinner =>
            cases hs.symm.trans hs'
            rw [← TypeTable.element_eq_of_array_mem ht hx hs]
            exact .item hvector hd (Ownership.constructedType?_makeArray hinner).2
        | inside hx hnests =>
          obtain ⟨d, hd, hxd⟩ := exists_lowers_of_mem_left hitems hx
          exact .inside hvector hd ((ih _ hx hxd).2 ⟨inner, s, hnests, hs, rfl, rfl⟩)
  | _ =>
    constructor
    · intro hc
      obtain ⟨items, hitems⟩ := exists_array_of_constructedType? h hc.constructedType?_ne_none
      cases hitems
    · rintro ⟨inner, s, hnests, -⟩
      cases hnests

end

/-- At every nesting level of an array of arrays, an inner construction gives the owner of a vector of which the element type around it
is the handle. Exactly where arrays are made with plain pointers these are one type, and exactly there they have one text. -/
theorem element_types_of_nested (T : TypeTable) (config : Config) (items : List Expr) (text : String)
    (hnested : ∀ x ∈ items, ∃ inner, x = .array inner)
    (h : (Expr.emit ⟨T.toTyping, config⟩ (.array items)).outcome = .ok text) :
    ∃ c, Lowers ⟨T.toTyping, config⟩ (.array items) c ∧ text = c.render ∧ (∃ t u, c.Encloses t u) ∧
      (∀ t u, c.Encloses t u ↔ ∃ inner s, (Expr.array items).Nests inner ∧ T.typeOf (.array inner) = some (.array s) ∧
        t = config.ownership.handle (.vector (config.ownership.cppType s)) ∧
        u = config.ownership.owner (.vector (config.ownership.cppType s))) ∧
      ∀ t u, c.Encloses t u → (u = t ↔ config.ownership = .raw) ∧ (u.render = t.render ↔ config.ownership = .raw) := by
  obtain ⟨c, hc, rfl⟩ := emit_ok_iff_lowers.1 h
  have hiff := fun t u => encloses_iff hc (t := t) (u := u)
  refine ⟨c, hc, rfl, ?_, hiff, fun t u htu => ?_⟩
  · -- a typed literal has a first item, and that is a typed literal as well
    cases hc with
    | array ht =>
      obtain ⟨hne, hcommon⟩ := TypeTable.typeOf_array_eq_some_iff.1 ht
      obtain ⟨x, hx⟩ := List.exists_mem_of_ne_nil _ hne
      obtain ⟨inner, rfl⟩ := hnested x hx
      obtain ⟨a, ha⟩ := hcommon.typed _ (List.mem_map_of_mem hx)
      obtain ⟨s, rfl⟩ := TypeTable.exists_of_typeOf_array ha
      exact ⟨_, _, (hiff _ _).2 ⟨inner, s, .item hx, ha, rfl, rfl⟩⟩
  · obtain ⟨inner, s, -, -, rfl, rfl⟩ := (hiff t u).1 htu
    cases hc with
    | array _ _ hmake =>
      rw [← Ownership.ne_uniqueAndRaw_iff_of_makeArray hmake]
      exact ⟨Ownership.owner_eq_handle_iff, Ownership.render_owner_eq_render_handle_iff⟩

/-- An array of one array that is made with owning pointers: an owner stands where the vector has plain pointers. -/
theorem element_types_of_nested_owned :
    ∃ c, Lowers ⟨({} : TypeTable).toTyping, .cpp11⟩ (.array [.array [.int 1]]) c ∧
      c.render = "std::unique_ptr<std::vector<std::vector<int32_t>*>>(new std::vector<std::vector<int32_t>*>" ++
        "\x7bstd::unique_ptr<std::vector<int32_t>>(new std::vector<int32_t>\x7b1\x7d)\x7d)" ∧
      c.Encloses (.pointer (.vector (.named "int32_t"))) (.unique (.vector (.named "int32_t"))) ∧
      ∀ t u, c.Encloses t u → u ≠ t ∧ u.render ≠ t.render := by
  have hemit : (Expr.emit ⟨({} : TypeTable).toTyping, .cpp11⟩ (.array [.array [.int 1]])).outcome =
      .ok ("std::unique_ptr<std::vector<std::vector<int32_t>*>>(new std::vector<std::vector<int32_t>*>" ++
        "\x7bstd::unique_ptr<std::vector<int32_t>>(new std::vector<int32_t>\x7b1\x7d)\x7d)") := rfl
  obtain ⟨c, hc, htext, -, hiff, htypes⟩ := element_types_of_nested {} .cpp11 [.array [.int 1]] _ (by simp) hemit
  refine ⟨c, hc, htext.symm, ?_, fun t u htu => ?_⟩
  · exact (hiff _ _).2 ⟨[.int 1], .int ⟨true, .four⟩, .item (List.mem_singleton_self _), rfl, rfl, rfl⟩
  · obtain ⟨htype, hrender⟩ := htypes t u htu
    exact ⟨fun h => absurd (htype.1 h) (by decide), fun h => absurd (hrender.1 h) (by decide)⟩

end ExprToCpp
