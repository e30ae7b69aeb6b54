import ExprToCpp.Cpp.Literal
import ExprToCpp.Proofs.Lowering

/-!
# The element type of an array of integers

An array of integers has elements that are signed if one of its items is, and as wide as the widest. Such a type holds the values
of an item unless the item is unsigned, of the full width, and next to a signed one: then the upper half of its values is lost.
Main statement: `elementType_of_ints`.
-/

namespace ExprToCpp

/-! ## The values of a type -/

namespace IntType

/-- The least value of an integer type. -/
def least (t : IntType) : Int := if t.signed then -Int.ofNat (Nat.pow 2 (t.width.bits - 1)) else 0

/-- The greatest value of an integer type. -/
def greatest (t : IntType) : Int := Int.ofNat (Nat.pow 2 (if t.signed then t.width.bits - 1 else t.width.bits)) - 1

/-- A number is a value of a type. -/
def Holds (t : IntType) (n : Int) : Prop := t.least ≤ n ∧ n ≤ t.greatest

instance (t : IntType) (n : Int) : Decidable (t.Holds n) := inferInstanceAs (Decidable (_ ∧ _))

/-- Every value of the one type is a value of the other. -/
def Covers (t a : IntType) : Prop := ∀ n, a.Holds n → t.Holds n

/-- An integer type has values. -/
theorem least_le_greatest (t : IntType) : t.least ≤ t.greatest := by
  obtain ⟨_ | _, _ | _ | _ | _⟩ := t <;> decide

/-- An integer type covers another if its bounds lie outside those of the other. -/
theorem covers_iff {t a : IntType} : t.Covers a ↔ t.least ≤ a.least ∧ a.greatest ≤ t.greatest := by
  constructor
  · intro h
    exact ⟨(h _ ⟨Int.le_refl _, a.least_le_greatest⟩).1, (h _ ⟨a.least_le_greatest, Int.le_refl _⟩).2⟩
  · rintro ⟨hleast, hgreatest⟩ n ⟨hlow, hhigh⟩
    exact ⟨Int.le_trans hleast hlow, Int.le_trans hhigh hgreatest⟩

/-- A type is no narrower than another, and signed if that is. -/
structure Above (t a : IntType) : Prop where
  signed : a.signed = true → t.signed = true
  width : a.width.bytes ≤ t.width.bytes

/-- A type above another holds its values, unless a sign takes the upper half of them. -/
theorem Above.covers_iff {t a : IntType} (h : t.Above a) :
    t.Covers a ↔ ¬(t.signed = true ∧ a.signed = false ∧ a.width = t.width) := by
  obtain ⟨hsigned, hwidth⟩ := h
  rw [IntType.covers_iff]
  obtain ⟨ts, tw⟩ := t
  obtain ⟨as, aw⟩ := a
  cases ts <;> cases as <;> cases tw <;> cases aw <;> revert hsigned hwidth <;> decide

/-! ## Joining types -/

/-- The wider of two widths has the more bytes. -/
theorem bytes_max (v w : Width) : (v.max w).bytes = Nat.max v.bytes w.bytes := by
  cases v <;> cases w <;> rfl

theorem join_self (a : IntType) : a.join a = a := by
  obtain ⟨_ | _, _ | _ | _ | _⟩ := a <;> rfl

/-- The join is above both types; here the left one. -/
theorem join_above_left (a b : IntType) : (a.join b).Above a where
  signed h := by simp [join, h]
  width := by
    rw [join, bytes_max]
    exact Nat.le_max_left _ _

theorem join_above_right (a b : IntType) : (a.join b).Above b where
  signed h := by simp [join, h]
  width := by
    rw [join, bytes_max]
    exact Nat.le_max_right _ _

theorem Above.trans {t u a : IntType} (htu : t.Above u) (hua : u.Above a) : t.Above a :=
  ⟨fun h => htu.signed (hua.signed h), Nat.le_trans hua.width htu.width⟩

/-- The join of types has its sign from one of them and its width from one of them, and is above all. -/
structure IsJoin (t : IntType) (as : List IntType) : Prop where
  above : ∀ a ∈ as, t.Above a
  signed : t.signed = true → ∃ a ∈ as, a.signed = true
  width : ∃ a ∈ as, a.width = t.width

theorem isJoin_singleton (a : IntType) : IsJoin a [a] where
  above _ h := List.mem_singleton.1 h ▸ ⟨id, Nat.le_refl _⟩
  signed h := ⟨a, List.mem_singleton_self a, h⟩
  width := ⟨a, List.mem_singleton_self a, rfl⟩

/-- One more type is joined at the end. -/
theorem IsJoin.concat {t : IntType} {as : List IntType} (h : IsJoin t as) (b : IntType) : IsJoin (t.join b) (as ++ [b]) where
  above a ha := by
    rcases List.mem_append.1 ha with ha | ha
    · exact (join_above_left t b).trans (h.above a ha)
    · exact List.mem_singleton.1 ha ▸ join_above_right t b
  signed hsigned := by
    rcases Bool.or_eq_true_iff.1 hsigned with ht | hb
    · obtain ⟨a, ha, hs⟩ := h.signed ht
      exact ⟨a, List.mem_append_left _ ha, hs⟩
    · exact ⟨b, by simp, hb⟩
  width := by
    unfold join Width.max
    dsimp only
    split
    · exact ⟨b, by simp, rfl⟩
    · obtain ⟨a, ha, hw⟩ := h.width
      exact ⟨a, List.mem_append_left _ ha, hw⟩

/-- Joining more types one by one gives the join of all of them. -/
theorem IsJoin.foldl {t : IntType} {as : List IntType} (h : IsJoin t as) (bs : List IntType) :
    IsJoin (bs.foldl join t) (as ++ bs) := by
  induction bs generalizing t as with
  | nil => rwa [List.append_nil]
  | cons b bs ih =>
    have hrest := ih (h.concat b)
    rwa [List.append_assoc] at hrest

/-- The join holds the values of all types if and only if next to a signed one every unsigned one is narrower than some other. -/
theorem IsJoin.covers_all_iff {t : IntType} {as : List IntType} (h : IsJoin t as) : (∀ a ∈ as, t.Covers a) ↔
    ∀ a ∈ as, ∀ b ∈ as, a.signed = true → b.signed = false → ∃ c ∈ as, b.width.bytes < c.width.bytes := by
  constructor
  · intro hcovers a ha b hb hsigned hunsigned
    have hwidth : b.width ≠ t.width := fun heq =>
      (h.above b hb).covers_iff.1 (hcovers b hb) ⟨(h.above a ha).signed hsigned, hunsigned, heq⟩
    obtain ⟨c, hc, hcw⟩ := h.width
    have hne : b.width.bytes ≠ t.width.bytes := by
      revert hwidth
      cases b.width <;> cases t.width <;> decide
    exact ⟨c, hc, hcw ▸ Nat.lt_of_le_of_ne (h.above b hb).width hne⟩
  · intro hwider b hb
    rw [(h.above b hb).covers_iff]
    rintro ⟨hsigned, hunsigned, hwidth⟩
    obtain ⟨a, ha, has⟩ := h.signed hsigned
    obtain ⟨c, hc, hlt⟩ := hwider a ha b hb has hunsigned
    have hle := (h.above c hc).width
    rw [hwidth] at hlt
    omega

/-- A join is unsigned if all its types are. -/
theorem IsJoin.unsigned_iff {t : IntType} {as : List IntType} (h : IsJoin t as) :
    t.signed = false ↔ ∀ a ∈ as, a.signed = false := by
  constructor
  · intro ht a ha
    rw [← Bool.not_eq_true]
    intro hsigned
    rw [(h.above a ha).signed hsigned] at ht
    cases ht
  · intro hall
    rw [← Bool.not_eq_true]
    intro ht
    obtain ⟨a, ha, hsigned⟩ := h.signed ht
    rw [hall a ha] at hsigned
    cases hsigned

end IntType

/-! ## Literals -/

namespace TypeTable

/-- A literal that fits a signed type of eight bytes has a signed type. -/
theorem signed_intLiteralType {n : Int} (hleast : Cpp.minInt64 ≤ n) (h : n ≤ Cpp.maxInt64) :
    (intLiteralType n).signed = true := by
  rw [intLiteralType]
  split
  · rfl
  · rw [if_pos ⟨hleast, h⟩]

/-- A literal beyond them has the unsigned type of eight bytes. -/
theorem intLiteralType_of_lt {n : Int} (h : Cpp.maxInt64 < n) : intLiteralType n = ⟨false, .eight⟩ := by
  unfold Cpp.maxInt64 at h
  rw [intLiteralType, if_neg (by omega), if_neg (by omega)]

/-- An integer literal is a value of its type. -/
theorem holds_intLiteralType {n : Int} (hleast : Cpp.minInt64 ≤ n) (hgreatest : n ≤ Cpp.maxUInt64) :
    (intLiteralType n).Holds n := by
  by_cases h : n ≤ Cpp.maxInt64
  · rw [intLiteralType]
    split
    · next hfour => exact hfour
    · rw [if_pos ⟨hleast, h⟩]
      exact ⟨hleast, h⟩
  · rw [intLiteralType_of_lt (Int.not_le.1 h)]
    unfold Cpp.maxInt64 at h
    exact ⟨show 0 ≤ n by omega, hgreatest⟩

/-- A type above that of a literal holds the literal, unless this exceeds all signed values and the type is signed. -/
theorem holds_literal_iff {t : IntType} {n : Int} (ht : t.Above (intLiteralType n)) (hleast : Cpp.minInt64 ≤ n)
    (hgreatest : n ≤ Cpp.maxUInt64) : t.Holds n ↔ n ≤ Cpp.maxInt64 ∨ t.signed = false := by
  have hliteral := holds_intLiteralType hleast hgreatest
  by_cases h : n ≤ Cpp.maxInt64
  · have hcovers : t.Covers (intLiteralType n) := by
      rw [ht.covers_iff, signed_intLiteralType hleast h]
      exact fun ⟨_, hunsigned, _⟩ => Bool.noConfusion hunsigned
    exact iff_of_true (hcovers n hliteral) (Or.inl h)
  · rw [intLiteralType_of_lt (Int.not_le.1 h)] at ht hliteral
    have hwidth : t.width = .eight := by
      have hbytes := ht.width
      revert hbytes
      cases t.width <;> decide
    obtain ⟨signed, width⟩ := t
    obtain rfl : width = .eight := hwidth
    cases signed with
    | false => exact iff_of_true hliteral (Or.inr rfl)
    | true => exact iff_of_false (fun hholds => h hholds.2) (fun hor => hor.elim h Bool.noConfusion)

end TypeTable

/-! ## Array literals -/

namespace ValueType

/-- Two integer types have their join in common. -/
theorem common?_int (a b : IntType) : (ValueType.int a).common? (.int b) = some (.int (a.join b)) := by
  rw [common?]
  split
  · next h =>
    cases h
    rw [IntType.join_self]
  · rfl

/-- The common type of integers is the join of their types. -/
theorem commonOfAll?_ints (a : IntType) (bs : List IntType) :
    commonOfAll? ((a :: bs).map fun b => some (.int b)) = some (.int (bs.foldl IntType.join a)) := by
  rw [List.map_cons, commonOfAll?, List.foldl_map]
  induction bs generalizing a with
  | nil => rfl
  | cons b bs ih =>
    rw [List.foldl_cons, List.foldl_cons, Option.bind_some, Option.bind_some, common?_int]
    exact ih (a.join b)

end ValueType

namespace TypeTable

variable {T : TypeTable} {items : List Expr} {types : List IntType}

/-- An array of integers has elements of the join of their types. -/
theorem exists_isJoin_elementType (hne : items ≠ []) (hitems : items.map T.typeOf = types.map fun a => some (.int a)) :
    ∃ t, T.typeOf (.array items) = some (.array (.int t)) ∧ t.IsJoin types := by
  cases types with
  | nil => exact absurd (List.map_eq_nil_iff.1 hitems) hne
  | cons a bs =>
    refine ⟨bs.foldl IntType.join a, ?_, (IntType.isJoin_singleton a).foldl bs⟩
    rw [typeOf, typesOf_eq_map, hitems, ValueType.commonOfAll?_ints]
    rfl

/-- The type of an integer literal among the items is one of theirs. -/
theorem intLiteralType_mem (hitems : items.map T.typeOf = types.map fun a => some (.int a)) {n : Int} (hn : .int n ∈ items) :
    intLiteralType n ∈ types := by
  have hmem : some (.int (intLiteralType n)) ∈ types.map fun a => some (ValueType.int a) :=
    hitems ▸ List.mem_map_of_mem (f := T.typeOf) hn
  obtain ⟨a, ha, heq⟩ := List.mem_map.1 hmem
  cases heq
  exact ha

/-- An array literal of integers is typed, and its element type, which is the one its vector is constructed with, holds the values
of an item's type unless that is unsigned, of full width, and the element type signed. So it holds the values of all items if and
only if next to a signed item every unsigned one is narrower than some other; and it holds an integer literal among them unless
this exceeds all signed values and some item is signed. -/
theorem elementType_of_ints (T : TypeTable) (items : List Expr) (types : List IntType) (hne : items ≠ [])
    (hitems : items.map T.typeOf = types.map fun a => some (.int a)) :
    ∃ t, T.typeOf (.array items) = some (.array (.int t)) ∧
      (∀ config c, Lowers ⟨T.toTyping, config⟩ (.array items) c →
        ∃ cs, config.ownership.makeArray (.vector (.named t.cppName)) cs = .ok c) ∧
      (∀ a ∈ types, t.Covers a ↔ ¬(t.signed = true ∧ a.signed = false ∧ a.width = t.width)) ∧
      ((∀ a ∈ types, t.Covers a) ↔
        ∀ a ∈ types, ∀ b ∈ types, a.signed = true → b.signed = false → ∃ c ∈ types, b.width.bytes < c.width.bytes) ∧
      ∀ n, .int n ∈ items → Cpp.minInt64 ≤ n → n ≤ Cpp.maxUInt64 →
        (t.Holds n ↔ n ≤ Cpp.maxInt64 ∨ ∀ a ∈ types, a.signed = false) := by
  obtain ⟨t, ht, hjoin⟩ := exists_isJoin_elementType hne hitems
  refine ⟨t, ht, fun config c hc => ?_, fun a ha => (hjoin.above a ha).covers_iff, hjoin.covers_all_iff, fun n hn hleast hgreatest => ?_⟩
  · cases hc with
    | @array _ u cs _ hu _ hmake =>
      obtain rfl : u = .int t := by cases hu.symm.trans ht; rfl
      exact ⟨cs, hmake⟩
  · rw [holds_literal_iff (hjoin.above _ (intLiteralType_mem hitems hn)) hleast hgreatest, hjoin.unsigned_iff]

/-- A signed and an unsigned item of the same width: the vector has signed elements, and the greatest value of the unsigned item is
none of theirs. -/
theorem elementType_of_ints_same_width :
    let T : TypeTable := { names := [("a", .int ⟨true, .four⟩), ("b", .int ⟨false, .four⟩)] }
    ∃ t, T.typeOf (.array [.name "a", .name "b"]) = some (.array (.int t)) ∧ t.cppName = "int32_t" ∧
      T.typeOf (.name "b") = some (.int ⟨false, .four⟩) ∧ ¬t.Covers ⟨false, .four⟩ ∧
      IntType.Holds ⟨false, .four⟩ 4294967295 ∧ ¬t.Holds 4294967295 := by
  intro T
  obtain ⟨t, ht, -, hcovers, -⟩ :=
    elementType_of_ints T [.name "a", .name "b"] [⟨true, .four⟩, ⟨false, .four⟩] (List.cons_ne_nil _ _) rfl
  have htype : T.typeOf (.array [.name "a", .name "b"]) = some (.array (.int ⟨true, .four⟩)) := rfl
  obtain rfl : t = ⟨true, .four⟩ := by cases ht.symm.trans htype; rfl
  refine ⟨_, ht, rfl, rfl, ?_, by decide, by decide⟩
  rw [hcovers _ (by simp)]
  decide

end TypeTable

end ExprToCpp
