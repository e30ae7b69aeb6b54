import ExprToCpp.Proofs.ElementType
import ExprToCpp.Proofs.ReadBack

/-!
# Integer literals

An integer becomes a C++ constant: literals, a minus, a difference. C++ computes with it in the types of the literals, and neither a
literal nor a result may leave its type on the way to the value. Main statement: `emit_int`, the constant of an integer has its value
in the first type that holds it, and outside all types it is the bare decimal number.
-/

namespace ExprToCpp

open Cpp

/-! ## Constants -/

/-- The type of the literals with a suffix. -/
def Cpp.IntSuffix.type : IntSuffix → IntType
  | .plain => ⟨true, .four⟩
  | .ul => ⟨false, .four⟩
  | .ll => ⟨true, .eight⟩
  | .ull => ⟨false, .eight⟩

namespace IntType

/-- A number as a value of a type, if the type holds it. -/
def value? (t : IntType) (n : Int) : Option (IntType × Int) := if t.Holds n then some (t, n) else none

/-- The type in which C++ computes with operands of two types, none narrower than a plain literal's: the width of the wider one, and
unsigned if an operand is, unless that one is the narrower. -/
def usual (a b : IntType) : IntType where
  signed := (a.signed || decide (a.width.bytes < b.width.bytes)) && (b.signed || decide (b.width.bytes < a.width.bytes))
  width := a.width.max b.width

/-- The first of the types of literals that holds a number. -/
def ofLiteral? (n : Int) : Option IntType :=
  [⟨true, .four⟩, ⟨false, .four⟩, ⟨true, .eight⟩, ⟨false, .eight⟩].find? fun t : IntType => decide (t.Holds n)

end IntType

namespace Cpp.Tree

/-- The value of a constant, in exact arithmetic. -/
def exactValue? : Tree → Option Int
  | .int n _ => some n
  | .unary (.operator .neg) e => e.exactValue?.map fun n => -n
  | .binary .sub l r => l.exactValue?.bind fun m => r.exactValue?.map fun n => m - n
  | _ => none

/-- The type of a constant and its value, as C++ computes it. It has none if a literal does not fit the type of its suffix, or if an
operand or a result is outside the type of the operation. -/
def constant? : Tree → Option (IntType × Int)
  | .int n s => s.type.value? n
  | .unary (.operator .neg) e => e.constant?.bind fun x => x.1.value? (-x.2)
  | .binary .sub l r => l.constant?.bind fun x => r.constant?.bind fun y =>
    ((x.1.usual y.1).value? x.2).bind fun a => ((x.1.usual y.1).value? y.2).bind fun b => (x.1.usual y.1).value? (a.2 - b.2)
  | _ => none

end Cpp.Tree

/-! ## The types of literals -/

namespace IntType

/-- A type that holds a number has it as a value. -/
theorem value?_of_holds {t : IntType} {n : Int} (h : t.Holds n) : t.value? n = some (t, n) := if_pos h

theorem value?_of_not_holds {t : IntType} {n : Int} (h : ¬t.Holds n) : t.value? n = none := if_neg h

/-- The bounds of the signed type of four bytes. -/
theorem holds_int32_iff {n : Int} : Holds ⟨true, .four⟩ n ↔ minInt32 ≤ n ∧ n ≤ maxInt32 := Iff.rfl

theorem holds_uint32_iff {n : Int} : Holds ⟨false, .four⟩ n ↔ 0 ≤ n ∧ n ≤ maxUInt32 := Iff.rfl

theorem holds_int64_iff {n : Int} : Holds ⟨true, .eight⟩ n ↔ minInt64 ≤ n ∧ n ≤ maxInt64 := Iff.rfl

theorem holds_uint64_iff {n : Int} : Holds ⟨false, .eight⟩ n ↔ 0 ≤ n ∧ n ≤ maxUInt64 := Iff.rfl

/-- The type of a literal as a choice between intervals. -/
theorem ofLiteral?_eq (n : Int) : ofLiteral? n =
    if minInt32 ≤ n ∧ n ≤ maxInt32 then some ⟨true, .four⟩
    else if 0 ≤ n ∧ n ≤ maxUInt32 then some ⟨false, .four⟩
    else if minInt64 ≤ n ∧ n ≤ maxInt64 then some ⟨true, .eight⟩
    else if 0 ≤ n ∧ n ≤ maxUInt64 then some ⟨false, .eight⟩
    else none := by
  simp only [ofLiteral?, List.find?_cons, List.find?_nil, holds_int32_iff, holds_uint32_iff, holds_int64_iff, holds_uint64_iff]
  split_ifs with h₁ h₂ h₃ h₄
  · rw [decide_eq_true h₁]
  · rw [decide_eq_false h₁, decide_eq_true h₂]
  · rw [decide_eq_false h₁, decide_eq_false h₂, decide_eq_true h₃]
  · rw [decide_eq_false h₁, decide_eq_false h₂, decide_eq_false h₃, decide_eq_true h₄]
  · rw [decide_eq_false h₁, decide_eq_false h₂, decide_eq_false h₃, decide_eq_false h₄]

/-- The numbers that some type holds are those of at most 64 bits. -/
theorem isSome_ofLiteral?_iff (n : Int) : (ofLiteral? n).isSome ↔ minInt64 ≤ n ∧ n ≤ maxUInt64 := by
  rw [ofLiteral?_eq]
  unfold minInt32 maxInt32 maxUInt32 minInt64 maxInt64 maxUInt64
  split_ifs <;> simp <;> omega

/-- The class of a number is that of the first type that holds it, and this type holds its magnitude too. -/
theorem ofLiteral?_of_suffix? {n : Int} {s : IntSuffix} (h : (IntClass.ofInt n).suffix? = some s) :
    ofLiteral? n = some s.type ∧ s.type.Holds n ∧ s.type.Holds n.natAbs := by
  rw [ofLiteral?_eq]
  unfold IntClass.ofInt at h
  unfold minInt32 maxInt32 maxUInt32 minInt64 maxInt64 maxUInt64 at h ⊢
  split_ifs at h with h₁ h₂ h₃ h₄
  · cases h
    rw [if_pos (by omega), IntSuffix.type, holds_int32_iff, holds_int32_iff]
    unfold minInt32 maxInt32
    exact ⟨rfl, by omega⟩
  · cases h
    rw [if_neg (by omega), if_pos (by omega), IntSuffix.type, holds_uint32_iff, holds_uint32_iff]
    unfold maxUInt32
    exact ⟨rfl, by omega⟩
  · cases h
    rw [if_neg (by omega), if_neg (by omega), if_pos (by omega), IntSuffix.type, holds_int64_iff, holds_int64_iff]
    unfold minInt64 maxInt64
    exact ⟨rfl, by omega⟩
  · cases h
    rw [if_neg (by omega), if_neg (by omega), if_neg (by omega), if_pos (by omega), IntSuffix.type, holds_uint64_iff, holds_uint64_iff]
    unfold maxUInt64
    exact ⟨rfl, by omega⟩
  · cases h

/-- The numbers without a class are the two least values of signed types and those that no type holds. -/
theorem ofLiteral?_of_exceptional {n : Int} (h : (IntClass.ofInt n).suffix? = none) (h32 : n ≠ minInt32) (h64 : n ≠ minInt64) :
    ofLiteral? n = none ∧ ¬IntSuffix.plain.type.Holds n.natAbs := by
  rw [ofLiteral?_eq, IntSuffix.type, holds_int32_iff]
  unfold IntClass.ofInt at h
  unfold minInt32 maxInt32 maxUInt32 minInt64 maxInt64 maxUInt64 at *
  split_ifs at h with h₁ h₂ h₃ h₄
  · cases h
  · cases h
  · cases h
  · cases h
  · rw [if_neg (by omega), if_neg (by omega), if_neg (by omega), if_neg (by omega)]
    exact ⟨rfl, by omega⟩

end IntType

/-! ## The constant of an integer -/

namespace Cpp.Expr

/-- A negative number is a minus before its absolute value. -/
theorem tree_signedInt_of_neg {n : Int} (hn : n < 0) (s : IntSuffix) :
    (signedInt n s).tree = .unary (.operator .neg) (.int n.natAbs s) := by
  rw [signedInt, signed, if_pos (decide_eq_true hn)]
  rfl

/-- Any other number stands for itself. -/
theorem tree_signedInt_of_not_neg {n : Int} (hn : ¬n < 0) (s : IntSuffix) : (signedInt n s).tree = .int n.natAbs s := by
  rw [signedInt, signed, if_neg (by simpa using hn)]
  rfl

/-- The exact value of a signed literal is the number it was written for. -/
theorem exactValue?_signedInt (n : Int) (s : IntSuffix) : (signedInt n s).tree.exactValue? = some n := by
  by_cases hn : n < 0
  · rw [tree_signedInt_of_neg hn, Tree.exactValue?, Tree.exactValue?, Option.map_some, Option.some.injEq]
    omega
  · rw [tree_signedInt_of_not_neg hn, Tree.exactValue?, Option.some.injEq]
    omega

/-- A number with a sign is a constant of the type of its suffix, if this holds the number and its magnitude. -/
theorem constant?_signedInt {n : Int} {s : IntSuffix} (h : s.type.Holds n) (hmagnitude : s.type.Holds n.natAbs) :
    (signedInt n s).tree.constant? = some (s.type, n) := by
  by_cases hn : n < 0
  · have hneg : -(n.natAbs : Int) = n := by omega
    rw [tree_signedInt_of_neg hn, Tree.constant?, Tree.constant?, IntType.value?_of_holds hmagnitude, Option.bind_some]
    dsimp only
    rw [hneg, IntType.value?_of_holds h]
  · have habs : (n.natAbs : Int) = n := by omega
    rw [tree_signedInt_of_not_neg hn, Tree.constant?, habs, IntType.value?_of_holds h]

/-- A literal that does not fit the type of its suffix makes no constant. -/
theorem constant?_signedInt_eq_none {n : Int} {s : IntSuffix} (hmagnitude : ¬s.type.Holds n.natAbs) :
    (signedInt n s).tree.constant? = none := by
  by_cases hn : n < 0
  · rw [tree_signedInt_of_neg hn, Tree.constant?, Tree.constant?, IntType.value?_of_not_holds hmagnitude, Option.bind_none]
  · rw [tree_signedInt_of_not_neg hn, Tree.constant?, IntType.value?_of_not_holds hmagnitude]

/-- The least value of a type is written as one below another. -/
theorem tree_belowLeast (n : Int) (s : IntSuffix) : (belowLeast n s).tree = .binary .sub (signedInt n s).tree (.int 1 .plain) := rfl

/-- One less than the least literal of a signed type. The difference is computed in that type, and the type holds it. -/
theorem constant?_belowLeast {n : Int} {s : IntSuffix} (hs : s.type.signed = true) (h : s.type.Holds n)
    (hmagnitude : s.type.Holds n.natAbs) (hbelow : s.type.Holds (n - 1)) : (belowLeast n s).tree.constant? = some (s.type, n - 1) := by
  have husual : s.type.usual IntSuffix.plain.type = s.type := by
    cases s with
    | plain | ll => rfl
    | ul | ull => cases hs
  have hone : s.type.Holds 1 := by cases s <;> decide
  have hplain : IntSuffix.plain.type.Holds ((1 : Nat) : Int) := by decide
  rw [tree_belowLeast, Tree.constant?, constant?_signedInt h hmagnitude, Tree.constant?, IntType.value?_of_holds hplain, Option.bind_some,
    Option.bind_some]
  dsimp only
  rw [husual, IntType.value?_of_holds h, Option.bind_some, Nat.cast_one, IntType.value?_of_holds hone, Option.bind_some]
  dsimp only
  rw [IntType.value?_of_holds hbelow]

/-- The exact value of what is written for a number is the number. -/
theorem exactValue?_ofInt (n : Int) : (ofInt n).tree.exactValue? = some n := by
  have hbelow : ∀ s, (belowLeast (n + 1) s).tree.exactValue? = some n := by
    intro s
    rw [tree_belowLeast, Tree.exactValue?, exactValue?_signedInt, Tree.exactValue?, Option.bind_some, Option.map_some, Option.some.injEq]
    omega
  unfold ofInt
  split
  · exact exactValue?_signedInt n _
  · unfold exceptionalInt
    split_ifs
    · exact hbelow _
    · exact hbelow _
    · exact exactValue?_signedInt n _

/-- An integer is a constant of the first type that holds it, and none if no type does. -/
theorem constant?_ofInt (n : Int) : (ofInt n).tree.constant? = (IntType.ofLiteral? n).map (·, n) := by
  cases hs : (IntClass.ofInt n).suffix? with
  | some s =>
    obtain ⟨htype, h, hmagnitude⟩ := IntType.ofLiteral?_of_suffix? hs
    rw [ofInt, hs, htype, Option.map_some]
    exact constant?_signedInt h hmagnitude
  | none =>
    have hofInt : ofInt n = exceptionalInt n := by rw [ofInt, hs]
    rw [hofInt, exceptionalInt]
    split_ifs with h32 h64
    · subst h32
      exact constant?_belowLeast rfl (by decide) (by decide) (by decide)
    · subst h64
      exact constant?_belowLeast rfl (by decide) (by decide) (by decide)
    · obtain ⟨htype, hmagnitude⟩ := IntType.ofLiteral?_of_exceptional hs h32 h64
      rw [htype, constant?_signedInt_eq_none hmagnitude]
      rfl

/-- A number begins with a digit, so no parentheses keep a minus apart from it. -/
theorem head?_int_ne_minus (n : Nat) (s : IntSuffix) : (toString n ++ s.text).toList.head? ≠ some '-' := by
  intro hhead
  obtain ⟨c, cs, hcs⟩ := List.exists_cons_of_ne_nil (Nat.toDigits_ne_nil (n := n) (b := 10))
  have hc : c.isDigit = true := Reader.allDigits_toDigits n c (hcs ▸ List.mem_cons_self)
  have htext : (toString n ++ s.text).toList = c :: (cs ++ s.text.toList) := by simp [hcs]
  rw [htext, List.head?_cons, Option.some.injEq] at hhead
  subst hhead
  exact absurd hc (by decide)

/-- The text of a signed literal is the number with its suffix. -/
theorem render_signedInt (n : Int) (s : IntSuffix) : (signedInt n s).render = toString n ++ s.text := by
  rw [← String.toList_inj, String.toList_append, Reader.toList_toString_int]
  by_cases hn : n < 0
  · have hrender : (signedInt n s).render = unaryText (.operator .neg) (toString n.natAbs ++ s.text) := by
      rw [signedInt, signed, if_pos (decide_eq_true hn)]
      rfl
    have hgroup : ((toString n.natAbs ++ s.text).toList.head? == some '-') = false := by
      simpa using head?_int_ne_minus n.natAbs s
    rw [hrender, unaryText, hgroup, Bool.and_false, if_pos hn]
    simp [group, PrefixOp.symbol, UnaryOp.symbol]
  · have hrender : (signedInt n s).render = toString n.natAbs ++ s.text := by
      rw [signedInt, signed, if_neg (by simpa using hn)]
      rfl
    rw [hrender, if_neg hn]
    simp

/-- Outside all types an integer is its decimal digits. -/
theorem render_ofInt_of_ofLiteral?_eq_none {n : Int} (h : IntType.ofLiteral? n = none) : (ofInt n).render = toString n := by
  have hsuffix : (IntClass.ofInt n).suffix? = none := by
    cases hs : (IntClass.ofInt n).suffix? with
    | none => rfl
    | some s => cases h.symm.trans (IntType.ofLiteral?_of_suffix? hs).1
  have h32 : n ≠ minInt32 := by
    rintro rfl
    cases h
  have h64 : n ≠ minInt64 := by
    rintro rfl
    cases h
  have hofInt : ofInt n = signedInt n .plain := by rw [ofInt, hsuffix, exceptionalInt, if_neg h32, if_neg h64]
  rw [hofInt, render_signedInt, IntSuffix.text, String.append_empty]

end Cpp.Expr

/-- The text of an integer is read as a constant with the integer's value. If the integer has at most 64 bits, C++ computes this value in
the first of the four types that holds it, and every literal and every result on the way fits its type; any other integer is written
as the bare decimal number, which is a value of no type. So no two integers have the same text. -/
theorem emit_int (Γ : Context) (n : Int) : ∃ text constant,
    (Expr.emit Γ (.int n)).outcome = .ok text ∧ text = (Cpp.Expr.ofInt n).render ∧ read text = some constant ∧
    constant.exactValue? = some n ∧
    (minInt64 ≤ n ∧ n ≤ maxUInt64 → ∃ t, IntType.ofLiteral? n = some t ∧ constant.constant? = some (t, n)) ∧
    (¬(minInt64 ≤ n ∧ n ≤ maxUInt64) → text = toString n ∧ constant.constant? = none) ∧
    ∀ m, (Cpp.Expr.ofInt m).render = text → m = n := by
  have hread : ∀ m, read (Cpp.Expr.ofInt m).render = some (Cpp.Expr.ofInt m).tree := fun m => (written_ofInt m).read_render
  refine ⟨_, _, rfl, rfl, hread n, Cpp.Expr.exactValue?_ofInt n, ?_, ?_, ?_⟩
  · intro hrange
    obtain ⟨t, ht⟩ := Option.isSome_iff_exists.1 ((IntType.isSome_ofLiteral?_iff n).2 hrange)
    exact ⟨t, ht, by rw [Cpp.Expr.constant?_ofInt, ht, Option.map_some]⟩
  · intro houtside
    have hnone : IntType.ofLiteral? n = none := by
      rwa [← Option.not_isSome_iff_eq_none, IntType.isSome_ofLiteral?_iff]
    exact ⟨Cpp.Expr.render_ofInt_of_ofLiteral?_eq_none hnone, by rw [Cpp.Expr.constant?_ofInt, hnone, Option.map_none]⟩
  · intro m hm
    have htree : (Cpp.Expr.ofInt m).tree = (Cpp.Expr.ofInt n).tree := by
      rw [← Option.some.injEq, ← hread, ← hread, hm]
    have hvalue := Cpp.Expr.exactValue?_ofInt m
    rw [htree, Cpp.Expr.exactValue?_ofInt] at hvalue
    exact (Option.some.inj hvalue).symm

/-- The least value of 64 bits: its magnitude fits no literal of the signed type, the text is that of a difference, and this is computed
in the type. -/
theorem emit_int_least :
    (Expr.emit ⟨({} : TypeTable).toTyping, .conservative⟩ (.int minInt64)).outcome = .ok "(-9223372036854775807LL - 1)" ∧
      (Tree.int 9223372036854775808 .ll).constant? = none ∧
      ∃ constant, read "(-9223372036854775807LL - 1)" = some constant ∧ constant.constant? = some (⟨true, .eight⟩, minInt64) := by
  obtain ⟨text, constant, hemit, htext, hread, -, htyped, -⟩ := emit_int ⟨({} : TypeTable).toTyping, .conservative⟩ minInt64
  have hleast : (Cpp.Expr.ofInt minInt64).render = "(-9223372036854775807LL - 1)" := by decide
  obtain rfl := htext.trans hleast
  obtain ⟨t, ht, hconstant⟩ := htyped (by decide)
  have htype : IntType.ofLiteral? minInt64 = some ⟨true, .eight⟩ := by decide
  obtain rfl := Option.some.inj (ht.symm.trans htype)
  exact ⟨hemit, by decide, constant, hread, hconstant⟩

end ExprToCpp
