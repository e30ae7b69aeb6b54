import Mathlib.Data.List.Forall2
import ExprToCpp.Lowering.Basic

/-!
# What an expression stands for in C++

`Lowers Γ e c` says that `c` is the C++ expression for `e`: one rule for each form and each type that decides it, with no word
about headers, refusals or the order in which they come. Lowering gives exactly what the rules give (`outcome_lower_iff`), so
what holds of every form the rules allow holds of everything emitted.
-/

namespace ExprToCpp

/-! ## Outcomes -/

namespace Emission

variable {α β : Type}

/-- Two steps in a row succeed if the first one does and the second one does with its value. -/
@[simp] theorem outcome_bind_eq_ok {x : Emission α} {f : α → Emission β} {b : β} :
    (x >>= f).outcome = .ok b ↔ ∃ a, x.outcome = .ok a ∧ (f a).outcome = .ok b := by
  rw [outcome_bind]
  cases h : x.outcome with
  | error r => simp [bind, Except.bind]
  | ok a => simp [bind, Except.bind]

/-- A function applied to the value of an emission changes nothing about its success. -/
@[simp] theorem outcome_map_eq_ok {x : Emission α} {f : α → β} {b : β} :
    (f <$> x).outcome = .ok b ↔ ∃ a, x.outcome = .ok a ∧ f a = b := by
  rw [← bind_pure_comp, outcome_bind_eq_ok]
  simp

@[simp] theorem outcome_refuse_ne_ok {r : Refusal} {a : α} : ¬ (refuse r : Emission α).outcome = .ok a := nofun

@[simp] theorem outcome_need (i : Include) : (need i).outcome = .ok () := rfl

@[simp] theorem outcome_ofExcept (x : Except Refusal α) : (ofExcept x).outcome = x := rfl

/-- A list of emissions succeeds when each does. -/
theorem outcome_sequence_eq_ok {xs : List (Emission α)} {as : List α} :
    (sequence xs).outcome = .ok as ↔ List.Forall₂ (fun x a => x.outcome = .ok a) xs as := by
  induction xs generalizing as with
  | nil =>
    constructor
    · intro h
      cases h
      exact .nil
    · intro h
      cases h
      rfl
  | cons x xs ih =>
    constructor
    · intro h
      simp only [sequence, outcome_bind_eq_ok, outcome_pure, Except.ok.injEq] at h
      obtain ⟨a, ha, bs, hbs, rfl⟩ := h
      exact .cons ha (ih.1 hbs)
    · intro h
      cases h with
      | @cons _ a _ bs ha hbs =>
        simp only [sequence, outcome_bind_eq_ok, outcome_pure, Except.ok.injEq]
        exact ⟨a, ha, bs, ih.2 hbs, rfl⟩

end Emission

/-- Asking for a type succeeds if the table gives one. -/
@[simp] theorem Context.outcome_typeOf_eq_ok {Γ : Context} {e : Expr} {t : ValueType} :
    (Γ.typeOf e).outcome = .ok t ↔ Γ.types.typeOf e = some t := by
  unfold Context.typeOf
  cases Γ.types.typeOf e <;> simp [Emission.refuse]

/-! ## The rules -/

/-- The radix ten, given or not. -/
def IsRadixTen (args : List Expr) : Prop := args = [] ∨ args = [.int 10]

/-- The C++ expression that an expression stands for. -/
inductive Lowers (Γ : Context) : Expr → Cpp.Expr → Prop where
  | int (n : Int) : Lowers Γ (.int n) (.ofInt n)
  | float (x : Binary64) : Lowers Γ (.float x) (.ofBinary64 x)
  | bool (b : Bool) : Lowers Γ (.bool b) (.bool b)
  | str (s : String) : Lowers Γ (.str s) (.ofString s)
  | bytes (bs : List UInt8) : Lowers Γ (.bytes bs) (.ofBytes bs)
  /-- A new vector of the items. -/
  | array {items : List Expr} {t : ValueType} {cs : List Cpp.Expr} {c : Cpp.Expr} :
      Γ.types.typeOf (.array items) = some (.array t) → List.Forall₂ (Lowers Γ) items cs →
      Γ.config.ownership.makeArray (.vector (Γ.config.ownership.cppType t)) cs = .ok c → Lowers Γ (.array items) c
  | name (n : String) : Lowers Γ (.name n) (Naming.reference n)
  | member {v : Expr} {a : String} {c : Cpp.Expr} : Lowers Γ v c → Lowers Γ (.member v a) (Naming.member c a)
  /-- A checked access to an array. -/
  | item {v i : Expr} {t : ValueType} {cv ci : Cpp.Expr} : Γ.types.typeOf v = some (.array t) → Lowers Γ v cv → Lowers Γ i ci →
      Lowers Γ (.subscript v i) (.call (.arrow cv "at") [ci])
  | byte {v i : Expr} {cv ci : Cpp.Expr} : Γ.types.typeOf v = some .bytes → Lowers Γ v cv → Lowers Γ i ci →
      Lowers Γ (.subscript v i) (.index cv ci)
  /-- A remainder of integers is a support function's. -/
  | intRemainder {l r : Expr} {a b : IntType} {cl cr : Cpp.Expr} : Γ.types.typeOf l = some (.int a) →
      Γ.types.typeOf r = some (.int b) → Lowers Γ l cl → Lowers Γ r cr →
      Lowers Γ (.binary .mod l r) (.call (Γ.config.support "mod") [cl, cr])
  /-- A remainder with a float is the library's. -/
  | floatRemainder {l r : Expr} {a b : ValueType} {p : Precision} {cl cr : Cpp.Expr} : Γ.types.typeOf l = some a →
      Γ.types.typeOf r = some b → a = .float p ∨ b = .float p → Lowers Γ l cl → Lowers Γ r cr →
      Lowers Γ (.binary .mod l r) (.call (.name "std::fmod") [cl, cr])
  /-- A remainder of anything else is the operator's. -/
  | otherRemainder {l r : Expr} {a b : ValueType} {cl cr : Cpp.Expr} : Γ.types.typeOf l = some a →
      Γ.types.typeOf r = some b → (a.isNumeric && b.isNumeric) = false → (∀ p, a ≠ .float p ∧ b ≠ .float p) → Lowers Γ l cl →
      Lowers Γ r cr → Lowers Γ (.binary .mod l r) (.binary .mod cl cr)
  /-- Texts are ordered by the sign of their comparison. -/
  | textOrder {op : BinaryOp} {l r : Expr} {a b : ValueType} {cl cr : Cpp.Expr} : op.isOrdering = true →
      Γ.types.typeOf l = some a → a.isTextual = true → Γ.types.typeOf r = some b → b.isTextual = true → Lowers Γ l cl →
      Lowers Γ r cr →
      Lowers Γ (.binary op l r) (.paren (.binary op (.call (.dot cl "compare") [cr]) (.int 0 .plain)))
  /-- Other values are ordered by the operator; the type of the right one matters only next to a text. -/
  | order {op : BinaryOp} {l r : Expr} {a : ValueType} {cl cr : Cpp.Expr} : op.isOrdering = true →
      Γ.types.typeOf l = some a → (a.isTextual = true → ∃ b, Γ.types.typeOf r = some b ∧ b.isTextual = false) → Lowers Γ l cl →
      Lowers Γ r cr → Lowers Γ (.binary op l r) (.binary op cl cr)
  | binary {op : BinaryOp} {l r : Expr} {cl cr : Cpp.Expr} : op ≠ .mod → op.isOrdering = false → Lowers Γ l cl →
      Lowers Γ r cr → Lowers Γ (.binary op l r) (.binary op cl cr)
  | unary {op : UnaryOp} {e : Expr} {c : Cpp.Expr} : Lowers Γ e c → Lowers Γ (.unary op e) (.unary (.operator op) c)
  | conditional {e t f : Expr} {ce ct cf : Cpp.Expr} : Lowers Γ e ce → Lowers Γ t ct → Lowers Γ f cf →
      Lowers Γ (.conditional e t f) (.paren (.conditional (.paren ce) (.paren ct) (.paren cf)))
  | castRecord {v : Expr} {path : List String} {c : Cpp.Expr} : Lowers Γ v c →
      Lowers Γ (.cast v (.record path)) (Γ.config.ownership.recast (.named (Naming.qualifiedClass path)) c)
  | cast {v : Expr} {t : ValueType} {c : Cpp.Expr} : (∀ path, t ≠ .record path) → Lowers Γ v c →
      Lowers Γ (.cast v t) (.staticCast (Γ.config.ownership.cppType t) c)
  | enumLabel (d : EnumDecl) (label : String) : Lowers Γ (.enumLabel d label) (.name (Naming.enumConstant d label))
  | enumById {d : EnumDecl} {e : Expr} {c : Cpp.Expr} : Lowers Γ e c →
      Lowers Γ (.enumById d e) (.staticCast (.named (Naming.enumType d)) c)
  | textLength {r : Expr} {m : Method} {t : ValueType} {c : Cpp.Expr} : m = .length ∨ m = .size → Γ.types.typeOf r = some t →
      t.isTextual = true → Lowers Γ r c → Lowers Γ (.method r m []) (.call (.dot c "length") [])
  | arraySize {r : Expr} {m : Method} {t : ValueType} {c : Cpp.Expr} : m = .length ∨ m = .size →
      Γ.types.typeOf r = some (.array t) → Lowers Γ r c → Lowers Γ (.method r m []) (.call (.arrow c "size") [])
  | firstItem {r : Expr} {t : ValueType} {c : Cpp.Expr} : Γ.types.typeOf r = some (.array t) → Lowers Γ r c →
      Lowers Γ (.method r .first []) (.call (.arrow c "front") [])
  | firstByte {r : Expr} {t : ValueType} {c : Cpp.Expr} : Γ.types.typeOf r = some t → t.isTextual = true → Lowers Γ r c →
      Lowers Γ (.method r .first [])
        (if Γ.config.stringEnds then .call (.dot c "front") [] else .index c (.int 0 .plain))
  | lastItem {r : Expr} {t : ValueType} {c : Cpp.Expr} : Γ.types.typeOf r = some (.array t) → Lowers Γ r c →
      Lowers Γ (.method r .last []) (.call (.arrow c "back") [])
  | lastByte {r : Expr} {t : ValueType} {c : Cpp.Expr} : Γ.types.typeOf r = some t → t.isTextual = true → Lowers Γ r c →
      Lowers Γ (.method r .last [])
        (if Γ.config.stringEnds then .call (.dot c "back") []
          else .index c (.binary .sub (.call (.dot c "length") []) (.int 1 .plain)))
  /-- The least or the greatest item of an array, through the iterator the library gives. -/
  | extremeItem {r : Expr} {m : Method} {t : ValueType} {c : Cpp.Expr} : m = .min ∨ m = .max →
      Γ.types.typeOf r = some (.array t) → Lowers Γ r c →
      Lowers Γ (.method r m []) (.unary .deref
        (.call (.name ("std::" ++ m.name ++ "_element")) [.call (.arrow c "begin") [], .call (.arrow c "end") []]))
  | extremeByte {r : Expr} {m : Method} {c : Cpp.Expr} : m = .min ∨ m = .max → Γ.types.typeOf r = some .bytes →
      Lowers Γ r c → Lowers Γ (.method r m []) (.call (Γ.config.support ("byte_array_" ++ m.name)) [c])
  /-- From an offset, as many bytes as there are up to the other. -/
  | substring {r i j : Expr} {c ci cj : Cpp.Expr} : Γ.types.typeOf r = some .str → Lowers Γ r c → Lowers Γ i ci →
      Lowers Γ j cj → Lowers Γ (.method r .substring [i, j]) (.call (.dot c "substr") [ci, .binary .sub cj ci])
  | reverse {r : Expr} {c : Cpp.Expr} : Γ.types.typeOf r = some .str → Lowers Γ r c →
      Lowers Γ (.method r .reverse []) (.call (Γ.config.support "reverse") [c])
  | intText {r : Expr} {args : List Expr} {t : IntType} {c : Cpp.Expr} : Γ.types.typeOf r = some (.int t) → IsRadixTen args →
      Lowers Γ r c → Lowers Γ (.method r .toStr args) (.call (Γ.config.support "to_string") [c])
  | decoded {r : Expr} {encoding : String} {c : Cpp.Expr} : Γ.types.typeOf r = some .bytes → Lowers Γ r c →
      Lowers Γ (.method r .toStr [.str encoding])
        (.call (Γ.config.support "bytes_to_str") [c, .string .text (Cpp.Escape.utf8 encoding)])
  | ownText {r : Expr} {c : Cpp.Expr} : Γ.types.typeOf r = some .str → Lowers Γ r c → Lowers Γ (.method r .toStr []) c
  | parsed {r : Expr} {args : List Expr} {c : Cpp.Expr} : Γ.types.typeOf r = some .str → IsRadixTen args → Lowers Γ r c →
      Lowers Γ (.method r .toInt args) (.call (.name "std::stoi") [c])
  | parsedInRadix {r radix : Expr} {c cr : Cpp.Expr} : Γ.types.typeOf r = some .str → Expr.isDefaultRadix radix = false →
      Lowers Γ r c → Lowers Γ radix cr →
      Lowers Γ (.method r .toInt [radix]) (.call (.name "std::stoi") [c, .int 0 .plain, cr])
  | truthValue {r : Expr} {c : Cpp.Expr} : Γ.types.typeOf r = some .bool → Lowers Γ r c →
      Lowers Γ (.method r .toInt []) (.paren (.conditional (.paren c) (.int 1 .plain) (.int 0 .plain)))
  | truncated {r : Expr} {p : Precision} {c : Cpp.Expr} : Γ.types.typeOf r = some (.float p) → Lowers Γ r c →
      Lowers Γ (.method r .toInt []) (.staticCast (.named "int") c)
  | ownInt {r : Expr} {t : ValueType} {c : Cpp.Expr} : Γ.types.typeOf r = some t → (∃ i, t = .int i) ∨ (∃ d, t = .enum d) →
      Lowers Γ r c → Lowers Γ (.method r .toInt []) c

/-! ## Lowering follows the rules -/

/-- Lowering an expression gives what the rules give. -/
def Described (Γ : Context) (e : Expr) : Prop := ∀ c, (e.lower Γ).outcome = .ok c ↔ Lowers Γ e c

section

variable {Γ : Context} {e v i l r f t : Expr} {es : List Expr}

/-- A float is written by its digits, or by a name if it has none. -/
theorem described_float (x : Binary64) : Described Γ (.float x) := by
  intro c
  change (Context.float x).outcome = .ok c ↔ _
  have hout : (Context.float x).outcome = .ok (.ofBinary64 x) := by
    unfold Context.float
    cases x.isFinite <;> rfl
  rw [hout]
  constructor
  · intro h
    cases h
    exact .float x
  · intro h
    cases h
    rfl

/-- The items of a list are lowered one by one, each as the rules say. -/
theorem forall₂_lowers_iff (h : ∀ x ∈ es, Described Γ x) (cs : List Cpp.Expr) :
    (Emission.sequence ((Expr.lowerAll Γ es).map (·.cpp))).outcome = .ok cs ↔ List.Forall₂ (Lowers Γ) es cs := by
  rw [Emission.outcome_sequence_eq_ok, Expr.lowerAll_eq_map, List.map_map, List.forall₂_map_left_iff]
  constructor
  · intro hcs
    induction hcs with
    | nil => exact .nil
    | @cons x c xs cs hx _ ih =>
      exact .cons ((h x List.mem_cons_self c).1 hx) (ih fun y hy => h y (List.mem_cons_of_mem x hy))
  · intro hcs
    induction hcs with
    | nil => exact .nil
    | @cons x c xs cs hx _ ih =>
      exact .cons ((h x List.mem_cons_self c).2 hx) (ih fun y hy => h y (List.mem_cons_of_mem x hy))

/-- An array literal has a type and is made as the ownership says, if it can be. -/
theorem described_array (h : ∀ x ∈ es, Described Γ x) : Described Γ (.array es) := by
  intro c
  change (Γ.array (.array es) (Expr.lowerAll Γ es)).outcome = .ok c ↔ _
  unfold Context.array
  rw [Emission.outcome_bind_eq_ok]
  constructor
  · rintro ⟨t, ht, hout⟩
    rw [Context.outcome_typeOf_eq_ok] at ht
    cases t with
    | array t =>
      simp only [Emission.outcome_bind_eq_ok, Emission.outcome_ofExcept, Emission.outcome_need, Emission.outcome_pure,
        Except.ok.injEq] at hout
      obtain ⟨cs, hcs, made, hmade, -, -, rfl⟩ := hout
      exact .array ht ((forall₂_lowers_iff h cs).1 hcs) hmade
    | _ => exact absurd hout Emission.outcome_refuse_ne_ok
  · intro hc
    cases hc with
    | @array _ t cs _ ht hcs hmade =>
      refine ⟨.array t, Context.outcome_typeOf_eq_ok.2 ht, ?_⟩
      simp only [Emission.outcome_bind_eq_ok, Emission.outcome_ofExcept, Emission.outcome_need, Emission.outcome_pure,
        Except.ok.injEq]
      exact ⟨cs, (forall₂_lowers_iff h cs).2 hcs, c, hmade, (), trivial, rfl⟩

theorem described_member (a : String) (hv : Described Γ v) : Described Γ (.member v a) := by
  intro c
  change ((Naming.member · a) <$> v.lower Γ).outcome = .ok c ↔ _
  rw [Emission.outcome_map_eq_ok]
  constructor
  · rintro ⟨cv, hcv, rfl⟩
    exact .member ((hv cv).1 hcv)
  · intro hc
    cases hc with
    | member hcv => exact ⟨_, (hv _).2 hcv, rfl⟩

/-- A subscript is a checked access to an array, or an index into bytes. -/
theorem described_subscript (hv : Described Γ v) (hi : Described Γ i) : Described Γ (.subscript v i) := by
  intro c
  change (Γ.subscript ⟨v, v.lower Γ⟩ ⟨i, i.lower Γ⟩).outcome = .ok c ↔ _
  simp only [Context.subscript, Emission.outcome_bind_eq_ok, Context.outcome_typeOf_eq_ok]
  constructor
  · rintro ⟨t, ht, cv, hcv, ci, hci, hout⟩
    rw [hv cv] at hcv
    rw [hi ci] at hci
    cases t with
    | array t =>
      cases hout
      exact .item ht hcv hci
    | bytes =>
      cases hout
      exact .byte ht hcv hci
    | _ => exact absurd hout Emission.outcome_refuse_ne_ok
  · intro hc
    cases hc with
    | item ht hcv hci => exact ⟨_, ht, _, (hv _).2 hcv, _, (hi _).2 hci, rfl⟩
    | byte ht hcv hci => exact ⟨_, ht, _, (hv _).2 hcv, _, (hi _).2 hci, rfl⟩

/-- An operator that C++ has too is written between its lowered operands. -/
theorem outcome_plainBinary_eq_ok {op : BinaryOp} {c : Cpp.Expr} (hl : Described Γ l) (hr : Described Γ r) :
    (Context.plainBinary op ⟨l, l.lower Γ⟩ ⟨r, r.lower Γ⟩).outcome = .ok c ↔
      ∃ cl cr, Lowers Γ l cl ∧ Lowers Γ r cr ∧ c = .binary op cl cr := by
  simp only [Context.plainBinary, Emission.outcome_bind_eq_ok, Emission.outcome_pure, Except.ok.injEq, hl _, hr _]
  constructor
  · rintro ⟨cl, hcl, cr, hcr, rfl⟩
    exact ⟨cl, cr, hcl, hcr, rfl⟩
  · rintro ⟨cl, cr, hcl, hcr, rfl⟩
    exact ⟨cl, hcl, cr, hcr, rfl⟩

/-- A function of two operands is called on both, lowered in order. -/
theorem outcome_callOnBoth_eq_ok {g c : Cpp.Expr} (hl : Described Γ l) (hr : Described Γ r) :
    (Context.callOnBoth g ⟨l, l.lower Γ⟩ ⟨r, r.lower Γ⟩).outcome = .ok c ↔
      ∃ cl cr, Lowers Γ l cl ∧ Lowers Γ r cr ∧ c = .call g [cl, cr] := by
  simp only [Context.callOnBoth, Emission.outcome_bind_eq_ok, Emission.outcome_pure, Except.ok.injEq, hl _, hr _]
  constructor
  · rintro ⟨cl, hcl, cr, hcr, rfl⟩
    exact ⟨cl, cr, hcl, hcr, rfl⟩
  · rintro ⟨cl, cr, hcl, hcr, rfl⟩
    exact ⟨cl, hcl, cr, hcr, rfl⟩

/-- The remainder has three forms, by the types of the operands. -/
theorem outcome_remainder_iff {c : Cpp.Expr} (hl : Described Γ l) (hr : Described Γ r) :
    (Γ.remainder ⟨l, l.lower Γ⟩ ⟨r, r.lower Γ⟩).outcome = .ok c ↔ Lowers Γ (.binary .mod l r) c := by
  simp only [Context.remainder, Emission.outcome_bind_eq_ok, Context.outcome_typeOf_eq_ok]
  constructor
  · rintro ⟨a, ha, b, hb, hout⟩
    split at hout
    · obtain ⟨cl, cr, hcl, hcr, rfl⟩ := (outcome_callOnBoth_eq_ok hl hr).1 hout
      exact .intRemainder ha hb hcl hcr
    · simp only [Emission.outcome_bind_eq_ok, outcome_callOnBoth_eq_ok hl hr] at hout
      obtain ⟨-, -, cl, cr, hcl, hcr, rfl⟩ := hout
      exact .floatRemainder ha hb (Or.inl rfl) hcl hcr
    · simp only [Emission.outcome_bind_eq_ok, outcome_callOnBoth_eq_ok hl hr] at hout
      obtain ⟨-, -, cl, cr, hcl, hcr, rfl⟩ := hout
      exact .floatRemainder ha hb (Or.inr rfl) hcl hcr
    · next hfloatl hfloatr hint =>
      obtain ⟨cl, cr, hcl, hcr, rfl⟩ := (outcome_plainBinary_eq_ok hl hr).1 hout
      refine .otherRemainder ha hb ?_ (fun p => ⟨hfloatl p, hfloatr p⟩) hcl hcr
      cases a with
      | int a =>
        cases b with
        | int b => exact (hint a b rfl rfl).elim
        | float p => exact absurd rfl (hfloatr p)
        | _ => rfl
      | float p => exact absurd rfl (hfloatl p)
      | _ => rfl
  · intro hc
    cases hc with
    | intRemainder ha hb hcl hcr =>
      exact ⟨_, ha, _, hb, (outcome_callOnBoth_eq_ok hl hr).2 ⟨_, _, hcl, hcr, rfl⟩⟩
    | @floatRemainder _ _ a b p _ _ ha hb hfloat hcl hcr =>
      refine ⟨_, ha, _, hb, ?_⟩
      have hcall := (outcome_callOnBoth_eq_ok (g := .name "std::fmod") hl hr).2 ⟨_, _, hcl, hcr, rfl⟩
      rcases hfloat with rfl | rfl
      · exact Emission.outcome_bind_eq_ok.2 ⟨(), rfl, hcall⟩
      · cases a <;> exact Emission.outcome_bind_eq_ok.2 ⟨(), rfl, hcall⟩
    | @otherRemainder _ _ a b _ _ ha hb hnumeric hfloat hcl hcr =>
      refine ⟨_, ha, _, hb, ?_⟩
      split
      · cases hnumeric
      · next p => exact absurd rfl (hfloat p).1
      · next p _ => exact absurd rfl (hfloat p).2
      · exact (outcome_plainBinary_eq_ok hl hr).2 ⟨_, _, hcl, hcr, rfl⟩
    | textOrder hop => cases hop
    | order hop => cases hop
    | binary hop => exact absurd rfl hop

/-- Both operands are text, or the left one is not and the right one's type is not asked for. -/
theorem outcome_bothTextual_eq_ok {x y : Operand} {b : Bool} :
    (Γ.bothTextual x y).outcome = .ok b ↔ ∃ a, Γ.types.typeOf x.expr = some a ∧
      if a.isTextual then ∃ a', Γ.types.typeOf y.expr = some a' ∧ a'.isTextual = b else b = false := by
  simp only [Context.bothTextual, Emission.outcome_bind_eq_ok, Context.outcome_typeOf_eq_ok]
  constructor
  · rintro ⟨a, ha, hout⟩
    refine ⟨a, ha, ?_⟩
    cases hta : a.isTextual with
    | true =>
      rw [if_pos hta] at hout
      simpa using hout
    | false =>
      rw [if_neg (by simp [hta])] at hout
      cases hout
      rfl
  · rintro ⟨a, ha, hb⟩
    refine ⟨a, ha, ?_⟩
    cases hta : a.isTextual with
    | true =>
      rw [if_pos hta] at hb
      rw [if_pos rfl]
      simpa using hb
    | false =>
      rw [if_neg (by simp [hta])] at hb
      subst hb
      rfl

/-- An ordering compares the operands, or the result of comparing two texts with zero. -/
theorem outcome_ordering_iff {op : BinaryOp} {c : Cpp.Expr} (hop : op.isOrdering = true) (hl : Described Γ l)
    (hr : Described Γ r) :
    (Γ.ordering op ⟨l, l.lower Γ⟩ ⟨r, r.lower Γ⟩).outcome = .ok c ↔ Lowers Γ (.binary op l r) c := by
  simp only [Context.ordering, Emission.outcome_bind_eq_ok, outcome_bothTextual_eq_ok]
  constructor
  · rintro ⟨b, ⟨a, ha, hb⟩, hout⟩
    cases b with
    | true =>
      simp only [if_true, Emission.outcome_bind_eq_ok, Emission.outcome_pure, Except.ok.injEq] at hout
      obtain ⟨cl, hcl, cr, hcr, rfl⟩ := hout
      cases hta : a.isTextual with
      | true =>
        rw [if_pos hta] at hb
        obtain ⟨a', ha', hta'⟩ := hb
        exact .textOrder hop ha hta ha' hta' ((hl cl).1 hcl) ((hr cr).1 hcr)
      | false =>
        rw [if_neg (by simp [hta])] at hb
        cases hb
    | false =>
      obtain ⟨cl, cr, hcl, hcr, rfl⟩ := (outcome_plainBinary_eq_ok hl hr).1 hout
      refine .order hop ha (fun hta => ?_) hcl hcr
      rwa [if_pos hta] at hb
  · intro hc
    cases hc with
    | textOrder _ ha hta ha' hta' hcl hcr =>
      refine ⟨true, ⟨_, ha, by rw [if_pos hta]; exact ⟨_, ha', hta'⟩⟩, ?_⟩
      simp only [if_true, Emission.outcome_bind_eq_ok]
      exact ⟨_, (hl _).2 hcl, _, (hr _).2 hcr, rfl⟩
    | @order _ _ _ a _ _ _ ha himp hcl hcr =>
      refine ⟨false, ⟨_, ha, ?_⟩, (outcome_plainBinary_eq_ok hl hr).2 ⟨_, _, hcl, hcr, rfl⟩⟩
      cases hta : a.isTextual with
      | true =>
        rw [if_pos rfl]
        exact himp hta
      | false => rfl
    | intRemainder => cases hop
    | floatRemainder => cases hop
    | otherRemainder => cases hop
    | binary _ hno => rw [hop] at hno; cases hno

/-- The rules agree with lowering on binary operators, of which only the remainder and the orderings look at types. -/
theorem described_binary (op : BinaryOp) (hl : Described Γ l) (hr : Described Γ r) : Described Γ (.binary op l r) := by
  intro c
  change (Γ.binary op ⟨l, l.lower Γ⟩ ⟨r, r.lower Γ⟩).outcome = .ok c ↔ _
  unfold Context.binary
  by_cases hmod : op = .mod
  · subst hmod
    rw [if_pos rfl, outcome_remainder_iff hl hr]
  · rw [if_neg hmod]
    cases hop : op.isOrdering with
    | true => rw [if_pos rfl, outcome_ordering_iff hop hl hr]
    | false =>
      rw [if_neg (by decide), outcome_plainBinary_eq_ok hl hr]
      constructor
      · rintro ⟨cl, cr, hcl, hcr, rfl⟩
        exact .binary hmod hop hcl hcr
      · intro hc
        cases hc with
        | binary _ _ hcl hcr => exact ⟨_, _, hcl, hcr, rfl⟩
        | intRemainder => exact absurd rfl hmod
        | floatRemainder => exact absurd rfl hmod
        | otherRemainder => exact absurd rfl hmod
        | textOrder hyes => rw [hop] at hyes; cases hyes
        | order hyes => rw [hop] at hyes; cases hyes

theorem described_unary (op : UnaryOp) (he : Described Γ e) : Described Γ (.unary op e) := by
  intro c
  change (Context.unary op ⟨e, e.lower Γ⟩).outcome = .ok c ↔ _
  simp only [Context.unary, Emission.outcome_bind_eq_ok, Emission.outcome_pure, Except.ok.injEq, he _]
  constructor
  · rintro ⟨ce, hce, rfl⟩
    exact .unary hce
  · intro hc
    cases hc with
    | unary hce => exact ⟨_, hce, rfl⟩

/-- A conditional is written in parentheses, and so are its three parts. -/
theorem described_conditional (he : Described Γ e) (ht : Described Γ t) (hf : Described Γ f) :
    Described Γ (.conditional e t f) := by
  intro c
  change (Context.conditional ⟨e, e.lower Γ⟩ ⟨t, t.lower Γ⟩ ⟨f, f.lower Γ⟩).outcome = .ok c ↔ _
  simp only [Context.conditional, Emission.outcome_bind_eq_ok, Emission.outcome_pure, Except.ok.injEq, he _, ht _, hf _]
  constructor
  · rintro ⟨ce, hce, ct, hct, cf, hcf, rfl⟩
    exact .conditional hce hct hcf
  · intro hc
    cases hc with
    | conditional hce hct hcf => exact ⟨_, hce, _, hct, _, hcf, rfl⟩

/-- A cast to a record is left to the ownership; every other one is a static cast. -/
theorem described_cast (target : ValueType) (hv : Described Γ v) : Described Γ (.cast v target) := by
  intro c
  change (Γ.cast ⟨v, v.lower Γ⟩ target).outcome = .ok c ↔ _
  simp only [Context.cast, Emission.outcome_bind_eq_ok, hv _]
  constructor
  · rintro ⟨cv, hcv, hout⟩
    split at hout
    · cases hout
      exact .castRecord hcv
    · next hrecord =>
      cases hout
      exact .cast hrecord hcv
  · intro hc
    cases hc with
    | castRecord hcv => exact ⟨_, hcv, rfl⟩
    | cast hrecord hcv =>
      refine ⟨_, hcv, ?_⟩
      split
      · next path => exact absurd rfl (hrecord path)
      · rfl

theorem outcome_needEnum (d : EnumDecl) : (Γ.needEnum d).outcome = .ok () := by
  unfold Context.needEnum
  split
  · rfl
  · split <;> rfl

theorem described_enumLabel (d : EnumDecl) (label : String) : Described Γ (.enumLabel d label) := by
  intro c
  change (Γ.enumLabel d label).outcome = .ok c ↔ _
  simp only [Context.enumLabel, Emission.outcome_bind_eq_ok, outcome_needEnum, Emission.outcome_pure, Except.ok.injEq, true_and,
    exists_const]
  constructor
  · rintro rfl
    exact .enumLabel d label
  · intro hc
    cases hc
    rfl

/-- A number becomes an enumeration constant by a static cast. -/
theorem described_enumById (d : EnumDecl) (he : Described Γ e) : Described Γ (.enumById d e) := by
  intro c
  change (Γ.enumById d ⟨e, e.lower Γ⟩).outcome = .ok c ↔ _
  simp only [Context.enumById, Emission.outcome_bind_eq_ok, outcome_needEnum, Emission.outcome_pure, Except.ok.injEq, true_and,
    exists_const, he _]
  constructor
  · rintro ⟨ce, hce, rfl⟩
    exact .enumById hce
  · intro hc
    cases hc with
    | enumById hce => exact ⟨_, hce, rfl⟩

/-! ### Methods -/

theorem isTextual_iff {t : ValueType} : t.isTextual = true ↔ t = .str ∨ t = .bytes := by
  cases t <;> simp [ValueType.isTextual]

/-- The radix that needs no conversion is the literal ten and nothing else. -/
theorem isDefaultRadix_iff {x : Expr} : Expr.isDefaultRadix x = true ↔ x = .int 10 := by
  cases x <;> simp [Expr.isDefaultRadix]

/-- The type of the receiver is asked for first, and decides the rest. -/
theorem outcome_typeOf_bind_eq_ok {x : Expr} {rule : ValueType → Emission Cpp.Expr} {c : Cpp.Expr} :
    (Γ.typeOf x >>= rule).outcome = .ok c ↔ ∃ type, Γ.types.typeOf x = some type ∧ (rule type).outcome = .ok c := by
  simp only [Emission.outcome_bind_eq_ok, Context.outcome_typeOf_eq_ok]

/-- A method call that succeeds has as many arguments as the method takes. -/
theorem accepts_of_outcome_methodCall {m : Method} {args : List Operand} {x : Operand} {c : Cpp.Expr}
    (h : (Γ.methodCall x m args).outcome = .ok c) : m.accepts args.length = true := by
  unfold Context.methodCall at h
  cases hacc : m.accepts args.length with
  | true => rfl
  | false =>
    rw [hacc, if_neg (by decide)] at h
    exact absurd h Emission.outcome_refuse_ne_ok

/-- The length of an array, a string or bytes is asked of the object itself. -/
theorem outcome_length_iff {m : Method} {c : Cpp.Expr} (hm : m = .length ∨ m = .size) (hr : Described Γ r) :
    (∃ type, Γ.types.typeOf r = some type ∧ (Context.length ⟨r, r.lower Γ⟩ type).outcome = .ok c) ↔
      Lowers Γ (.method r m []) c := by
  simp only [Context.length, Emission.outcome_bind_eq_ok, hr _]
  constructor
  · rintro ⟨type, htype, cr, hcr, hout⟩
    cases type with
    | str => cases hout; exact .textLength hm htype rfl hcr
    | bytes => cases hout; exact .textLength hm htype rfl hcr
    | array t => cases hout; exact .arraySize hm htype hcr
    | _ => exact absurd hout Emission.outcome_refuse_ne_ok
  · intro hc
    cases hc with
    | @textLength _ _ t _ _ htype htext hcr =>
      refine ⟨t, htype, _, hcr, ?_⟩
      rcases isTextual_iff.1 htext with rfl | rfl <;> rfl
    | arraySize _ htype hcr => exact ⟨_, htype, _, hcr, rfl⟩
    | extremeItem hm' | extremeByte hm' => rcases hm with rfl | rfl <;> simp at hm'
    | _ => simp at hm

/-- The first item is asked of an array, and the first byte of a text by one of two forms. -/
theorem outcome_first_iff {c : Cpp.Expr} (hr : Described Γ r) :
    (∃ type, Γ.types.typeOf r = some type ∧ (Γ.first ⟨r, r.lower Γ⟩ type).outcome = .ok c) ↔
      Lowers Γ (.method r .first []) c := by
  simp only [Context.first, Emission.outcome_bind_eq_ok, hr _]
  constructor
  · rintro ⟨type, htype, cr, hcr, hout⟩
    cases type with
    | str => cases hout; exact .firstByte htype rfl hcr
    | bytes => cases hout; exact .firstByte htype rfl hcr
    | array t => cases hout; exact .firstItem htype hcr
    | _ => exact absurd hout Emission.outcome_refuse_ne_ok
  · intro hc
    cases hc with
    | @firstByte _ t _ htype htext hcr =>
      refine ⟨t, htype, _, hcr, ?_⟩
      rcases isTextual_iff.1 htext with rfl | rfl <;> rfl
    | firstItem htype hcr => exact ⟨_, htype, _, hcr, rfl⟩
    | textLength hm | arraySize hm | extremeItem hm | extremeByte hm => simp at hm

/-- The last item is asked of an array, and the last byte of a text by one of two forms, one of which names the text twice. -/
theorem outcome_last_iff {c : Cpp.Expr} (hr : Described Γ r) :
    (∃ type, Γ.types.typeOf r = some type ∧ (Γ.last ⟨r, r.lower Γ⟩ type).outcome = .ok c) ↔ Lowers Γ (.method r .last []) c := by
  simp only [Context.last, Emission.outcome_bind_eq_ok, hr _]
  constructor
  · rintro ⟨type, htype, cr, hcr, hout⟩
    cases type with
    | str => cases hout; exact .lastByte htype rfl hcr
    | bytes => cases hout; exact .lastByte htype rfl hcr
    | array t => cases hout; exact .lastItem htype hcr
    | _ => exact absurd hout Emission.outcome_refuse_ne_ok
  · intro hc
    cases hc with
    | @lastByte _ t _ htype htext hcr =>
      refine ⟨t, htype, _, hcr, ?_⟩
      rcases isTextual_iff.1 htext with rfl | rfl <;> rfl
    | lastItem htype hcr => exact ⟨_, htype, _, hcr, rfl⟩
    | textLength hm | arraySize hm | extremeItem hm | extremeByte hm => simp at hm

/-- The least or greatest item is looked for between the begin and the end of an array, or by a support function in bytes. -/
theorem outcome_extreme_iff {m : Method} {c : Cpp.Expr} (hm : m = .min ∨ m = .max) (hr : Described Γ r) :
    (∃ type, Γ.types.typeOf r = some type ∧ (Γ.extreme m ⟨r, r.lower Γ⟩ type).outcome = .ok c) ↔
      Lowers Γ (.method r m []) c := by
  constructor
  · rintro ⟨type, htype, hout⟩
    cases type with
    | array t =>
      simp only [Context.extreme, Emission.outcome_bind_eq_ok, hr _] at hout
      obtain ⟨cr, hcr, -, -, hout⟩ := hout
      cases hout
      exact .extremeItem hm htype hcr
    | bytes =>
      simp only [Context.extreme, Emission.outcome_bind_eq_ok, hr _] at hout
      obtain ⟨cr, hcr, hout⟩ := hout
      cases hout
      exact .extremeByte hm htype hcr
    | _ => exact absurd hout Emission.outcome_refuse_ne_ok
  · intro hc
    cases hc with
    | extremeItem _ htype hcr =>
      refine ⟨_, htype, ?_⟩
      simp only [Context.extreme, Emission.outcome_bind_eq_ok, hr _]
      exact ⟨_, hcr, (), rfl, rfl⟩
    | extremeByte _ htype hcr =>
      refine ⟨_, htype, ?_⟩
      simp only [Context.extreme, Emission.outcome_bind_eq_ok, hr _]
      exact ⟨_, hcr, rfl⟩
    | textLength hm' | arraySize hm' => rcases hm with rfl | rfl <;> simp at hm'
    | _ => simp at hm

/-- A substring is asked of a string by its begin and its length, which is a difference. -/
theorem outcome_substring_iff {c : Cpp.Expr} (hr : Described Γ r) (hi : Described Γ i) (hl : Described Γ l) :
    (∃ type, Γ.types.typeOf r = some type ∧
      (Context.substring ⟨r, r.lower Γ⟩ type ⟨i, i.lower Γ⟩ ⟨l, l.lower Γ⟩).outcome = .ok c) ↔
      Lowers Γ (.method r .substring [i, l]) c := by
  constructor
  · rintro ⟨type, htype, hout⟩
    cases type with
    | str =>
      simp only [Context.substring, Emission.outcome_bind_eq_ok, hr _, hi _, hl _] at hout
      obtain ⟨cr, hcr, ci, hci, cl, hcl, hout⟩ := hout
      cases hout
      exact .substring htype hcr hci hcl
    | _ => exact absurd hout Emission.outcome_refuse_ne_ok
  · intro hc
    cases hc with
    | substring htype hcr hci hcl =>
      refine ⟨_, htype, ?_⟩
      simp only [Context.substring, Emission.outcome_bind_eq_ok, hr _, hi _, hl _]
      exact ⟨_, hcr, _, hci, _, hcl, rfl⟩

/-- A string is reversed by a support function. -/
theorem outcome_reverse_iff {c : Cpp.Expr} (hr : Described Γ r) :
    (∃ type, Γ.types.typeOf r = some type ∧ (Γ.reverse ⟨r, r.lower Γ⟩ type).outcome = .ok c) ↔
      Lowers Γ (.method r .reverse []) c := by
  constructor
  · rintro ⟨type, htype, hout⟩
    cases type with
    | str =>
      simp only [Context.reverse, Emission.outcome_bind_eq_ok, hr _] at hout
      obtain ⟨cr, hcr, hout⟩ := hout
      cases hout
      exact .reverse htype hcr
    | _ => exact absurd hout Emission.outcome_refuse_ne_ok
  · intro hc
    cases hc with
    | reverse htype hcr =>
      refine ⟨_, htype, ?_⟩
      simp only [Context.reverse, Emission.outcome_bind_eq_ok, hr _]
      exact ⟨_, hcr, rfl⟩
    | textLength hm | arraySize hm | extremeItem hm | extremeByte hm => simp at hm

/-- Without an argument, an integer is converted and a string is its own text. -/
theorem outcome_toStr_iff {c : Cpp.Expr} (hr : Described Γ r) :
    (∃ type, Γ.types.typeOf r = some type ∧ (Γ.toStr ⟨r, r.lower Γ⟩ type none).outcome = .ok c) ↔
      Lowers Γ (.method r .toStr []) c := by
  constructor
  · rintro ⟨type, htype, hout⟩
    cases type with
    | int t =>
      simp only [Context.toStr, Option.map_none, Emission.outcome_bind_eq_ok, hr _] at hout
      obtain ⟨cr, hcr, hout⟩ := hout
      cases hout
      exact .intText htype (Or.inl rfl) hcr
    | str => exact .ownText htype ((hr c).1 hout)
    | _ => exact absurd hout Emission.outcome_refuse_ne_ok
  · intro hc
    cases hc with
    | intText htype _ hcr =>
      refine ⟨_, htype, ?_⟩
      simp only [Context.toStr, Option.map_none, Emission.outcome_bind_eq_ok, hr _]
      exact ⟨_, hcr, rfl⟩
    | ownText htype hcr => exact ⟨_, htype, (hr c).2 hcr⟩
    | textLength hm | arraySize hm | extremeItem hm | extremeByte hm => simp at hm

/-- With an argument, bytes are decoded by the encoding it names, and an integer is converted if it is the radix ten. -/
theorem outcome_toStr_arg_iff {a : Expr} {c : Cpp.Expr} (hr : Described Γ r) :
    (∃ type, Γ.types.typeOf r = some type ∧ (Γ.toStr ⟨r, r.lower Γ⟩ type (some ⟨a, a.lower Γ⟩)).outcome = .ok c) ↔
      Lowers Γ (.method r .toStr [a]) c := by
  constructor
  · rintro ⟨type, htype, hout⟩
    cases type with
    | int t =>
      simp only [Context.toStr, Option.map_some] at hout
      split at hout
      · next hten =>
        simp only [Emission.outcome_bind_eq_ok, hr _] at hout
        obtain ⟨cr, hcr, hout⟩ := hout
        cases hout
        rw [isDefaultRadix_iff.1 hten]
        exact .intText htype (Or.inr rfl) hcr
      · exact absurd hout Emission.outcome_refuse_ne_ok
    | bytes =>
      cases a with
      | str encoding =>
        simp only [Context.toStr, Option.map_some, Emission.outcome_bind_eq_ok, hr _] at hout
        obtain ⟨cr, hcr, hout⟩ := hout
        cases hout
        exact .decoded htype hcr
      | _ => exact absurd hout Emission.outcome_refuse_ne_ok
    | _ => exact absurd hout Emission.outcome_refuse_ne_ok
  · intro hc
    cases hc with
    | intText htype hten hcr =>
      rcases hten with hten | hten
      · cases hten
      · cases hten
        refine ⟨_, htype, ?_⟩
        simp only [Context.toStr, Option.map_some, Expr.isDefaultRadix, beq_self_eq_true, if_true, Emission.outcome_bind_eq_ok,
          hr _]
        exact ⟨_, hcr, rfl⟩
    | decoded htype hcr =>
      refine ⟨_, htype, ?_⟩
      simp only [Context.toStr, Option.map_some, Emission.outcome_bind_eq_ok, hr _]
      exact ⟨_, hcr, rfl⟩

/-- Without an argument, a string is parsed, a boolean is one or zero, a float is cast, and an integer is one already. -/
theorem outcome_toInt_iff {c : Cpp.Expr} (hr : Described Γ r) :
    (∃ type, Γ.types.typeOf r = some type ∧ (Context.toInt ⟨r, r.lower Γ⟩ type none).outcome = .ok c) ↔
      Lowers Γ (.method r .toInt []) c := by
  constructor
  · rintro ⟨type, htype, hout⟩
    cases type with
    | str =>
      simp only [Context.toInt, Context.readInt, Emission.outcome_bind_eq_ok, hr _] at hout
      obtain ⟨cr, hcr, hout⟩ := hout
      cases hout
      exact .parsed htype (Or.inl rfl) hcr
    | bool =>
      simp only [Context.toInt, Emission.outcome_bind_eq_ok, hr _] at hout
      obtain ⟨cr, hcr, hout⟩ := hout
      cases hout
      exact .truthValue htype hcr
    | float p =>
      simp only [Context.toInt, Emission.outcome_bind_eq_ok, hr _] at hout
      obtain ⟨cr, hcr, hout⟩ := hout
      cases hout
      exact .truncated htype hcr
    | int t => exact .ownInt htype (Or.inl ⟨t, rfl⟩) ((hr c).1 hout)
    | «enum» d => exact .ownInt htype (Or.inr ⟨d, rfl⟩) ((hr c).1 hout)
    | _ => exact absurd hout Emission.outcome_refuse_ne_ok
  · intro hc
    cases hc with
    | parsed htype _ hcr =>
      refine ⟨_, htype, ?_⟩
      simp only [Context.toInt, Context.readInt, Emission.outcome_bind_eq_ok, hr _]
      exact ⟨_, hcr, rfl⟩
    | truthValue htype hcr =>
      refine ⟨_, htype, ?_⟩
      simp only [Context.toInt, Emission.outcome_bind_eq_ok, hr _]
      exact ⟨_, hcr, rfl⟩
    | truncated htype hcr =>
      refine ⟨_, htype, ?_⟩
      simp only [Context.toInt, Emission.outcome_bind_eq_ok, hr _]
      exact ⟨_, hcr, rfl⟩
    | ownInt htype hkind hcr =>
      rcases hkind with ⟨t, rfl⟩ | ⟨d, rfl⟩
      · exact ⟨_, htype, (hr c).2 hcr⟩
      · exact ⟨_, htype, (hr c).2 hcr⟩
    | textLength hm | arraySize hm | extremeItem hm | extremeByte hm => simp at hm

/-- With an argument, only a string is parsed, in the radix that it gives. -/
theorem outcome_toInt_arg_iff {a : Expr} {c : Cpp.Expr} (hr : Described Γ r) (ha : Described Γ a) :
    (∃ type, Γ.types.typeOf r = some type ∧ (Context.toInt ⟨r, r.lower Γ⟩ type (some ⟨a, a.lower Γ⟩)).outcome = .ok c) ↔
      Lowers Γ (.method r .toInt [a]) c := by
  constructor
  · rintro ⟨type, htype, hout⟩
    cases type with
    | str =>
      simp only [Context.toInt, Context.readInt, Emission.outcome_bind_eq_ok, hr _] at hout
      obtain ⟨cr, hcr, hout⟩ := hout
      split at hout
      · next hten =>
        cases hout
        rw [isDefaultRadix_iff.1 hten]
        exact .parsed htype (Or.inr rfl) hcr
      · next hradix =>
        simp only [Emission.outcome_bind_eq_ok, ha _] at hout
        obtain ⟨ca, hca, hout⟩ := hout
        cases hout
        exact .parsedInRadix htype (Bool.eq_false_iff.2 hradix) hcr hca
    | _ => exact absurd hout Emission.outcome_refuse_ne_ok
  · intro hc
    cases hc with
    | parsed htype hten hcr =>
      rcases hten with hten | hten
      · cases hten
      · cases hten
        refine ⟨_, htype, ?_⟩
        simp only [Context.toInt, Context.readInt, Expr.isDefaultRadix, beq_self_eq_true, if_true, Emission.outcome_bind_eq_ok,
          hr _]
        exact ⟨_, hcr, rfl⟩
    | parsedInRadix htype hradix hcr hca =>
      refine ⟨_, htype, ?_⟩
      simp only [Context.toInt, Context.readInt, hradix, Bool.false_eq_true, if_false, Emission.outcome_bind_eq_ok, hr _, ha _]
      exact ⟨_, hcr, _, hca, rfl⟩

/-- The rules for method calls have as many arguments as the methods take. -/
theorem Lowers.accepts {m : Method} {args : List Expr} {c : Cpp.Expr} (h : Lowers Γ (.method r m args) c) :
    m.accepts args.length = true := by
  cases h with
  | textLength hm | arraySize hm | extremeItem hm | extremeByte hm => rcases hm with rfl | rfl <;> rfl
  | intText _ hten | parsed _ hten => rcases hten with rfl | rfl <;> rfl
  | _ => rfl

/-- The rules agree with lowering on method calls, one method after another. -/
theorem described_method (m : Method) (hr : Described Γ r) (hargs : ∀ x ∈ es, Described Γ x) : Described Γ (.method r m es) := by
  intro c
  change (Γ.methodCall ⟨r, r.lower Γ⟩ m (Expr.lowerAll Γ es)).outcome = .ok c ↔ _
  cases hacc : m.accepts es.length with
  | false =>
    constructor
    · intro h
      have hlen := accepts_of_outcome_methodCall h
      rw [Expr.lowerAll_eq_map, List.length_map, hacc] at hlen
      cases hlen
    · intro h
      rw [h.accepts] at hacc
      cases hacc
  | true =>
    match es, hacc with
    | [], hacc =>
      cases m with
      | length => exact outcome_typeOf_bind_eq_ok.trans (outcome_length_iff (Or.inl rfl) hr)
      | size => exact outcome_typeOf_bind_eq_ok.trans (outcome_length_iff (Or.inr rfl) hr)
      | first => exact outcome_typeOf_bind_eq_ok.trans (outcome_first_iff hr)
      | last => exact outcome_typeOf_bind_eq_ok.trans (outcome_last_iff hr)
      | min => exact outcome_typeOf_bind_eq_ok.trans (outcome_extreme_iff (Or.inl rfl) hr)
      | max => exact outcome_typeOf_bind_eq_ok.trans (outcome_extreme_iff (Or.inr rfl) hr)
      | reverse => exact outcome_typeOf_bind_eq_ok.trans (outcome_reverse_iff hr)
      | toStr => exact outcome_typeOf_bind_eq_ok.trans (outcome_toStr_iff hr)
      | toInt => exact outcome_typeOf_bind_eq_ok.trans (outcome_toInt_iff hr)
      | substring => cases hacc
    | [a], hacc =>
      cases m with
      | toStr => exact outcome_typeOf_bind_eq_ok.trans (outcome_toStr_arg_iff hr)
      | toInt => exact outcome_typeOf_bind_eq_ok.trans (outcome_toInt_arg_iff hr (hargs a List.mem_cons_self))
      | _ => cases hacc
    | [a, b], hacc =>
      cases m with
      | substring =>
        exact outcome_typeOf_bind_eq_ok.trans (outcome_substring_iff hr (hargs a (by simp)) (hargs b (by simp)))
      | _ => cases hacc
    | _ :: _ :: _ :: es, hacc =>
      simp only [Method.accepts, List.length_cons, decide_eq_true_eq] at hacc
      cases m <;> simp [Method.maxArgs] at hacc

end

/-- Lowering gives exactly what the rules give. -/
theorem outcome_lower_iff (Γ : Context) (e : Expr) (c : Cpp.Expr) : (e.lower Γ).outcome = .ok c ↔ Lowers Γ e c := by
  suffices h : Described Γ e from h c
  clear c
  induction e with
  | int n => exact fun c => ⟨fun h => by cases h; exact .int n, fun h => by cases h; rfl⟩
  | float x => exact described_float x
  | bool b => exact fun c => ⟨fun h => by cases h; exact .bool b, fun h => by cases h; rfl⟩
  | str s => exact fun c => ⟨fun h => by cases h; exact .str s, fun h => by cases h; rfl⟩
  | bytes bs => exact fun c => ⟨fun h => by cases h; exact .bytes bs, fun h => by cases h; rfl⟩
  | array items ih => exact described_array ih
  | name n => exact fun c => ⟨fun h => by cases h; exact .name n, fun h => by cases h; rfl⟩
  | member v a ih => exact described_member a ih
  | subscript v i ihv ihi => exact described_subscript ihv ihi
  | binary op l r ihl ihr => exact described_binary op ihl ihr
  | unary op e ih => exact described_unary op ih
  | conditional c t f ihc iht ihf => exact described_conditional ihc iht ihf
  | cast v t ih => exact described_cast t ih
  | enumLabel d l => exact described_enumLabel d l
  | enumById d e ih => exact described_enumById d ih
  | method r m args ihr ihargs => exact described_method m ihr ihargs

/-- The rules give at most one C++ expression. -/
theorem Lowers.iff_eq {Γ : Context} {e : Expr} {c : Cpp.Expr} (h : Lowers Γ e c) (c' : Cpp.Expr) : Lowers Γ e c' ↔ c' = c := by
  rw [← outcome_lower_iff, (outcome_lower_iff Γ e c).2 h, Except.ok.injEq, eq_comm]

/-- What is emitted is the text of a C++ expression that the rules give. -/
theorem emit_ok_iff_lowers {Γ : Context} {e : Expr} {text : String} :
    (e.emit Γ).outcome = .ok text ↔ ∃ c, Lowers Γ e c ∧ c.render = text := by
  simp only [Expr.emit, Emission.outcome_map_eq_ok, outcome_lower_iff]

/-- What is emitted is the text of the one C++ expression that the rules give. -/
theorem exists_lowers_of_emit {Γ : Context} {e : Expr} {text : String} (h : (e.emit Γ).outcome = .ok text) :
    ∃ c, (∀ c', Lowers Γ e c' ↔ c' = c) ∧ c.render = text := by
  obtain ⟨c, hc, rfl⟩ := emit_ok_iff_lowers.1 h
  exact ⟨c, hc.iff_eq, rfl⟩

/-! ## Lists of expressions -/

/-- What a relation implies of the items of the first list holds of the pairs of two related lists. -/
theorem forall₂_of_forall_mem {α β : Type} {R S : α → β → Prop} {xs : List α} {ys : List β} (h : List.Forall₂ R xs ys)
    (hRS : ∀ x ∈ xs, ∀ y, R x y → S x y) : List.Forall₂ S xs ys :=
  ((List.forall₂_and_left xs ys).2 ⟨hRS, h⟩).imp fun _ _ hxy => hxy.1 _ hxy.2

/-- Every lowered item comes from an item. -/
theorem exists_lowers_of_mem {Γ : Context} {items : List Expr} {cs : List Cpp.Expr} {c : Cpp.Expr}
    (h : List.Forall₂ (Lowers Γ) items cs) (hc : c ∈ cs) : ∃ a ∈ items, Lowers Γ a c := by
  induction h with
  | nil => cases hc
  | @cons a x items cs hax _ ih =>
    rcases List.mem_cons.1 hc with rfl | hc
    · exact ⟨a, List.mem_cons_self, hax⟩
    · obtain ⟨b, hb, hbc⟩ := ih hc
      exact ⟨b, List.mem_cons_of_mem a hb, hbc⟩

/-- Every item has a lowered one. -/
theorem exists_lowers_of_mem_left {Γ : Context} {items : List Expr} {cs : List Cpp.Expr} {x : Expr}
    (h : List.Forall₂ (Lowers Γ) items cs) (hx : x ∈ items) : ∃ c ∈ cs, Lowers Γ x c := by
  induction h with
  | nil => cases hx
  | @cons a d items cs had _ ih =>
    rcases List.mem_cons.1 hx with rfl | hx
    · exact ⟨d, List.mem_cons_self, had⟩
    · obtain ⟨c, hc, hxc⟩ := ih hx
      exact ⟨c, List.mem_cons_of_mem d hc, hxc⟩

end ExprToCpp
