import ExprToCpp.Proofs.Effect
import ExprToCpp.Proofs.Registration

/-!
# Which expressions are accepted

Whether an expression has a C++ text is a matter of its nodes alone: each makes a demand on the types of its direct parts
(`Context.admits`), and the expression is accepted if every node in it has what it demands. A refusal names a demand that some
node lacks (`Context.Fault`). Main statement: `emitted_ok_iff`.
-/

namespace ExprToCpp

/-! ## What a node demands -/

/-- Whether a method is defined on a receiver of a type with the arguments given. -/
def Method.fits (m : Method) (type : ValueType) (args : List Expr) : Bool :=
  match m with
  | .length | .size | .first | .last => type.isTextual || type.isArray
  | .min | .max => type.isArray || type = .bytes
  | .substring | .reverse => type = .str
  | .toStr =>
    match type, args with
    | .int _, [] | .bytes, [.str _] | .str, [] => true
    | .int _, [radix] => Expr.isDefaultRadix radix
    | _, _ => false
  | .toInt =>
    match type, args with
    | .str, _ | .bool, [] | .float _, [] | .enum _, [] | .int _, [] => true
    | _, _ => false

namespace Context

/-- Whether a node has what it demands of its own type or of the types of its direct parts. -/
def admits (Γ : Context) : Expr → Bool
  | .array items => (Γ.types.typeOf (.array items)).any ValueType.isArray && Γ.config.ownership ≠ .shared
  | .subscript v _ => (Γ.types.typeOf v).any fun t => t.isArray || t = .bytes
  | .binary op l r =>
    if op = .mod then (Γ.types.typeOf l).isSome && (Γ.types.typeOf r).isSome
    else if op.isOrdering then (Γ.types.typeOf l).any fun t => !t.isTextual || (Γ.types.typeOf r).isSome
    else true
  | .method r m args => m.accepts args.length && (Γ.types.typeOf r).any fun t => m.fits t args
  | _ => true

/-- The expressions whose types a node cannot do without. -/
def asked (Γ : Context) : Expr → List Expr
  | .array items => [.array items]
  | .subscript v _ => [v]
  | .binary op l r =>
    if op = .mod then [l, r]
    else if op.isOrdering then if (Γ.types.typeOf l).any ValueType.isTextual then [l, r] else [l]
    else []
  | .method r _ _ => [r]
  | _ => []

/-- The method that a refusal names: both names of a length are reported as one. -/
def reported : Method → Method
  | .size => .length
  | m => m

/-- A node lacks what it demands, and a refusal says so. -/
inductive Fault (Γ : Context) : Expr → Refusal → Prop where
  /-- A type that the node cannot do without is not known. -/
  | untyped {e x : Expr} : x ∈ Γ.asked e → Γ.types.typeOf x = none → Fault Γ e (.untyped x.describe)
  | notArray {items : List Expr} {t : ValueType} : Γ.types.typeOf (.array items) = some t → t.isArray = false →
      Fault Γ (.array items) (.unfitOperand .arrayLiteral t)
  | notConstructible {items : List Expr} : Γ.config.ownership = .shared →
      Fault Γ (.array items) (.arrayNotConstructible .shared)
  | notSubscriptable {v i : Expr} {t : ValueType} : Γ.types.typeOf v = some t → t.isArray = false → t ≠ .bytes →
      Fault Γ (.subscript v i) (.unfitOperand .subscript t)
  | wrongArity {r : Expr} {m : Method} {args : List Expr} : m.accepts args.length = false →
      Fault Γ (.method r m args) (.wrongArity m args.length)
  /-- The receiver has a type that the method is not defined on, whatever the arguments are. -/
  | unfit {r : Expr} {m : Method} {args : List Expr} {t : ValueType} : Γ.types.typeOf r = some t →
      (∀ args', m.fits t args' = false) → Fault Γ (.method r m args) (.unfitOperand (.method (reported m)) t)
  /-- A string is its own text and takes no argument to become one. -/
  | textWithArgument {r a : Expr} : Γ.types.typeOf r = some .str →
      Fault Γ (.method r .toStr [a]) (.unfitOperand (.method .toStr) .str)
  | radixNotTen {r radix : Expr} {t : IntType} : Γ.types.typeOf r = some (.int t) → radix ≠ .int 10 →
      Fault Γ (.method r .toStr [radix]) (.radixNotTen radix.radixText)
  | encodingNotLiteral {r a : Expr} : Γ.types.typeOf r = some .bytes → (∀ encoding, a ≠ .str encoding) →
      Fault Γ (.method r .toStr [a]) (.encodingNotLiteral a.describe)
  | encodingMissing {r : Expr} : Γ.types.typeOf r = some .bytes → Fault Γ (.method r .toStr []) .encodingMissing
  | radixWithoutString {r a : Expr} {t : ValueType} : Γ.types.typeOf r = some t → t ≠ .str →
      Fault Γ (.method r .toInt [a]) (.radixWithoutString t)

end Context

section

open Emission

variable {Γ : Context} {e : Expr} {r : Refusal}

theorem Emission.outcome_demand_eq_ok {condition : Bool} : (demand condition r).outcome = .ok () ↔ condition = true := by
  cases condition <;> simp

/-- A demand is refused with its own refusal if its condition fails. -/
theorem Emission.outcome_demand_eq_error {condition : Bool} {r' : Refusal} :
    (demand condition r).outcome = .error r' ↔ condition = false ∧ r = r' := by
  cases condition
  · simp [refuse]
  · simp

/-! ## Passing is being admitted -/

/-- What a conversion to text asks in advance is that receiver and argument fit it. -/
theorem before_toStr_ok_iff {type : ValueType} {args : List Expr} (hlen : args.length ≤ 1) :
    (Method.beforeToStr type args).outcome = .ok () ↔ Method.fits .toStr type args = true := by
  match args, hlen with
  | [], _ => cases type <;> simp [Method.beforeToStr, Method.fits]
  | [a], _ =>
    cases type with
    | int t => simp [Method.beforeToStr, Method.fits, outcome_demand_eq_ok]
    | bytes => cases a <;> simp [Method.beforeToStr, Method.fits]
    | _ => simp [Method.beforeToStr, Method.fits]

/-- What a conversion to an integer asks in advance is the same for it. -/
theorem before_toInt_ok_iff {type : ValueType} {args : List Expr} :
    (Method.beforeToInt type args).outcome = .ok () ↔ Method.fits .toInt type args = true := by
  cases args <;> cases type <;> simp [Method.beforeToInt, Method.fits]

/-- With the number of arguments it takes, a method passes before and after its receiver is written where it is defined. -/
theorem before_after_ok_iff {m : Method} {type : ValueType} {args : List Expr} (hacc : m.accepts args.length = true) :
    (m.before type args).outcome = .ok () ∧ (m.after type).outcome = .ok () ↔ m.fits type args = true := by
  cases m with
  | length | size | first | last | substring | reverse =>
    simp [Method.before, Method.after, Method.fits, outcome_demand_eq_ok]
  | min | max => cases h : type.isArray <;> simp [Method.before, Method.after, Method.fits, outcome_demand_eq_ok, h]
  | toStr =>
    have hlen : args.length ≤ 1 := (of_decide_eq_true hacc).2
    rw [← before_toStr_ok_iff hlen]
    simp [Method.before, Method.after]
  | toInt =>
    rw [← before_toInt_ok_iff]
    simp [Method.before, Method.after]

/-- A binary operator asks for types only, and only where its form depends on them. -/
theorem enter_binary_ok_iff {op : BinaryOp} {l r : Expr} :
    (Γ.enter (.binary op l r)).outcome = .ok () ↔ Γ.admits (.binary op l r) = true := by
  simp only [Context.enter, Context.admits]
  split
  · cases hl : Γ.types.typeOf l <;> cases hr : Γ.types.typeOf r <;> simp [hl, hr]
    split <;> rfl
  · split
    · cases hl : Γ.types.typeOf l with
      | none => simp [hl]
      | some a => cases ha : a.isTextual <;> cases hr : Γ.types.typeOf r <;> simp [hl, hr, ha]
    · simp

/-- A node passes if it has what it demands. -/
theorem passes_iff_admits : Γ.Passes e ↔ Γ.admits e = true := by
  have hpasses : Γ.Passes e ↔ (Γ.enter e).outcome = .ok () ∧ (Γ.leave e).outcome = .ok () :=
    ⟨fun h => ⟨h.enter, h.leave⟩, fun h => ⟨h.1, h.2⟩⟩
  rw [hpasses]
  cases e with
  | float x => cases h : x.isFinite <;> simp [Context.enter, Context.leave, Context.admits, h]
  | array items =>
    have hleave : (Γ.leave (.array items)).outcome = .ok () ↔ Γ.config.ownership ≠ .shared := by
      rw [Context.leave, outcome_bind_unit_eq_ok, outcome_demand_eq_ok, decide_eq_true_iff]
      exact and_iff_left rfl
    rw [hleave]
    cases h : Γ.types.typeOf (.array items) <;> simp [Context.enter, Context.admits, outcome_demand_eq_ok, h]
  | subscript v i =>
    cases h : Γ.types.typeOf v <;> simp [Context.enter, Context.leave, Context.admits, outcome_demand_eq_ok, h]
  | binary op l r => exact (and_iff_left rfl).trans enter_binary_ok_iff
  | enumLabel d l | enumById d v => simp [Context.enter, Context.leave, Context.admits, outcome_needEnum]
  | method r m args =>
    simp only [Context.enter, Context.leave, Context.admits]
    cases hacc : m.accepts args.length with
    | false => simp
    | true =>
      cases h : Γ.types.typeOf r with
      | none => simp [h]
      | some type => simpa [h] using before_after_ok_iff hacc
  | _ => simp [Context.enter, Context.leave, Context.admits]

/-! ## Refusals name what is missing -/

/-- An ordering that lacks a type it cannot do without is not admitted. -/
theorem not_admits_of_asked_ordering {op : BinaryOp} {l x y : Expr} (hmod : op ≠ .mod) (hop : op.isOrdering = true)
    (hy : y ∈ Γ.asked (.binary op l x)) (hnone : Γ.types.typeOf y = none) : Γ.admits (.binary op l x) = false := by
  simp only [Context.asked, Context.admits, if_neg hmod, if_pos hop] at hy ⊢
  cases hl : Γ.types.typeOf l with
  | none => rfl
  | some a =>
    have hly : l ≠ y := by
      rintro rfl
      rw [hl] at hnone
      cases hnone
    cases ha : a.isTextual with
    | false => simp [hl, ha, hly.symm] at hy
    | true =>
      obtain rfl : y = x := by simpa [hl, ha, hly.symm] using hy
      simp [ha, hnone]

/-- A node that lacks a type it cannot do without is not admitted. -/
theorem not_admits_of_asked {x : Expr} (hx : x ∈ Γ.asked e) (hnone : Γ.types.typeOf x = none) : Γ.admits e = false := by
  cases e with
  | array items | subscript v i | method r m args =>
    obtain rfl := List.mem_singleton.1 hx
    simp [Context.admits, hnone]
  | binary op l y =>
    by_cases hmod : op = .mod
    · simp only [Context.asked, if_pos hmod] at hx
      rcases List.mem_pair.1 hx with rfl | rfl <;> simp [Context.admits, hmod, hnone]
    · cases hop : op.isOrdering with
      | true => exact not_admits_of_asked_ordering hmod hop hx hnone
      | false => simp [Context.asked, hmod, hop] at hx
  | _ => cases hx

/-- An expression with a fault is not admitted. -/
theorem Context.Fault.not_admits (h : Γ.Fault e r) : Γ.admits e = false := by
  cases h with
  | untyped hx hnone => exact not_admits_of_asked hx hnone
  | notArray ht harray => simp [Context.admits, ht, harray]
  | notConstructible hshared => simp [Context.admits, hshared]
  | notSubscriptable ht harray hbytes => simp [Context.admits, ht, harray, hbytes]
  | wrongArity hacc => simp [Context.admits, hacc]
  | unfit ht hfits => simp [Context.admits, ht, hfits]
  | textWithArgument ht => simp [Context.admits, ht, Method.fits]
  | @radixNotTen _ radix _ ht hradix =>
    have hten : Expr.isDefaultRadix radix = false := Bool.eq_false_iff.2 fun h => hradix (isDefaultRadix_iff.1 h)
    simp [Context.admits, ht, Method.fits, hten]
  | @encodingNotLiteral _ a ht hstr =>
    cases a with
    | str encoding => exact absurd rfl (hstr encoding)
    | _ => simp [Context.admits, ht, Method.fits]
  | encodingMissing ht => simp [Context.admits, ht, Method.fits]
  | @radixWithoutString _ _ t ht hstr =>
    cases t with
    | str => exact absurd rfl hstr
    | _ => simp [Context.admits, ht, Method.fits]

/-- A type is refused because it is not known. -/
theorem fault_of_typeOf {x : Expr} (hx : x ∈ Γ.asked e) (h : (Γ.typeOf x).outcome = .error r) : Γ.Fault e r := by
  cases hx' : Γ.types.typeOf x with
  | none =>
    rw [Context.typeOf_of_none hx'] at h
    cases h
    exact .untyped hx hx'
  | some t =>
    rw [Context.typeOf_of_some hx'] at h
    cases h

/-- A binary operator is refused because an operand has no type. -/
theorem fault_of_enter_binary {op : BinaryOp} {l x : Expr} (h : (Γ.enter (.binary op l x)).outcome = .error r) :
    Γ.Fault (.binary op l x) r := by
  simp only [Context.enter] at h
  split at h
  · next hmod =>
    rcases outcome_bind_eq_error.1 h with h | ⟨a, -, h⟩
    · exact fault_of_typeOf (by simp [Context.asked, hmod]) h
    · rcases outcome_bind_eq_error.1 h with h | ⟨b, -, h⟩
      · exact fault_of_typeOf (by simp [Context.asked, hmod]) h
      · split at h <;> cases h
  · next hmod =>
    split at h
    · next hop =>
      rcases outcome_bind_eq_error.1 h with h | ⟨a, ha, h⟩
      · refine fault_of_typeOf ?_ h
        simp only [Context.asked, hmod, hop, if_true, if_false]
        split <;> simp
      · rw [Context.outcome_typeOf_eq_ok] at ha
        split at h
        · next htext => exact fault_of_typeOf (by simp [Context.asked, hmod, hop, ha, htext]) (outcome_effect_eq_error.1 h)
        · cases h
    · cases h

/-- A conversion to text is refused for its receiver, its encoding or its radix. -/
theorem fault_of_beforeToStr {receiver : Expr} {type : ValueType} {args : List Expr} (ht : Γ.types.typeOf receiver = some type)
    (hlen : args.length ≤ 1) (h : (Method.beforeToStr type args).outcome = .error r) : Γ.Fault (.method receiver .toStr args) r := by
  match args, hlen with
  | [], _ =>
    cases type with
    | int t | str => cases h
    | bytes =>
      cases h
      exact .encodingMissing ht
    | _ =>
      cases h
      exact .unfit ht fun _ => rfl
  | [a], _ =>
    cases type with
    | int t =>
      obtain ⟨hten, rfl⟩ := outcome_demand_eq_error.1 h
      refine .radixNotTen ht fun hradix => ?_
      rw [isDefaultRadix_iff.2 hradix] at hten
      cases hten
    | bytes =>
      cases a with
      | str encoding => cases h
      | _ =>
        cases h
        exact .encodingNotLiteral ht nofun
    | str =>
      cases h
      exact .textWithArgument ht
    | _ =>
      cases h
      exact .unfit ht fun _ => rfl

/-- A conversion to an integer is refused for its receiver, or for a radix without a string. -/
theorem fault_of_beforeToInt {receiver : Expr} {type : ValueType} {args : List Expr} (ht : Γ.types.typeOf receiver = some type)
    (hlen : args.length ≤ 1) (h : (Method.beforeToInt type args).outcome = .error r) : Γ.Fault (.method receiver .toInt args) r := by
  match args, hlen with
  | [], _ =>
    cases type with
    | str | bool | float p | enum d | int t => cases h
    | _ =>
      cases h
      exact .unfit ht fun _ => rfl
  | [a], _ =>
    cases type with
    | str => cases h
    | _ =>
      cases h
      exact .radixWithoutString ht nofun

/-- What a method asks in advance is refused for a fault of the call. -/
theorem fault_of_before {receiver : Expr} {m : Method} {type : ValueType} {args : List Expr}
    (ht : Γ.types.typeOf receiver = some type) (hacc : m.accepts args.length = true)
    (h : (m.before type args).outcome = .error r) : Γ.Fault (.method receiver m args) r := by
  cases m with
  | length | size | first | last => cases h
  | min | max | substring | reverse =>
    obtain ⟨hfits, rfl⟩ := outcome_demand_eq_error.1 h
    exact .unfit ht fun _ => hfits
  | toStr => exact fault_of_beforeToStr ht (of_decide_eq_true hacc).2 h
  | toInt => exact fault_of_beforeToInt ht (of_decide_eq_true hacc).2 h

/-- What it asks once the receiver is written is refused for a receiver that does not fit. -/
theorem fault_of_after {receiver : Expr} {m : Method} {type : ValueType} (args : List Expr)
    (ht : Γ.types.typeOf receiver = some type) (h : (m.after type).outcome = .error r) :
    Γ.Fault (.method receiver m args) r := by
  cases m with
  | length | size | first | last =>
    obtain ⟨hfits, rfl⟩ := outcome_demand_eq_error.1 h
    exact .unfit ht fun _ => hfits
  | min | max =>
    simp only [Method.after] at h
    split at h <;> cases h
  | substring | reverse | toStr | toInt => cases h

/-- A refusal before the parts of an expression are lowered is for a fault of it. -/
theorem fault_of_enter (h : (Γ.enter e).outcome = .error r) : Γ.Fault e r := by
  cases e with
  | float x =>
    simp only [Context.enter] at h
    split at h <;> cases h
  | array items =>
    rcases outcome_bind_eq_error.1 h with h | ⟨type, ht, h⟩
    · exact fault_of_typeOf (by simp [Context.asked]) h
    · obtain ⟨harray, rfl⟩ := outcome_demand_eq_error.1 h
      exact .notArray (Context.outcome_typeOf_eq_ok.1 ht) harray
  | subscript v i => exact fault_of_typeOf (by simp [Context.asked]) (outcome_effect_eq_error.1 h)
  | binary op l x => exact fault_of_enter_binary h
  | enumLabel d l | enumById d v =>
    rw [Context.enter, outcome_needEnum] at h
    cases h
  | method receiver m args =>
    simp only [Context.enter] at h
    split at h
    · next hacc =>
      rcases outcome_bind_eq_error.1 h with h | ⟨type, ht, h⟩
      · exact fault_of_typeOf (by simp [Context.asked]) h
      · exact fault_of_before (Context.outcome_typeOf_eq_ok.1 ht) hacc h
    · next hacc =>
      cases h
      exact .wrongArity (Bool.eq_false_iff.2 hacc)
  | _ => cases h

theorem fault_of_leave (h : (Γ.leave e).outcome = .error r) : Γ.Fault e r := by
  cases e with
  | array items =>
    rcases outcome_bind_eq_error.1 h with h | ⟨-, -, h⟩
    · obtain ⟨hshared, rfl⟩ := outcome_demand_eq_error.1 h
      have howner : Γ.config.ownership = .shared := by simpa using hshared
      rw [howner]
      exact .notConstructible howner
    · cases h
  | subscript v i =>
    rcases outcome_bind_eq_error.1 h with h | ⟨type, ht, h⟩
    · exact fault_of_typeOf (by simp [Context.asked]) h
    · obtain ⟨hunfit, rfl⟩ := outcome_demand_eq_error.1 h
      rw [Bool.or_eq_false_iff, decide_eq_false_iff_not] at hunfit
      exact .notSubscriptable (Context.outcome_typeOf_eq_ok.1 ht) hunfit.1 hunfit.2
  | method receiver m args =>
    rcases outcome_bind_eq_error.1 h with h | ⟨type, ht, h⟩
    · exact fault_of_typeOf (by simp [Context.asked]) h
    · exact fault_of_after args (Context.outcome_typeOf_eq_ok.1 ht) h
  | _ => cases h

end

/-! ## Sessions -/

/-- In every session an expression is emitted if and only if each of its parts has what it demands. If it is refused, the refusal
names what some part lacks; that arrays cannot be constructed is said only where all pointers are shared, and that a radix is not
ten only of an integer that is to become text. -/
theorem Session.emitted_ok_iff (s : Session) (e : Expr) :
    ((∃ text, (s.step (.emit e)).2 = .emitted (.ok text)) ↔ ∀ x, x.IsPartOf e → s.context.admits x = true) ∧
    ∀ r, (s.step (.emit e)).2 = .emitted (.error r) →
      (∃ x, x.IsPartOf e ∧ s.context.admits x = false ∧ s.context.Fault x r) ∧
      (∀ o, r = .arrayNotConstructible o → s.context.config.ownership = .shared) ∧
      (∀ text, r = .radixNotTen text → ∃ receiver radix t, (Expr.method receiver .toStr [radix]).IsPartOf e ∧
        s.context.types.typeOf receiver = some (.int t) ∧ radix ≠ .int 10 ∧ text = Expr.radixText radix) := by
  simp only [snd_step_emit_iff, exists_emit_ok_iff, emit_error_iff]
  refine ⟨?_, fun r hr => ?_⟩
  · rw [accepts_iff_forall_passes]
    exact forall₂_congr fun x _ => passes_iff_admits
  · -- the first part that ends in a refusal is at fault, whatever stands around it
    obtain ⟨x, hx, hrefused⟩ := exists_part_of_refused hr
    have hfault : s.context.Fault x r := hrefused.elim fault_of_enter fault_of_leave
    refine ⟨⟨x, hx, hfault.not_admits, hfault⟩, ?_, ?_⟩
    · rintro o rfl
      cases hfault with
      | notConstructible hshared => exact hshared
    · rintro text rfl
      cases hfault with
      | radixNotTen ht hradix => exact ⟨_, _, _, hx, ht, hradix, rfl⟩

end ExprToCpp
