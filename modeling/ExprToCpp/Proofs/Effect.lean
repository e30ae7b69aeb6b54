import ExprToCpp.Proofs.ExprParts

/-!
# The effect of lowering

What lowering an expression does apart from its value: the types it asks for, the headers it needs, and the refusal it may end in.
No rule looks into the C++ of a part, so at every node this is what the node does before its parts are written (`enter`), the
effects of the parts from left to right, and what it does after them (`leave`): `effect_lower`. Parts that are read and never
written are no exception, since those that pass are literals without an effect. What a whole expression asks, needs and refuses
follows from what its nodes do.
-/

namespace ExprToCpp

/-! ## Effects -/

namespace Emission

variable {α β : Type}

/-- An emission without its value: its needs, and its refusal if it ends in one. -/
def effect (x : Emission α) : Emission Unit := (fun _ => ()) <$> x

@[simp] theorem needs_effect (x : Emission α) : x.effect.needs = x.needs := by
  obtain ⟨n, o⟩ := x
  cases o <;> simp [effect, Functor.map, andThen, ok]

/-- The effect succeeds if the emission does. -/
@[simp] theorem outcome_effect_eq_ok {x : Emission α} {u : Unit} : x.effect.outcome = .ok u ↔ ∃ a, x.outcome = .ok a := by
  simp [effect]

/-- Two steps in a row are refused by the first one, or by the second one with the value of the first. -/
theorem outcome_bind_eq_error {x : Emission α} {f : α → Emission β} {r : Refusal} :
    (x >>= f).outcome = .error r ↔ x.outcome = .error r ∨ ∃ a, x.outcome = .ok a ∧ (f a).outcome = .error r := by
  rw [outcome_bind]
  cases x.outcome with
  | error r => simp [bind, Except.bind]
  | ok a => simp [bind, Except.bind]

/-- The effect is refused as the emission is. -/
@[simp] theorem outcome_effect_eq_error {x : Emission α} {r : Refusal} :
    x.effect.outcome = .error r ↔ x.outcome = .error r := by
  rw [effect, ← bind_pure_comp, outcome_bind_eq_error]
  simp

@[simp] theorem effect_pure (a : α) : (pure a : Emission α).effect = pure () := rfl

@[simp] theorem effect_refuse (r : Refusal) : (refuse r : Emission α).effect = refuse r := rfl

@[simp] theorem refuse_bind (r : Refusal) (f : α → Emission β) : refuse r >>= f = refuse r := rfl

@[simp] theorem effect_of_unit (x : Emission Unit) : x.effect = x := id_map x

/-- The value of what comes last is dropped. -/
@[simp] theorem effect_bind (x : Emission α) (f : α → Emission β) : (x >>= f).effect = x >>= fun a => (f a).effect :=
  map_bind _ _ _

/-- A function applied to the value has no effect of its own. -/
@[simp] theorem effect_map (f : α → β) (x : Emission α) : (f <$> x).effect = x.effect := by
  simp [effect]

/-- Before something that does not look at the value, an effect stands for its emission. -/
@[simp] theorem effect_bind_const (x : Emission α) (f : Unit → Emission β) : x.effect >>= f = x >>= fun _ => f () :=
  bind_map_left _ _ _

/-- Refuses unless a condition holds. -/
def demand (condition : Bool) (r : Refusal) : Emission Unit := if condition then pure () else refuse r

@[simp] theorem demand_true (r : Refusal) : demand true r = pure () := rfl

@[simp] theorem demand_false (r : Refusal) : demand false r = refuse r := rfl

/-- Effects one after another. -/
def inTurn : List (Emission Unit) → Emission Unit
  | [] => pure ()
  | x :: xs => do
    x
    inTurn xs

/-- The effect of a list is that of its items in turn. -/
theorem effect_sequence (xs : List (Emission α)) : (sequence xs).effect = inTurn (xs.map effect) := by
  induction xs with
  | nil => rfl
  | cons x xs ih =>
    rw [sequence, List.map_cons, inTurn, ← ih]
    simp [effect]

/-- Dropping the value is the effect. -/
@[simp] theorem map_unit (x : Emission α) : (fun _ => ()) <$> x = x.effect := rfl

end Emission

/-! ## What a node does -/

namespace ValueType

def isArray : ValueType → Bool
  | .array _ => true
  | _ => false

def isFloat : ValueType → Bool
  | .float _ => true
  | _ => false

end ValueType

namespace Method

open Emission

/-- What `toStr` asks before its receiver is written: a radix is ten, an encoding is a literal. -/
def beforeToStr : ValueType → List Expr → Emission Unit
  | .int _, radix :: _ => demand (Expr.isDefaultRadix radix) (.radixNotTen (Expr.radixText radix))
  | .int _, [] | .bytes, .str _ :: _ | .str, [] => pure ()
  | .bytes, e :: _ => refuse (.encodingNotLiteral e.describe)
  | .bytes, [] => refuse .encodingMissing
  | type, _ => refuse (.unfitOperand (.method .toStr) type)

/-- What `toInt` asks before its receiver is written: only a string has a radix. -/
def beforeToInt : ValueType → List Expr → Emission Unit
  | .str, _ | .bool, [] | .float _, [] | .enum _, [] | .int _, [] => pure ()
  | type, _ :: _ => refuse (.radixWithoutString type)
  | type, [] => refuse (.unfitOperand (.method .toInt) type)

/-- What a method asks of the type of its receiver and of its arguments before the receiver is written. -/
def before (m : Method) (type : ValueType) (args : List Expr) : Emission Unit :=
  match m with
  | .length | .size | .first | .last => pure ()
  | .min | .max => demand (type.isArray || type = .bytes) (.unfitOperand (.method m) type)
  | .substring | .reverse => demand (type = .str) (.unfitOperand (.method m) type)
  | .toStr => beforeToStr type args
  | .toInt => beforeToInt type args

/-- What a method asks and needs after its receiver and its arguments are written. -/
def after (m : Method) (type : ValueType) : Emission Unit :=
  match m with
  | .length | .size => demand (type.isTextual || type.isArray) (.unfitOperand (.method .length) type)
  | .first | .last => demand (type.isTextual || type.isArray) (.unfitOperand (.method m) type)
  | .min | .max => if type.isArray then need .algorithm else pure ()
  | .substring | .reverse | .toStr | .toInt => pure ()

/-- What a method does around the writing of its receiver and its arguments. -/
def around (m : Method) (type : ValueType) (args : List Expr) (written : Emission Unit) : Emission Unit := do
  m.before type args
  written
  m.after type

end Method

namespace Context

open Emission

/-- What a node asks and needs before its parts are written. -/
def enter (Γ : Context) : Expr → Emission Unit
  | .float x => if x.isFinite then pure () else need .limits
  | .array items => do
    let type ← Γ.typeOf (.array items)
    demand type.isArray (.unfitOperand .arrayLiteral type)
  | .subscript v _ => (Γ.typeOf v).effect
  | .binary op l r =>
    if op = .mod then do
      let a ← Γ.typeOf l
      let b ← Γ.typeOf r
      if a.isFloat || b.isFloat then need .math else pure ()
    else if op.isOrdering then do
      let a ← Γ.typeOf l
      if a.isTextual then (Γ.typeOf r).effect else pure ()
    else pure ()
  | .enumLabel d _ | .enumById d _ => Γ.needEnum d
  | .method r m args =>
    if m.accepts args.length then do
      let type ← Γ.typeOf r
      m.before type args
    else refuse (.wrongArity m args.length)
  | _ => pure ()

/-- What a node asks and needs after its parts are written. -/
def leave (Γ : Context) : Expr → Emission Unit
  | .array _ => do
    demand (Γ.config.ownership ≠ .shared) (.arrayNotConstructible Γ.config.ownership)
    need .vector
  | .subscript v _ => do
    let type ← Γ.typeOf v
    demand (type.isArray || type = .bytes) (.unfitOperand .subscript type)
  | .method r m _ => do
    let type ← Γ.typeOf r
    m.after type
  | _ => pure ()

/-- A visit to a node: what it does before its parts, their effects from left to right, and what it does after them. -/
def visit (Γ : Context) (e : Expr) : Emission Unit := do
  Γ.enter e
  inTurn (e.children.map fun x => (x.lower Γ).effect)
  Γ.leave e

/-- Asking for a type is an answer or a refusal. -/
theorem typeOf_of_some {Γ : Context} {x : Expr} {type : ValueType} (h : Γ.types.typeOf x = some type) :
    Γ.typeOf x = pure type := by
  rw [typeOf, h]

/-- An expression without a type is refused with its description. -/
theorem typeOf_of_none {Γ : Context} {x : Expr} (h : Γ.types.typeOf x = none) :
    Γ.typeOf x = refuse (.untyped x.describe) := by
  rw [typeOf, h]

end Context

/-! ## Lowering visits its nodes -/

section

open Emission

variable {Γ : Context}

theorem effect_lower_float (x : Binary64) : ((Expr.float x).lower Γ).effect = Γ.visit (.float x) := by
  change (Context.float x).effect = _
  cases h : x.isFinite <;> simp [Context.float, Context.visit, Context.enter, Context.leave, inTurn, h]

/-- An array can be made unless it would have to be shared. -/
theorem effect_makeArray (o : Ownership) (vector : Cpp.Ty) (items : List Cpp.Expr) :
    (ofExcept (o.makeArray vector items)).effect = demand (o ≠ .shared) (.arrayNotConstructible o) := by
  cases o <;> rfl

/-- An array literal asks for its type, visits its items, and asks whether it can be made. -/
theorem effect_lower_array (items : List Expr) : ((Expr.array items).lower Γ).effect = Γ.visit (.array items) := by
  change (Γ.array (.array items) (Expr.lowerAll Γ items)).effect = _
  have hitems : (Emission.sequence ((Expr.lowerAll Γ items).map (·.cpp))).effect = inTurn (items.map fun x => (x.lower Γ).effect) := by
    rw [effect_sequence, Expr.lowerAll_eq_map, List.map_map, List.map_map]
    rfl
  rw [Context.array, effect_bind, Context.visit, Context.enter, bind_assoc]
  congr 1
  funext type
  cases type with
  | array element =>
    simp only [effect_bind, effect_pure, demand_true, ValueType.isArray, Expr.children, ← hitems, effect_bind_const, pure_bind,
      Context.leave]
    congr 1
    funext cs
    rw [← effect_makeArray _ (.vector (Γ.config.ownership.cppType element)) cs, effect_bind_const]
    simp
  | _ => simp [ValueType.isArray]

/-- A subscript asks for the type of the left side, visits both sides, and then asks whether the type has items. -/
theorem effect_lower_subscript (v i : Expr) : ((Expr.subscript v i).lower Γ).effect = Γ.visit (.subscript v i) := by
  change (Γ.subscript ⟨v, v.lower Γ⟩ ⟨i, i.lower Γ⟩).effect = _
  unfold Context.subscript Context.visit
  cases htype : Γ.types.typeOf v with
  | none => simp [Context.enter, Context.typeOf_of_none htype]
  | some type =>
    simp only [Context.enter, Context.leave, Context.typeOf_of_some htype]
    cases type <;> simp [inTurn, ValueType.isArray]

/-- A call on two operands visits them in order. -/
theorem effect_callOnBoth (f : Cpp.Expr) (x y : Operand) :
    (Context.callOnBoth f x y).effect = inTurn [x.cpp.effect, y.cpp.effect] := by
  simp [Context.callOnBoth, inTurn]

theorem effect_plainBinary (op : BinaryOp) (x y : Operand) :
    (Context.plainBinary op x y).effect = inTurn [x.cpp.effect, y.cpp.effect] := by
  simp [Context.plainBinary, inTurn]

/-- A remainder asks for the types of both operands first, and for a header where one is a float. -/
theorem effect_remainder (x y : Operand) : (Γ.remainder x y).effect =
    Γ.enter (.binary .mod x.expr y.expr) >>= fun _ => inTurn [x.cpp.effect, y.cpp.effect] := by
  simp only [Context.remainder, Context.enter, if_true, effect_bind, bind_assoc]
  congr 1
  funext a
  congr 1
  funext b
  cases a <;> cases b <;> simp [ValueType.isFloat, effect_callOnBoth, effect_plainBinary]

/-- Which form orders the operands makes no difference to what is written. -/
theorem effect_ordering {op : BinaryOp} (hop : op.isOrdering = true) (x y : Operand) : (Γ.ordering op x y).effect =
    Γ.enter (.binary op x.expr y.expr) >>= fun _ => inTurn [x.cpp.effect, y.cpp.effect] := by
  have hmod : op ≠ .mod := by rintro rfl; cases hop
  have hasked : (Γ.bothTextual x y).effect = Γ.enter (.binary op x.expr y.expr) := by
    simp only [Context.bothTextual, Context.enter, hmod, hop, if_true, if_false, effect_bind]
    congr 1
    funext a
    split <;> simp
  have hform : ∀ b, ((if b = true then do
      let l ← x.cpp
      let r ← y.cpp
      return .paren (.binary op (.call (.dot l "compare") [r]) (.int 0 .plain))
    else Context.plainBinary op x y) : Emission Cpp.Expr).effect = inTurn [x.cpp.effect, y.cpp.effect] := by
    intro b
    cases b <;> simp [Context.plainBinary, inTurn]
  rw [Context.ordering, effect_bind, ← hasked, effect_bind_const]
  congr 1
  funext b
  exact hform b

/-- Binary operators ask in advance only where their form depends on types. -/
theorem effect_lower_binary (op : BinaryOp) (l r : Expr) :
    ((Expr.binary op l r).lower Γ).effect = Γ.visit (.binary op l r) := by
  change (Γ.binary op ⟨l, l.lower Γ⟩ ⟨r, r.lower Γ⟩).effect = _
  have hvisit : Γ.visit (.binary op l r) =
      Γ.enter (.binary op l r) >>= fun _ => inTurn [(l.lower Γ).effect, (r.lower Γ).effect] := by
    simp [Context.visit, Context.leave]
  rw [hvisit, Context.binary]
  split
  · next hmod => rw [hmod, effect_remainder]
  · next hmod =>
    split
    · next hop => rw [effect_ordering hop]
    · next hop => simp [effect_plainBinary, Context.enter, hmod, hop]

/-- A cast asks for nothing: it visits its operand. -/
theorem effect_lower_cast (v : Expr) (t : ValueType) : ((Expr.cast v t).lower Γ).effect = Γ.visit (.cast v t) := by
  change (Γ.cast ⟨v, v.lower Γ⟩ t).effect = _
  cases t <;> simp [Context.cast, Context.visit, Context.enter, Context.leave, inTurn]

/-! ### Methods -/

/-- The length is refused only after its receiver is visited. -/
theorem effect_length (x : Operand) (type : ValueType) {m : Method} (hm : m = .length ∨ m = .size) :
    (Context.length x type).effect = m.around type [] x.cpp.effect := by
  rcases hm with rfl | rfl <;> cases type <;>
    simp [Context.length, Context.notOn, Method.around, Method.before, Method.after, ValueType.isTextual, ValueType.isArray]

/-- So is the first element. -/
theorem effect_first (x : Operand) (type : ValueType) : (Γ.first x type).effect = Method.around .first type [] x.cpp.effect := by
  cases type <;>
    simp [Context.first, Context.notOn, Method.around, Method.before, Method.after, ValueType.isTextual, ValueType.isArray]

theorem effect_last (x : Operand) (type : ValueType) : (Γ.last x type).effect = Method.around .last type [] x.cpp.effect := by
  cases type <;>
    simp [Context.last, Context.notOn, Method.around, Method.before, Method.after, ValueType.isTextual, ValueType.isArray]

/-- The least and the greatest element are refused before the receiver is visited. -/
theorem effect_extreme (x : Operand) (type : ValueType) {m : Method} (hm : m = .min ∨ m = .max) :
    (Γ.extreme m x type).effect = m.around type [] x.cpp.effect := by
  rcases hm with rfl | rfl <;> cases type <;>
    simp [Context.extreme, Context.notOn, Method.around, Method.before, Method.after, ValueType.isArray]

/-- A substring is refused before its receiver is visited, and visits its offsets once. -/
theorem effect_substring (x start stop : Operand) (type : ValueType) (args : List Expr) :
    (Context.substring x type start stop).effect =
      Method.around .substring type args (inTurn [x.cpp.effect, start.cpp.effect, stop.cpp.effect]) := by
  cases type <;> simp [Context.substring, Context.notOn, Method.around, Method.before, Method.after, inTurn]

/-- Reversing is refused before the receiver is visited. -/
theorem effect_reverse (x : Operand) (type : ValueType) : (Γ.reverse x type).effect = Method.around .reverse type [] x.cpp.effect := by
  cases type <;> simp [Context.reverse, Context.notOn, Method.around, Method.before, Method.after]

/-- Conversion to text without an argument is refused in advance, or visits the receiver. -/
theorem effect_toStr (x : Operand) (type : ValueType) : (Γ.toStr x type none).effect = Method.around .toStr type [] x.cpp.effect := by
  cases type <;> simp [Context.toStr, Context.notOn, Method.around, Method.before, Method.beforeToStr, Method.after]

/-- The argument of `toStr` is not written, and has no effect where it passes. -/
theorem effect_toStr_arg (x : Operand) (a : Expr) (type : ValueType) : (Γ.toStr x type (some ⟨a, a.lower Γ⟩)).effect =
    Method.around .toStr type [a] (inTurn [x.cpp.effect, (a.lower Γ).effect]) := by
  cases type with
  | int t =>
    cases hten : Expr.isDefaultRadix a with
    | true =>
      have hlit : (a.lower Γ).effect = pure () := by
        rw [isDefaultRadix_iff.1 hten]
        rfl
      simp [Context.toStr, Method.around, Method.before, Method.beforeToStr, Method.after, inTurn, hten, hlit]
    | false => simp [Context.toStr, Method.around, Method.before, Method.beforeToStr, hten]
  | bytes =>
    cases a with
    | str encoding =>
      have hlit : ((Expr.str encoding).lower Γ).effect = pure () := rfl
      simp [Context.toStr, Method.around, Method.before, Method.beforeToStr, Method.after, inTurn, hlit]
    | _ => simp [Context.toStr, Method.around, Method.before, Method.beforeToStr]
  | _ => simp [Context.toStr, Context.notOn, Method.around, Method.before, Method.beforeToStr]

theorem effect_toInt (x : Operand) (type : ValueType) :
    (Context.toInt x type none).effect = Method.around .toInt type [] x.cpp.effect := by
  cases type <;> simp [Context.toInt, Context.readInt, Context.notOn, Method.around, Method.before, Method.beforeToInt, Method.after]

/-- Conversion to an integer with a radix visits the radix too, after the receiver. -/
theorem effect_toInt_arg (x : Operand) (a : Expr) (type : ValueType) : (Context.toInt x type (some ⟨a, a.lower Γ⟩)).effect =
    Method.around .toInt type [a] (inTurn [x.cpp.effect, (a.lower Γ).effect]) := by
  cases type with
  | str =>
    cases hten : Expr.isDefaultRadix a with
    | true =>
      have hlit : (a.lower Γ).effect = pure () := by
        rw [isDefaultRadix_iff.1 hten]
        rfl
      simp [Context.toInt, Context.readInt, Method.around, Method.before, Method.beforeToInt, Method.after, inTurn, hten, hlit]
    | false => simp [Context.toInt, Context.readInt, Method.around, Method.before, Method.beforeToInt, Method.after, inTurn, hten]
  | _ => simp [Context.toInt, Method.around, Method.before, Method.beforeToInt]

/-- Asking for the type once more, after the parts, is answered as before. -/
theorem visit_method {r : Expr} {m : Method} {args : List Expr} (hacc : m.accepts args.length = true) :
    Γ.visit (.method r m args) = Γ.typeOf r >>= fun type =>
      m.around type args (inTurn ((r :: args).map fun x => (x.lower Γ).effect)) := by
  simp only [Context.visit, Context.enter, Context.leave, hacc, if_true, Expr.children]
  cases htype : Γ.types.typeOf r with
  | none => simp [Context.typeOf_of_none htype]
  | some type => simp [Context.typeOf_of_some htype, Method.around]

/-- A method call asks for the number of its arguments, for the type of its receiver, and then what the method asks. -/
theorem effect_lower_method (r : Expr) (m : Method) (args : List Expr) :
    ((Expr.method r m args).lower Γ).effect = Γ.visit (.method r m args) := by
  change (Γ.methodCall ⟨r, r.lower Γ⟩ m (Expr.lowerAll Γ args)).effect = _
  have hlen : (Expr.lowerAll Γ args).length = args.length := by rw [Expr.lowerAll_eq_map, List.length_map]
  cases hacc : m.accepts args.length with
  | false => simp [Context.methodCall, Context.visit, Context.enter, hlen, hacc]
  | true =>
    rw [visit_method hacc, Context.methodCall, hlen, if_pos hacc, effect_bind]
    congr 1
    funext type
    -- the number of arguments that a method accepts is the length of the list its rule takes
    match args, hacc with
    | [], hacc =>
      simp only [List.map_cons, List.map_nil, inTurn, bind_pure_unit]
      cases m with
      | length => exact effect_length _ type (Or.inl rfl)
      | size => exact effect_length _ type (Or.inr rfl)
      | first => exact effect_first _ type
      | last => exact effect_last _ type
      | min => exact effect_extreme _ type (Or.inl rfl)
      | max => exact effect_extreme _ type (Or.inr rfl)
      | reverse => exact effect_reverse _ type
      | toStr => exact effect_toStr _ type
      | toInt => exact effect_toInt _ type
      | substring => cases hacc
    | [a], hacc =>
      cases m with
      | toStr => exact effect_toStr_arg _ a type
      | toInt => exact effect_toInt_arg _ a type
      | _ => cases hacc
    | [a, b], hacc =>
      cases m with
      | substring => exact effect_substring _ _ _ type [a, b]
      | _ => cases hacc
    | _ :: _ :: _ :: es, hacc =>
      simp only [Method.accepts, List.length_cons, decide_eq_true_eq] at hacc
      cases m <;> simp [Method.maxArgs] at hacc

/-- Lowering an expression visits its root. -/
theorem effect_lower (Γ : Context) (e : Expr) : (e.lower Γ).effect = Γ.visit e := by
  cases e with
  | float x => exact effect_lower_float x
  | array items => exact effect_lower_array items
  | subscript v i => exact effect_lower_subscript v i
  | binary op l r => exact effect_lower_binary op l r
  | cast v t => exact effect_lower_cast v t
  | method r m args => exact effect_lower_method r m args
  | int _ | bool _ | str _ | bytes _ | name _ => rfl
  | member v a | unary op v | conditional c t f | enumLabel d l | enumById d e =>
    simp [Expr.lower, Context.unary, Context.conditional, Context.enumLabel, Context.enumById, Context.visit, Context.enter,
      Context.leave, inTurn]

end

/-! ## What a run asks, needs and refuses -/

namespace Emission

variable {β : Type} {r : Refusal}

/-- A step that gives no value succeeds before another if both succeed. -/
theorem outcome_bind_unit_eq_ok {x : Emission Unit} {f : Unit → Emission β} {b : β} :
    (x >>= f).outcome = .ok b ↔ x.outcome = .ok () ∧ (f ()).outcome = .ok b := by
  rw [outcome_bind_eq_ok]
  exact ⟨fun ⟨_, h⟩ => h, fun h => ⟨(), h⟩⟩

/-- Effects one after another succeed when each does. -/
theorem outcome_inTurn_eq_ok {xs : List (Emission Unit)} : (inTurn xs).outcome = .ok () ↔ ∀ x ∈ xs, x.outcome = .ok () := by
  induction xs with
  | nil => simp [inTurn]
  | cons x xs ih => rw [inTurn, outcome_bind_unit_eq_ok, ih, List.forall_mem_cons]

/-- A list of steps is refused by one of them. -/
theorem exists_of_outcome_inTurn {xs : List (Emission Unit)} (h : (inTurn xs).outcome = .error r) :
    ∃ x ∈ xs, x.outcome = .error r := by
  induction xs with
  | nil => cases h
  | cons x xs ih =>
    rw [inTurn, outcome_bind_eq_error] at h
    rcases h with h | ⟨-, -, h⟩
    · exact ⟨x, List.mem_cons_self, h⟩
    · obtain ⟨y, hy, hr⟩ := ih h
      exact ⟨y, List.mem_cons_of_mem x hy, hr⟩

theorem needs_inTurn {xs : List (Emission Unit)} (h : ∀ x ∈ xs, x.outcome = .ok ()) :
    (inTurn xs).needs = xs.flatMap (·.needs) := by
  induction xs with
  | nil => rfl
  | cons x xs ih =>
    obtain ⟨hx, hxs⟩ := List.forall_mem_cons.1 h
    rw [inTurn, needs_bind_of_ok hx, ih hxs, List.flatMap_cons]

end Emission

section

open Emission

variable {Γ : Context} {e : Expr}

/-- A node passes on its own: neither before nor after its parts are written does it end in a refusal. -/
structure Context.Passes (Γ : Context) (e : Expr) : Prop where
  enter : (Γ.enter e).outcome = .ok ()
  leave : (Γ.leave e).outcome = .ok ()

/-- An expression has a C++ form. -/
def Context.Accepts (Γ : Context) (e : Expr) : Prop := ∃ c, (e.lower Γ).outcome = .ok c

/-- All items of a list are lowered if all are accepted. -/
theorem forall_effect_ok_iff {es : List Expr} :
    (∀ x ∈ es.map fun x => (x.lower Γ).effect, x.outcome = .ok ()) ↔ ∀ x ∈ es, Γ.Accepts x := by
  simp only [List.forall_mem_map, outcome_effect_eq_ok, Context.Accepts]

/-- An expression is accepted when its root passes and its parts are accepted. -/
theorem accepts_iff : Γ.Accepts e ↔ Γ.Passes e ∧ ∀ x ∈ e.children, Γ.Accepts x := by
  rw [Context.Accepts, ← outcome_effect_eq_ok (u := ()), effect_lower, Context.visit, outcome_bind_unit_eq_ok,
    outcome_bind_unit_eq_ok, outcome_inTurn_eq_ok, forall_effect_ok_iff]
  exact ⟨fun ⟨henter, hparts, hleave⟩ => ⟨⟨henter, hleave⟩, hparts⟩, fun ⟨h, hparts⟩ => ⟨h.enter, hparts, h.leave⟩⟩

/-- An expression is accepted when all its parts pass. -/
theorem accepts_iff_forall_passes : Γ.Accepts e ↔ ∀ x, x.IsPartOf e → Γ.Passes x := by
  induction e using Expr.inductParts with
  | step e ih =>
    rw [Expr.forall_isPartOf, accepts_iff]
    exact and_congr_right fun _ => forall₂_congr ih

/-- A refusal comes from a part, before or after the parts of its own are written. -/
theorem exists_part_of_refused {r : Refusal} (h : (e.lower Γ).outcome = .error r) :
    ∃ x, x.IsPartOf e ∧ ((Γ.enter x).outcome = .error r ∨ (Γ.leave x).outcome = .error r) := by
  induction e using Expr.inductParts with
  | step e ih =>
    rw [← outcome_effect_eq_error, effect_lower, Context.visit, outcome_bind_eq_error] at h
    rcases h with henter | ⟨-, -, h⟩
    · exact ⟨e, .self, Or.inl henter⟩
    · rcases outcome_bind_eq_error.1 h with hparts | ⟨-, -, hleave⟩
      · obtain ⟨y, hy, hr⟩ := exists_of_outcome_inTurn hparts
        obtain ⟨x, hx, rfl⟩ := List.mem_map.1 hy
        obtain ⟨z, hz, hrefused⟩ := ih x hx (outcome_effect_eq_error.1 hr)
        exact ⟨z, .child hx hz, hrefused⟩
      · exact ⟨e, .self, Or.inr hleave⟩

/-- The needs of what is accepted: those of the root around those of its parts. -/
theorem needs_lower (h : Γ.Accepts e) :
    (e.lower Γ).needs = (Γ.enter e).needs ++ ((e.children.flatMap fun x => (x.lower Γ).needs) ++ (Γ.leave e).needs) := by
  obtain ⟨hroot, hchildren⟩ := accepts_iff.1 h
  have hparts := forall_effect_ok_iff.2 hchildren
  rw [← needs_effect, effect_lower, Context.visit, needs_bind_of_ok hroot.enter,
    needs_bind_of_ok (outcome_inTurn_eq_ok.2 hparts), needs_inTurn hparts, List.flatMap_map]
  simp only [needs_effect]

/-- A header is needed when a part needs it. -/
theorem mem_needs_lower {i : Include} (h : Γ.Accepts e) :
    i ∈ (e.lower Γ).needs ↔ ∃ x, x.IsPartOf e ∧ (i ∈ (Γ.enter x).needs ∨ i ∈ (Γ.leave x).needs) := by
  induction e using Expr.inductParts with
  | step e ih =>
    have hchildren := (accepts_iff.1 h).2
    have hparts : (∃ y ∈ e.children, i ∈ (y.lower Γ).needs) ↔
        ∃ y ∈ e.children, ∃ x, x.IsPartOf y ∧ (i ∈ (Γ.enter x).needs ∨ i ∈ (Γ.leave x).needs) :=
      exists_congr fun y => and_congr_right fun hy => ih y hy (hchildren y hy)
    rw [needs_lower h, Expr.exists_isPartOf, List.mem_append, List.mem_append, List.mem_flatMap, hparts]
    exact (or_congr_right or_comm).trans or_assoc.symm

/-- Contexts in which all parts do the same have the same effect. -/
theorem effect_lower_congr {Δ : Context} (h : ∀ x, x.IsPartOf e → Δ.enter x = Γ.enter x ∧ Δ.leave x = Γ.leave x) :
    (e.lower Δ).effect = (e.lower Γ).effect := by
  induction e using Expr.inductParts with
  | step e ih =>
    have hparts : e.children.map (fun x => (x.lower Δ).effect) = e.children.map fun x => (x.lower Γ).effect :=
      List.map_congr_left fun x hx => ih x hx fun y hy => h y (.child hx hy)
    obtain ⟨henter, hleave⟩ := h e .self
    rw [effect_lower, effect_lower, Context.visit, Context.visit, henter, hparts, hleave]

/-- Dropping the text of an emission leaves what lowering does. -/
theorem effect_emit (Γ : Context) (e : Expr) : (e.emit Γ).effect = (e.lower Γ).effect := effect_map _ _

/-- Writing a text needs no header. -/
theorem needs_emit : (e.emit Γ).needs = (e.lower Γ).needs := by
  rw [← needs_effect, effect_emit, needs_effect]

/-- A text is emitted if the expression is accepted. -/
theorem exists_emit_ok_iff : (∃ text, (e.emit Γ).outcome = .ok text) ↔ Γ.Accepts e := by
  rw [Context.Accepts, ← outcome_effect_eq_ok (u := ()), effect_emit, outcome_effect_eq_ok]

/-- Emission is refused as lowering is. -/
theorem emit_error_iff {r : Refusal} : (e.emit Γ).outcome = .error r ↔ (e.lower Γ).outcome = .error r := by
  rw [← outcome_effect_eq_error, effect_emit, outcome_effect_eq_error]

end

end ExprToCpp
