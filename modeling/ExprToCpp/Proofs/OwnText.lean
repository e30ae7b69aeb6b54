import Mathlib.Data.List.Forall2
import ExprToCpp.Proofs.Effect
import ExprToCpp.Proofs.Registration

/-!
# A string is its own text

`toStr` on a string changes nothing, wherever it stands. A `Frame` is a node with one part left open, and the surroundings of a part
are the frames around it. Lowering looks at the type of a part, at what it becomes and, for a radix, at whether it is ten; two parts
that agree in these are interchangeable, and stay so in every frame (`interchangeable_fill`). The argument of `toStr` is the one
place that is read and not written, so there the form of a part matters too.
-/

namespace ExprToCpp

/-! ## Surroundings -/

namespace Expr

/-- A node of an expression with one part left open. -/
inductive Frame where
  | item (before after : List Expr)
  | member (attr : String)
  | subscripted (index : Expr)
  | index (value : Expr)
  | left (op : BinaryOp) (right : Expr)
  | right (op : BinaryOp) (left : Expr)
  | operand (op : UnaryOp)
  | condition (ifTrue ifFalse : Expr)
  | ifTrue (condition ifFalse : Expr)
  | ifFalse (condition ifTrue : Expr)
  | cast (target : ValueType)
  | enumId (ref : EnumDecl)
  | receiver (method : Method) (args : List Expr)
  | argument (receiver : Expr) (method : Method) (before after : List Expr)

/-- The node with an expression as the part that is open. -/
def Frame.fill : Frame → Expr → Expr
  | .item before after, x => .array (before ++ x :: after)
  | .member a, x => .member x a
  | .subscripted i, x => .subscript x i
  | .index v, x => .subscript v x
  | .left op r, x => .binary op x r
  | .right op l, x => .binary op l x
  | .operand op, x => .unary op x
  | .condition t f, x => .conditional x t f
  | .ifTrue c f, x => .conditional c x f
  | .ifFalse c t, x => .conditional c t x
  | .cast t, x => .cast x t
  | .enumId d, x => .enumById d x
  | .receiver m args, x => .method x m args
  | .argument r m before after, x => .method r m (before ++ x :: after)

/-- An expression in its surroundings, which are given from the node right around it outwards. -/
def within (e : Expr) (surroundings : List Frame) : Expr := surroundings.foldl (fun x f => f.fill x) e

/-- The description of a frame does not show what it is filled with. -/
theorem describe_fill (f : Frame) (x y : Expr) : (f.fill x).describe = (f.fill y).describe := by
  cases f <;> rfl

end Expr

open ExprToCpp.Expr

/-- The type of a node is that of its parts, whatever these are. -/
theorem TypeTable.typeOf_fill {T : TypeTable} {x y : Expr} (h : T.typeOf x = T.typeOf y) (f : Frame) :
    T.typeOf (f.fill x) = T.typeOf (f.fill y) := by
  cases f <;> simp only [Frame.fill, TypeTable.typeOf, TypeTable.typesOf_eq_map, List.map_append, List.map_cons, h]

/-! ## Interchangeable parts -/

namespace Context

variable {Γ : Context} {x y : Expr}

/-- Two expressions have the same type or the same account of having none, become the same, and are both the radix ten or not. -/
structure Interchangeable (Γ : Context) (x y : Expr) : Prop where
  typeOf : Γ.typeOf x = Γ.typeOf y
  lower : x.lower Γ = y.lower Γ
  radix : isDefaultRadix x = isDefaultRadix y

/-- Two expressions are answered alike as the argument of `toStr`. -/
def SameArgument (Γ : Context) (x y : Expr) : Prop :=
  ∀ receiver type, Γ.toStr receiver type (some ⟨x, x.lower Γ⟩) = Γ.toStr receiver type (some ⟨y, y.lower Γ⟩)

/-- What is typed alike has the same type. -/
theorem types_typeOf_eq (h : Γ.typeOf x = Γ.typeOf y) : Γ.types.typeOf x = Γ.types.typeOf y :=
  Option.ext fun t => by rw [← outcome_typeOf_eq_ok, h, outcome_typeOf_eq_ok]

/-- A method call looks at what its arguments become and, for a radix, at whether it is ten. -/
theorem methodCall_congr {receiver : Operand} {m : Method} {args args' : List Operand}
    (h : List.Forall₂ (fun p q => p.cpp = q.cpp ∧ isDefaultRadix p.expr = isDefaultRadix q.expr) args args')
    (hstr : m = .toStr → ∀ type, Γ.toStr receiver type args.head? = Γ.toStr receiver type args'.head?) :
    Γ.methodCall receiver m args = Γ.methodCall receiver m args' := by
  rw [methodCall, methodCall, h.length_eq]
  congr 1
  congr 1
  funext type
  cases m with
  | toStr => exact hstr rfl type
  | toInt =>
    cases h with
    | nil => rfl
    | cons hpq _ =>
      cases type with
      | str => simp only [List.head?_cons, toInt, readInt, hpq.1, hpq.2]
      | _ => rfl
  | substring =>
    cases h with
    | nil => rfl
    | cons hstart h =>
      cases h with
      | nil => rfl
      | cons hstop h =>
        cases h with
        | nil => simp only [substring, hstart.1, hstop.1]
        | cons _ h => simp only [List.length_cons, h.length_eq]
  | _ => rfl

/-- One of several arguments is exchanged. -/
theorem forall₂_lowerAll (h : Γ.Interchangeable x y) (before after : List Expr) :
    List.Forall₂ (fun p q => p.cpp = q.cpp ∧ isDefaultRadix p.expr = isDefaultRadix q.expr)
      (Expr.lowerAll Γ (before ++ x :: after)) (Expr.lowerAll Γ (before ++ y :: after)) := by
  rw [lowerAll_eq_map, lowerAll_eq_map, List.forall₂_map_left_iff, List.forall₂_map_right_iff]
  exact List.rel_append (List.forall₂_same.2 fun _ _ => ⟨rfl, rfl⟩)
    (.cons ⟨h.lower, h.radix⟩ (List.forall₂_same.2 fun _ _ => ⟨rfl, rfl⟩))

/-- A conversion to text cannot tell arguments apart that are the same for it. -/
theorem toStr_head?_congr (h : Γ.SameArgument x y) (before after : List Expr) (receiver : Operand) (type : ValueType) :
    Γ.toStr receiver type (Expr.lowerAll Γ (before ++ x :: after)).head? =
      Γ.toStr receiver type (Expr.lowerAll Γ (before ++ y :: after)).head? := by
  cases before with
  | nil => exact h receiver type
  | cons b before => rfl

/-- A node becomes the same with either of two interchangeable parts, which for `toStr` are also the same argument. -/
theorem Interchangeable.lower_fill (h : Γ.Interchangeable x y) {f : Frame} (htype : Γ.typeOf (f.fill x) = Γ.typeOf (f.fill y))
    (hf : (∀ r before after, f ≠ .argument r .toStr before after) ∨ Γ.SameArgument x y) :
    (f.fill x).lower Γ = (f.fill y).lower Γ := by
  cases f with
  | item before after =>
    have hitems : (Expr.lowerAll Γ (before ++ x :: after)).map (·.cpp) = (Expr.lowerAll Γ (before ++ y :: after)).map (·.cpp) := by
      simp [lowerAll_eq_map, h.lower]
    change Γ.array (.array (before ++ x :: after)) _ = Γ.array (.array (before ++ y :: after)) _
    change Γ.typeOf (.array (before ++ x :: after)) = Γ.typeOf (.array (before ++ y :: after)) at htype
    rw [array, array, hitems, htype]
  | argument r m before after =>
    refine methodCall_congr (forall₂_lowerAll h before after) ?_
    rintro rfl type
    rcases hf with hf | hf
    · exact absurd rfl (hf r before after)
    · exact toStr_head?_congr hf before after _ type
  | receiver m args =>
    simp only [Frame.fill, Expr.lower, methodCall, h.typeOf, h.lower]
    rfl
  | left op r =>
    simp only [Frame.fill, Expr.lower, binary, remainder, ordering, bothTextual, plainBinary, callOnBoth, h.typeOf, h.lower]
  | right op l =>
    simp only [Frame.fill, Expr.lower, binary, remainder, ordering, bothTextual, plainBinary, callOnBoth, h.typeOf, h.lower]
  | subscripted i => simp only [Frame.fill, Expr.lower, subscript, h.typeOf, h.lower]
  | index v => simp only [Frame.fill, Expr.lower, subscript, h.lower]
  | _ => simp only [Frame.fill, Expr.lower, unary, conditional, cast, enumById, h.lower]

/-- A node is described by its form alone, and is neither a radix nor an encoding. -/
theorem sameArgument_fill (f : Frame) (hlower : (f.fill x).lower Γ = (f.fill y).lower Γ) :
    Γ.SameArgument (f.fill x) (f.fill y) := by
  intro receiver type
  rw [hlower]
  cases type with
  | int t => cases f <;> rfl
  | bytes => cases f <;> rfl
  | _ => rfl

end Context

section

variable {T : TypeTable} {config : Config} {x y : Expr}

open Context

/-- Interchangeable parts make interchangeable nodes, and the nodes are the same argument of `toStr` as well. -/
theorem interchangeable_fill (h : Interchangeable ⟨T.toTyping, config⟩ x y) {f : Frame}
    (hf : (∀ r before after, f ≠ .argument r .toStr before after) ∨ SameArgument ⟨T.toTyping, config⟩ x y) :
    Interchangeable ⟨T.toTyping, config⟩ (f.fill x) (f.fill y) ∧ SameArgument ⟨T.toTyping, config⟩ (f.fill x) (f.fill y) := by
  have htypes : T.typeOf (f.fill x) = T.typeOf (f.fill y) := TypeTable.typeOf_fill (types_typeOf_eq h.typeOf) f
  have htype : Context.typeOf ⟨T.toTyping, config⟩ (f.fill x) = Context.typeOf ⟨T.toTyping, config⟩ (f.fill y) := by
    simp only [Context.typeOf, TypeTable.toTyping, htypes, describe_fill f x y]
  have hlower := h.lower_fill htype hf
  exact ⟨⟨htype, hlower, by cases f <;> rfl⟩, sameArgument_fill f hlower⟩

/-- Parts that are interchangeable, also as arguments of `toStr`, are so in all surroundings. -/
theorem interchangeable_within (h : Interchangeable ⟨T.toTyping, config⟩ x y) (harg : SameArgument ⟨T.toTyping, config⟩ x y)
    (surroundings : List Frame) :
    Interchangeable ⟨T.toTyping, config⟩ (x.within surroundings) (y.within surroundings) := by
  induction surroundings generalizing x y with
  | nil => exact h
  | cons f fs ih =>
    obtain ⟨hfill, hfillArg⟩ := interchangeable_fill h (Or.inr harg)
    exact ih hfill hfillArg

/-- A string and its text are interchangeable. -/
theorem interchangeable_toStr {s : Expr} (hs : T.typeOf s = some .str) :
    Interchangeable ⟨T.toTyping, config⟩ (.method s .toStr []) s := by
  have htype : Context.typeOf ⟨T.toTyping, config⟩ s = pure .str := typeOf_of_some hs
  refine ⟨?_, ?_, ?_⟩
  · rw [htype]
    rfl
  · change Context.methodCall _ ⟨s, _⟩ .toStr [] = _
    rw [methodCall, htype]
    rfl
  · cases s with
    | int n => cases hs
    | _ => rfl

end

/-- `toStr` on a string makes no difference in any surroundings but as the argument of another `toStr`: neither to the answer and
the lists of a session nor to the type. -/
theorem Session.step_within_toStr (T : TypeTable) (config : Config) (source header : IncludeList) (active : UnitFile) (s : Expr)
    (hs : T.typeOf s = some .str) (surroundings : List Frame)
    (hhole : ∀ r before after, surroundings.head? ≠ some (.argument r .toStr before after)) :
    (Session.mk ⟨T.toTyping, config⟩ source header active).step (.emit ((Expr.method s .toStr []).within surroundings)) =
        (Session.mk ⟨T.toTyping, config⟩ source header active).step (.emit (s.within surroundings)) ∧
      T.typeOf ((Expr.method s .toStr []).within surroundings) = T.typeOf (s.within surroundings) := by
  have hsame : Context.Interchangeable ⟨T.toTyping, config⟩ ((Expr.method s .toStr []).within surroundings)
      (s.within surroundings) := by
    have hstr : Context.Interchangeable ⟨T.toTyping, config⟩ (.method s .toStr []) s := interchangeable_toStr hs
    cases surroundings with
    | nil => exact hstr
    | cons f fs =>
      have hf : ∀ r before after, f ≠ .argument r .toStr before after :=
        fun r before after hf => hhole r before after (by rw [hf]; rfl)
      obtain ⟨hfill, harg⟩ := interchangeable_fill hstr (Or.inl hf)
      exact interchangeable_within hfill harg fs
  refine ⟨?_, Context.types_typeOf_eq hsame.typeOf⟩
  rw [Session.step_emit_eq, Session.step_emit_eq]
  simp only [Expr.emit, hsame.lower]

/-- The text of `a + b` keeps its parentheses before `.length()`, the string's own or not. -/
theorem Session.step_within_toStr_sum :
    let T : TypeTable := { names := [("a", .str), ("b", .str)] }
    let sum : Expr := .binary .add (.name "a") (.name "b")
    let surroundings : List Frame := [.receiver .length [], .operand .neg]
    T.typeOf sum = some .str ∧
      (Session.mk ⟨T.toTyping, .conservative⟩ {} {} .source).step (.emit ((Expr.method sum .toStr []).within surroundings)) =
        (Session.mk ⟨T.toTyping, .conservative⟩ {} {} .source).step (.emit (sum.within surroundings)) ∧
      (Expr.emit ⟨T.toTyping, .conservative⟩ (sum.within surroundings)).outcome = .ok "-(a() + b()).length()" := by
  intro T sum surroundings
  refine ⟨rfl, (step_within_toStr T .conservative {} {} .source sum rfl surroundings ?_).1, rfl⟩
  intro r before after h
  cases h

-- the encoding of a conversion is a literal: its text is not accepted in its place
example :
    (Expr.emit ⟨({} : TypeTable).toTyping, .conservative⟩ (.method (.bytes [65]) .toStr [.str "ASCII"])).outcome.isOk = true ∧
      (Expr.emit ⟨({} : TypeTable).toTyping, .conservative⟩
        (.method (.bytes [65]) .toStr [.method (.str "ASCII") .toStr []])).outcome.isOk = false :=
  ⟨rfl, rfl⟩

end ExprToCpp
