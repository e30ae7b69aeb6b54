import Mathlib.Data.List.Forall2
import ExprToCpp.Lowering.Basic
import ExprToCpp.Proofs.IncludeList
import ExprToCpp.Rendering.Basic

/-!
# Rendering follows lowering

An expression is written in one pass, with the include lists of the session at hand. Its lowering knows of no lists: it is a C++ tree,
or a refusal, and a sequence of headers. `Follows` says that from every session in a context the pass gives what the lowering gives, as
text, and registers the headers that the lowering needs. There is one statement for each rule, about parts that follow theirs; where a
part is written twice, the second time registers nothing. Main statement: `follows_renderer`.
-/

namespace ExprToCpp

namespace Renderer

section

variable {α β : Type} {r : Renderer α} {s s' : Session}

/-- After a success the pass goes on from the session it has come to. -/
theorem run_bind_of_ok {a : α} (h : r.run s = (s', .ok a)) (k : α → Renderer β) : (r >>= k).run s = (k a).run s' := by
  simp [bind, andThen, h]

/-- After a refusal it stays in the session it has come to. -/
theorem run_bind_of_error {e : Refusal} (h : r.run s = (s', .error e)) (k : α → Renderer β) :
    (r >>= k).run s = (s', .error e) := by
  simp [bind, andThen, h]

end

/-- From every session in a context, an action does what an emission says: it gives a view of the value or the same refusal, and
registers what is needed. -/
def Follows {α β : Type} (Γ : Context) (view : β → α) (r : Renderer α) (x : Emission β) : Prop :=
  ∀ s : Session, s.context = Γ → r.run s = (s.register x.needs, x.outcome.map view)

section

variable {α β γ δ : Type} {Γ : Context} {view : β → α} {r : Renderer α} {x : Emission β}

/-- Giving a value changes no session. -/
theorem follows_pure {a : α} {b : β} (h : a = view b) : Follows Γ view (pure a) (pure b) := by
  intro s _
  subst h
  rw [Emission.needs_pure, Session.register_nil]
  rfl

theorem follows_refuse (e : Refusal) : Follows Γ view (refuse e) (Emission.refuse e) := by
  intro s _
  exact congrArg (·, Except.error e) s.register_nil.symm

/-- An outcome that is known in advance changes no session. -/
theorem follows_ofExcept {y : Except Refusal α} {z : Except Refusal β} (h : y = z.map view) :
    Follows Γ view (ofExcept y) (Emission.ofExcept z) := by
  intro s _
  rw [h]
  exact congrArg (·, z.map view) s.register_nil.symm

/-- Entering a header is registering it. -/
theorem follows_require (i : Include) : Follows Γ id (require i) (Emission.need i) := by
  intro s _
  exact congrArg (·, Except.ok ()) (s.register_singleton i).symm

/-- An action that reads the context is given the one of the session. -/
theorem follows_context {k : Context → Renderer α} (h : Follows Γ view (k Γ) x) : Follows Γ view (context >>= k) x := by
  intro s hs
  have hread : (context >>= k).run s = (k s.context).run s := rfl
  rw [hread, hs]
  exact h s hs

/-- Where the emission succeeds, the pass has registered its needs and gives what is seen of its value. -/
theorem Follows.of_ok (h : Follows Γ view r x) {s : Session} (hs : s.context = Γ) {b : β} (hx : x.outcome = .ok b) :
    r.run s = (s.register x.needs, .ok (view b)) := by
  rw [h s hs, hx]
  rfl

/-- Where it is refused, the pass has registered its needs so far and is refused alike. -/
theorem Follows.of_error (h : Follows Γ view r x) {s : Session} (hs : s.context = Γ) {e : Refusal} (hx : x.outcome = .error e) :
    r.run s = (s.register x.needs, .error e) := by
  rw [h s hs, hx]
  rfl

/-- What goes on from the value that is given follows what goes on from what it is a view of. -/
theorem Follows.bind_of_outcome (h : Follows Γ view r x) {view' : δ → γ} {k : α → Renderer γ} {f : β → Emission δ}
    (hk : ∀ b, x.outcome = .ok b → Follows Γ view' (k (view b)) (f b)) : Follows Γ view' (r >>= k) (x >>= f) := by
  intro s hs
  cases hx : x.outcome with
  | ok b =>
    rw [run_bind_of_ok (h.of_ok hs hx), Emission.bind_of_ok hx, Session.register_append]
    exact hk b hx (s.register x.needs) hs
  | error e =>
    rw [run_bind_of_error (h.of_error hs hx), Emission.bind_of_error hx]
    rfl

/-- Two steps follow two steps, whatever the value of the first one. -/
theorem Follows.bind (h : Follows Γ view r x) {view' : δ → γ} {k : α → Renderer γ} {f : β → Emission δ}
    (hk : ∀ b, Follows Γ view' (k (view b)) (f b)) : Follows Γ view' (r >>= k) (x >>= f) :=
  h.bind_of_outcome fun b _ => hk b

/-- A value of which only something is used. -/
theorem Follows.read (h : Follows Γ view r x) {g : α → γ} {view' : β → γ} (hg : ∀ b, g (view b) = view' b) :
    Follows Γ view' (r >>= fun a => pure (g a)) x := by
  have hread : Follows Γ view' (r >>= fun a => pure (g a)) (x >>= pure) := h.bind fun b => follows_pure (hg b)
  rwa [bind_pure] at hread

/-- The pass asks for types as the emission does. -/
theorem follows_typeOf (e : Expr) : Follows Γ id (typeOf e) (Γ.typeOf e) := by
  refine follows_context ?_
  unfold Context.typeOf
  cases Γ.types.typeOf e with
  | some t => exact follows_pure rfl
  | none => exact follows_refuse _

end

/-- What is written once more, after something else, is the same and registers nothing. -/
theorem Follows.again {α α' β γ γ' δ ε : Type} {Γ : Context} {view : β → α} {view' : β → α'} {r : Renderer α} {r' : Renderer α'}
    {x : Emission β} (h : Follows Γ view r x) (h' : Follows Γ view' r' x) {viewy : δ → γ} {t : Renderer γ} {y : Emission δ}
    (hy : Follows Γ viewy t y) {out : ε → γ'} {k : α → γ → α' → Renderer γ'} {f : β → δ → Emission ε}
    (hk : ∀ b d, Follows Γ out (k (view b) (viewy d) (view' b)) (f b d)) :
    Follows Γ out (do let a ← r; let c ← t; let a' ← r'; k a c a') (do let b ← x; let d ← y; f b d) := by
  intro s hs
  cases hx : x.outcome with
  | error e =>
    rw [run_bind_of_error (h.of_error hs hx), Emission.bind_of_error hx]
    rfl
  | ok b =>
    rw [run_bind_of_ok (h.of_ok hs hx), Emission.bind_of_ok hx, Session.register_append]
    cases hd : y.outcome with
    | error e =>
      rw [run_bind_of_error (hy.of_error (s := s.register x.needs) hs hd), Emission.bind_of_error hd]
      rfl
    | ok d =>
      -- the headers of the first time are there, and stay there
      have hagain := h'.of_ok (s := (s.register x.needs).register y.needs) hs hx
      rw [Session.register_again] at hagain
      rw [run_bind_of_ok (hy.of_ok (s := s.register x.needs) hs hd), run_bind_of_ok hagain, Emission.bind_of_ok hd,
        Session.register_append]
      exact hk b d _ hs

end Renderer

/-! ## The texts of C++ forms -/

namespace Cpp.Expr

/-- The text of a call of a named function. -/
theorem render_nameCall (n : String) (args : List Expr) : (call (name n) args).render = n ++ "(" ++ renderList args ++ ")" := rfl

/-- The text of a call of a member through a pointer. -/
theorem render_arrowCall (c : Expr) (m : String) (args : List Expr) :
    (call (arrow c m) args).render =
      group (c.looserThan BindingLevel.access.rank) c.render ++ "->" ++ m ++ "(" ++ renderList args ++ ")" := rfl

/-- The text of a call of a member of an object. -/
theorem render_dotCall (c : Expr) (m : String) (args : List Expr) :
    (call (dot c m) args).render =
      group (c.looserThan BindingLevel.access.rank) c.render ++ "." ++ m ++ "(" ++ renderList args ++ ")" := rfl

/-- The text of a comparison of texts: no operator binds tighter than a call. -/
theorem render_textOrder (op : BinaryOp) (c d : Expr) :
    (paren (binary op (call (dot c "compare") [d]) (int 0 .plain))).render =
      "(" ++ (group (c.looserThan BindingLevel.access.rank) c.render ++ "." ++ "compare" ++ "(" ++ d.render ++ ")" ++ " " ++ op.symbol ++
        " " ++ "0") ++ ")" := by
  cases op <;> rfl

/-- The text of a choice between texts. -/
theorem render_choice (c t f : Expr) :
    (paren (conditional (paren c) (paren t) (paren f))).render =
      "(" ++ ("(" ++ c.render ++ ")" ++ " ? " ++ ("(" ++ t.render ++ ")") ++ " : " ++ ("(" ++ f.render ++ ")")) ++ ")" := rfl

theorem render_supportCall (config : Config) (f : String) (args : List Expr) :
    (call (config.support f) args).render = (config.support f).render ++ "(" ++ renderList args ++ ")" := rfl

/-- The text of the first byte of a text, by its index. -/
theorem render_firstByte (c : Expr) :
    (index c (int 0 .plain)).render = group (c.looserThan BindingLevel.access.rank) c.render ++ "[" ++ "0" ++ "]" := rfl

/-- The text of the last byte of a text, by an index that names the text once more. -/
theorem render_lastByte (c : Expr) :
    (index c (binary .sub (call (dot c "length") []) (int 1 .plain))).render =
      group (c.looserThan BindingLevel.access.rank) c.render ++ "[" ++
        (group (c.looserThan BindingLevel.access.rank) c.render ++ "." ++ "length" ++ "(" ++ "" ++ ")" ++ " " ++ "-" ++ " " ++ "1") ++
        "]" := rfl

/-- The text of a search in the range of an array. -/
theorem render_range (f : String) (c : Expr) :
    (unary .deref (call (name f) [call (arrow c "begin") [], call (arrow c "end") []])).render =
      "*" ++ (f ++ "(" ++ (group (c.looserThan BindingLevel.access.rank) c.render ++ "->" ++ "begin" ++ "(" ++ "" ++ ")" ++ ", " ++
        (group (c.looserThan BindingLevel.access.rank) c.render ++ "->" ++ "end" ++ "(" ++ "" ++ ")")) ++ ")") := rfl

/-- The text of a substring: its start is written as the first argument and again in the length. -/
theorem render_substring (c i j : Expr) :
    (call (dot c "substr") [i, binary .sub j i]).render =
      group (c.looserThan BindingLevel.access.rank) c.render ++ "." ++ "substr" ++ "(" ++ (i.render ++ ", " ++
        (group (j.looserThan BindingLevel.additive.rank) j.render ++ " " ++ "-" ++ " " ++
          group (i.looserThan (BindingLevel.additive.rank + 1)) i.render)) ++ ")" := rfl

/-- The text of a boolean as a number. -/
theorem render_truthValue (c : Expr) :
    (paren (conditional (paren c) (int 1 .plain) (int 0 .plain))).render =
      "(" ++ ("(" ++ c.render ++ ")" ++ " ? " ++ "1" ++ " : " ++ "0") ++ ")" := rfl

theorem render_truncation (c : Expr) : (staticCast (.named "int") c).render = "static_cast<" ++ "int" ++ ">(" ++ c.render ++ ")" := rfl

theorem render_zero : (int 0 .plain).render = "0" := rfl

theorem render_string (style : Escape.Style) (bytes : List UInt8) :
    (string style bytes).render = "\"" ++ Escape.body style bytes ++ "\"" := rfl

theorem renderList_nil : renderList [] = "" := rfl

theorem renderList_singleton (c : Expr) : renderList [c] = c.render := rfl

/-- Items of a list are written with a comma between them. -/
theorem renderList_cons_cons (c d : Expr) (cs : List Expr) :
    renderList (c :: d :: cs) = c.render ++ ", " ++ renderList (d :: cs) := rfl

/-- Arguments have commas between them. -/
theorem renderList_eq_intercalate (cs : List Expr) : renderList cs = String.intercalate ", " (cs.map render) := by
  induction cs with
  | nil => rfl
  | cons c cs ih =>
    cases cs with
    | nil => exact String.intercalate_singleton.symm
    | cons d cs =>
      rw [renderList_cons_cons, ih, List.map_cons, List.map_cons, List.map_cons, String.intercalate_cons_cons]

end Cpp.Expr

namespace Fragment

open Cpp

/-- Nothing binds looser than an argument may. -/
theorem atLeast_conditional (c : Cpp.Expr) : (ofCpp c).atLeast BindingLevel.conditional.rank = c.render := by
  have hrank : ¬ c.level.rank < BindingLevel.conditional.rank := by cases c.level <;> decide
  rw [atLeast, ofCpp, decide_eq_false hrank]
  rfl

/-- A fragment is a C++ expression written out if its text and its level are those of the expression. -/
theorem eq_ofCpp {text : String} {level : BindingLevel} {c : Cpp.Expr} (htext : text.toList = c.render.toList)
    (hlevel : level = c.level) : Fragment.mk text level = ofCpp c := by
  rw [ofCpp, String.toList_inj.1 htext, hlevel]

end Fragment

/-! ## Parts -/

/-- A part is written as an operand becomes C++. -/
structure Part.Follows (Γ : Context) (p : Part) (o : Operand) : Prop where
  expr : p.expr = o.expr
  fragment : Renderer.Follows Γ Fragment.ofCpp p.fragment o.cpp

namespace Part.Follows

variable {Γ : Context} {p : Part} {o : Operand}

/-- An operand is grouped as the printer groups it. -/
theorem operand (h : p.Follows Γ o) (rank : Nat) :
    Renderer.Follows Γ (fun c => Cpp.group (c.looserThan rank) c.render) (p.operand rank) o.cpp :=
  h.fragment.read fun _ => rfl

/-- An argument is not grouped. -/
theorem argument (h : p.Follows Γ o) : Renderer.Follows Γ Cpp.Expr.render (p.operand BindingLevel.conditional.rank) o.cpp :=
  h.fragment.read Fragment.atLeast_conditional

/-- The type of a part is asked for. -/
theorem typeOf (h : p.Follows Γ o) : Renderer.Follows Γ id (Renderer.typeOf p.expr) (Γ.typeOf o.expr) := by
  rw [h.expr]
  exact Renderer.follows_typeOf o.expr

/-- Arguments are written from left to right, as their emissions follow one another. -/
theorem arguments {ps : List Part} {os : List Operand} (h : List.Forall₂ (Part.Follows Γ) ps os) :
    Renderer.Follows Γ (List.map Cpp.Expr.render) (Part.arguments ps) (Emission.sequence (os.map (·.cpp))) := by
  induction h with
  | nil => exact Renderer.follows_pure rfl
  | cons hp _ ih => exact hp.argument.bind fun c => ih.bind fun cs => Renderer.follows_pure rfl

end Part.Follows

/-! ## Rules -/

namespace Rendering

open Renderer Cpp Cpp.Expr

variable {Γ : Context} {p q t : Part} {l r o : Operand}

/-- A call on two operands writes them in order. -/
theorem follows_callOnBoth (n : String) (hp : p.Follows Γ l) (hq : q.Follows Γ r) :
    Follows Γ Fragment.ofCpp (callOnBoth n p q) (Context.callOnBoth (.name n) l r) :=
  hp.argument.bind fun a => hq.argument.bind fun b => follows_pure <| Fragment.eq_ofCpp
    (by simp [render_nameCall, renderList_cons_cons, renderList_singleton]) rfl

/-- Only a float without digits registers a header. -/
theorem follows_float (x : Binary64) : Follows Γ Fragment.ofCpp (float x) (Context.float x) := by
  unfold float Context.float
  cases x.isFinite with
  | true => exact (follows_pure rfl).bind fun _ => follows_pure rfl
  | false => exact (follows_require _).bind fun _ => follows_pure rfl

/-- The text of an array is that of its construction. -/
theorem arrayText_eq (o : Ownership) (vector : Ty) (cs : List Cpp.Expr) :
    o.arrayText vector (String.intercalate ", " (cs.map render)) = (o.makeArray vector cs).map render := by
  rw [← renderList_eq_intercalate]
  cases o <;> rfl

/-- An array that can be made binds like a prefix operator. -/
theorem level_makeArray {o : Ownership} {vector : Ty} {cs : List Cpp.Expr} {c : Cpp.Expr} (h : o.makeArray vector cs = .ok c) :
    c.level = .unary := by
  cases o <;> cases h <;> rfl

/-- The header of vectors is registered after those of the items. -/
theorem follows_array (literal : Expr) {ps : List Part} {os : List Operand} (h : List.Forall₂ (Part.Follows Γ) ps os) :
    Follows Γ Fragment.ofCpp (array literal ps) (Γ.array literal os) := by
  refine (follows_typeOf literal).bind fun type => ?_
  cases type with
  | array element =>
    refine follows_context ((Part.Follows.arguments h).bind fun cs => ?_)
    refine (follows_ofExcept (arrayText_eq _ _ cs)).bind_of_outcome fun c hc => (follows_require _).bind fun _ => ?_
    exact follows_pure (Fragment.eq_ofCpp rfl (level_makeArray hc).symm)
  | _ => exact follows_refuse _

/-- A member is written after its object. -/
theorem follows_member (hp : p.Follows Γ o) (name : String) :
    Follows Γ Fragment.ofCpp (member p name) ((Naming.member · name) <$> o.cpp) :=
  (hp.operand _).bind fun c => follows_pure <| by
    unfold Naming.member Naming.reference
    cases LoopName.ofName? name with
    | some n => rfl
    | none => exact Fragment.eq_ofCpp (by simp [render_arrowCall, Naming.accessor, render_nameCall, renderList_nil]) rfl

/-- The type of the left side is asked for before both sides are written, and judged after. -/
theorem follows_subscript (hp : p.Follows Γ l) (hq : q.Follows Γ r) :
    Follows Γ Fragment.ofCpp (subscript p q) (Γ.subscript l r) := by
  refine hp.typeOf.bind fun type => (hp.operand _).bind fun a => hq.argument.bind fun b => ?_
  cases type with
  | array _ => exact follows_pure (Fragment.eq_ofCpp (by simp [render_arrowCall, renderList_singleton]) rfl)
  | bytes => exact follows_pure rfl
  | _ => exact follows_refuse _

theorem follows_plainBinary (op : BinaryOp) (hp : p.Follows Γ l) (hq : q.Follows Γ r) :
    Follows Γ Fragment.ofCpp (plainBinary op p q) (Context.plainBinary op l r) :=
  (hp.operand _).bind fun _ => (hq.operand _).bind fun _ => follows_pure rfl

/-- The header of the remainder is registered before those of the operands. -/
theorem follows_remainder (hp : p.Follows Γ l) (hq : q.Follows Γ r) :
    Follows Γ Fragment.ofCpp (remainder p q) (Γ.remainder l r) := by
  refine hp.typeOf.bind fun a => hq.typeOf.bind fun b => ?_
  have hmath : Follows Γ Fragment.ofCpp (do require .math; callOnBoth "std::fmod" p q)
      (do Emission.need .math; Context.callOnBoth (.name "std::fmod") l r) :=
    (follows_require .math).bind fun _ => follows_callOnBoth _ hp hq
  cases a with
  | float _ => exact hmath
  | int _ =>
    cases b with
    | int _ => exact follows_context (follows_callOnBoth _ hp hq)
    | float _ => exact hmath
    | _ => exact follows_plainBinary .mod hp hq
  | _ =>
    cases b with
    | float _ => exact hmath
    | _ => exact follows_plainBinary .mod hp hq

/-- The right operand is asked for its type only next to a text. -/
theorem follows_bothTextual (hp : p.Follows Γ l) (hq : q.Follows Γ r) : Follows Γ id (bothTextual p q) (Γ.bothTextual l r) := by
  refine hp.typeOf.bind fun a => ?_
  change Follows Γ id (if a.isTextual = true then _ else _) (if a.isTextual = true then _ else _)
  split
  · exact hq.typeOf.bind fun b => follows_pure rfl
  · exact follows_pure rfl

/-- An ordering writes its operands in one of two forms. -/
theorem follows_ordering (op : BinaryOp) (hp : p.Follows Γ l) (hq : q.Follows Γ r) :
    Follows Γ Fragment.ofCpp (ordering op p q) (Γ.ordering op l r) := by
  refine (follows_bothTextual hp hq).bind fun textual => ?_
  cases textual with
  | true =>
    refine (hp.operand _).bind fun a => hq.argument.bind fun b => follows_pure (Fragment.eq_ofCpp ?_ rfl)
    simp [render_textOrder]
  | false => exact follows_plainBinary op hp hq

/-- A binary operator takes the rule for it. -/
theorem follows_binary (op : BinaryOp) (hp : p.Follows Γ l) (hq : q.Follows Γ r) :
    Follows Γ Fragment.ofCpp (binary op p q) (Γ.binary op l r) := by
  unfold binary Context.binary
  split
  · exact follows_remainder hp hq
  · split
    · exact follows_ordering op hp hq
    · exact follows_plainBinary op hp hq

theorem follows_unary (op : UnaryOp) (hp : p.Follows Γ o) : Follows Γ Fragment.ofCpp (unary op p) (Context.unary op o) :=
  (hp.operand _).bind fun _ => follows_pure rfl

theorem follows_conditional {p₁ p₂ p₃ : Part} {o₁ o₂ o₃ : Operand} (h₁ : p₁.Follows Γ o₁) (h₂ : p₂.Follows Γ o₂)
    (h₃ : p₃.Follows Γ o₃) : Follows Γ Fragment.ofCpp (conditional p₁ p₂ p₃) (Context.conditional o₁ o₂ o₃) :=
  h₁.fragment.bind fun a => h₂.fragment.bind fun b => h₃.fragment.bind fun c => follows_pure <| Fragment.eq_ofCpp
    (by simp [render_choice, Fragment.ofCpp]) rfl

/-- A cast writes its operand by the target. -/
theorem follows_cast (hp : p.Follows Γ o) (target : ValueType) : Follows Γ Fragment.ofCpp (cast p target) (Γ.cast o target) := by
  refine hp.argument.bind fun c => follows_context ?_
  cases target with
  | record path =>
    refine follows_pure ?_
    cases Γ.config.ownership <;> rfl
  | _ => exact follows_pure rfl

/-- The header of an enumeration is registered unless it is that of the generated class. -/
theorem follows_requireEnum (d : EnumDecl) : Follows Γ id (requireEnum d) (Γ.needEnum d) := by
  refine follows_context ?_
  unfold Context.needEnum
  cases d.outermost? with
  | none => exact follows_pure rfl
  | some top =>
    change Follows Γ id (if _ then _ else _) (if _ then _ else _)
    split
    · exact follows_pure rfl
    · exact follows_require _

theorem follows_enumLabel (d : EnumDecl) (label : String) : Follows Γ Fragment.ofCpp (enumLabel d label) (Γ.enumLabel d label) :=
  (follows_requireEnum d).bind fun _ => follows_pure rfl

/-- A number as a constant does so before the number is written. -/
theorem follows_enumById (d : EnumDecl) (hp : p.Follows Γ o) : Follows Γ Fragment.ofCpp (enumById d p) (Γ.enumById d o) :=
  (follows_requireEnum d).bind fun _ => hp.argument.bind fun _ => follows_pure rfl

/-! ## Method calls -/

/-- A receiver that does not fit is refused with its type. -/
theorem follows_notOn (m : Method) (found : ValueType) : Follows Γ Fragment.ofCpp (notOn m found) (Context.notOn m found) :=
  follows_refuse _

/-- A support function is called on the receiver. -/
theorem follows_supported (name : String) (hp : p.Follows Γ o) :
    Follows Γ Fragment.ofCpp (supported name p) (do return .call (Γ.config.support name) [← o.cpp]) :=
  hp.argument.bind fun _ => follows_context (follows_pure rfl)

/-- The receiver of a length is written before its type is judged. -/
theorem follows_length (hp : p.Follows Γ o) (type : ValueType) :
    Follows Γ Fragment.ofCpp (length p type) (Context.length o type) := by
  refine (hp.operand _).bind fun c => ?_
  cases type with
  | str | bytes => exact follows_pure (Fragment.eq_ofCpp (by simp [Context.onString, render_dotCall, renderList_nil]) rfl)
  | array _ => exact follows_pure (Fragment.eq_ofCpp (by simp [Context.onArray, render_arrowCall, renderList_nil]) rfl)
  | _ => exact follows_notOn _ _

theorem follows_first (hp : p.Follows Γ o) (type : ValueType) : Follows Γ Fragment.ofCpp (first p type) (Γ.first o type) := by
  refine (hp.operand _).bind fun c => follows_context ?_
  cases type with
  | str | bytes =>
    refine follows_pure ?_
    cases Γ.config.stringEnds with
    | true => exact Fragment.eq_ofCpp (by simp [Context.onString, render_dotCall, renderList_nil]) rfl
    | false => exact Fragment.eq_ofCpp (by simp [render_firstByte]) rfl
  | array _ => exact follows_pure (Fragment.eq_ofCpp (by simp [Context.onArray, render_arrowCall, renderList_nil]) rfl)
  | _ => exact follows_notOn _ _

/-- The receiver of a last element is written before its type is judged, and may be used twice from one fragment. -/
theorem follows_last (hp : p.Follows Γ o) (type : ValueType) : Follows Γ Fragment.ofCpp (last p type) (Γ.last o type) := by
  refine (hp.operand _).bind fun c => follows_context ?_
  cases type with
  | str | bytes =>
    refine follows_pure ?_
    cases Γ.config.stringEnds with
    | true => exact Fragment.eq_ofCpp (by simp [Context.onString, render_dotCall, renderList_nil]) rfl
    | false => exact Fragment.eq_ofCpp (by simp [Context.onString, render_lastByte]) rfl
  | array _ => exact follows_pure (Fragment.eq_ofCpp (by simp [Context.onArray, render_arrowCall, renderList_nil]) rfl)
  | _ => exact follows_notOn _ _

/-- The header of a search comes after the array is written. -/
theorem follows_extreme (m : Method) (hp : p.Follows Γ o) (type : ValueType) :
    Follows Γ Fragment.ofCpp (extreme m p type) (Γ.extreme m o type) := by
  cases type with
  | array _ =>
    refine (hp.operand _).bind fun c => (follows_require _).bind fun _ => follows_pure (Fragment.eq_ofCpp ?_ rfl)
    simp [Context.onArray, render_range]
  | bytes => exact follows_supported _ hp
  | _ => exact follows_notOn _ _

/-- The start of a substring is written twice and registers its headers once. -/
theorem follows_substring {start stop : Part} {i j : Operand} (hp : p.Follows Γ o) (type : ValueType) (hi : start.Follows Γ i)
    (hj : stop.Follows Γ j) : Follows Γ Fragment.ofCpp (substring p type start stop) (Context.substring o type i j) := by
  cases type with
  | str =>
    refine (hp.operand _).bind fun c => hi.argument.again (hi.operand _) (hj.operand _) fun a b => ?_
    exact follows_pure (Fragment.eq_ofCpp (by simp [render_substring]) rfl)
  | _ => exact follows_notOn _ _

/-- The receiver of a reversal is judged before it is written. -/
theorem follows_reverse (hp : p.Follows Γ o) (type : ValueType) :
    Follows Γ Fragment.ofCpp (reverse p type) (Γ.reverse o type) := by
  cases type with
  | str => exact follows_supported _ hp
  | _ => exact follows_notOn _ _

/-- Only the text of an argument is looked at where an integer or bytes become text. -/
theorem follows_toStr (hp : p.Follows Γ o) (type : ValueType) {ps : List Part} {os : List Operand}
    (h : List.Forall₂ (Part.Follows Γ) ps os) :
    Follows Γ Fragment.ofCpp (toStr p type ps.head?) (Γ.toStr o type os.head?) := by
  have hexpr : ps.head?.map Part.expr = os.head?.map Operand.expr := by
    cases h with
    | nil => rfl
    | cons hq _ => exact congrArg some hq.expr
  unfold toStr Context.toStr
  rw [hexpr]
  cases type with
  | int _ =>
    cases os.head?.map Operand.expr with
    | none => exact follows_supported _ hp
    | some radix =>
      change Follows Γ _ (if radix.isDefaultRadix = true then _ else _) (if radix.isDefaultRadix = true then _ else _)
      split
      · exact follows_supported _ hp
      · exact follows_refuse _
  | bytes =>
    cases os.head?.map Operand.expr with
    | none => exact follows_refuse _
    | some e =>
      cases e with
      | str encoding =>
        refine hp.argument.bind fun c => follows_context (follows_pure (Fragment.eq_ofCpp ?_ rfl))
        simp [render_supportCall, renderList_cons_cons, renderList_singleton, render_string]
      | _ => exact follows_refuse _
  | str =>
    cases os.head?.map Operand.expr with
    | none => exact hp.fragment
    | some _ => exact follows_notOn _ _
  | _ => exact follows_notOn _ _

/-- A radix is written after the string it is for, unless it is ten. -/
theorem follows_readInt (hp : p.Follows Γ o) {ps : List Part} {os : List Operand} (h : List.Forall₂ (Part.Follows Γ) ps os) :
    Follows Γ Fragment.ofCpp (readInt p ps.head?) (Context.readInt o os.head?) := by
  refine hp.argument.bind fun c => ?_
  have hten : Follows Γ Fragment.ofCpp (pure ⟨"std::stoi(" ++ c.render ++ ")", .access⟩) (pure (.call (.name "std::stoi") [c])) :=
    follows_pure (Fragment.eq_ofCpp (by simp [render_nameCall, renderList_singleton]) rfl)
  cases h with
  | nil => exact hten
  | @cons radix radix' _ _ hr _ =>
    change Follows Γ _ (if radix.expr.isDefaultRadix = true then _ else _) (if radix'.expr.isDefaultRadix = true then _ else _)
    rw [hr.expr]
    split
    · exact hten
    · refine hr.argument.bind fun d => follows_pure (Fragment.eq_ofCpp ?_ rfl)
      simp [render_nameCall, renderList_cons_cons, renderList_singleton, render_zero]

/-- A conversion to an integer judges the receiver first. -/
theorem follows_toInt (hp : p.Follows Γ o) (type : ValueType) {ps : List Part} {os : List Operand}
    (h : List.Forall₂ (Part.Follows Γ) ps os) :
    Follows Γ Fragment.ofCpp (toInt p type ps.head?) (Context.toInt o type os.head?) := by
  cases type with
  | str => exact follows_readInt hp h
  | bool =>
    cases h with
    | nil =>
      refine hp.fragment.bind fun c => follows_pure (Fragment.eq_ofCpp ?_ rfl)
      simp [render_truthValue, Fragment.ofCpp]
    | cons _ _ => exact follows_refuse _
  | float _ =>
    cases h with
    | nil => exact hp.argument.bind fun c => follows_pure (Fragment.eq_ofCpp (by simp [render_truncation]) rfl)
    | cons _ _ => exact follows_refuse _
  | int _ | enum _ =>
    cases h with
    | nil => exact hp.fragment
    | cons _ _ => exact follows_refuse _
  | _ =>
    cases h with
    | nil => exact follows_notOn _ _
    | cons _ _ => exact follows_refuse _

/-- A method call is judged by its number of arguments, then by the type of its receiver, then by its method. -/
theorem follows_methodCall (hp : p.Follows Γ o) (m : Method) {ps : List Part} {os : List Operand}
    (h : List.Forall₂ (Part.Follows Γ) ps os) :
    Follows Γ Fragment.ofCpp (methodCall p m ps) (Γ.methodCall o m os) := by
  unfold methodCall Context.methodCall
  rw [h.length_eq]
  split
  · refine hp.typeOf.bind fun type => ?_
    cases m with
    | length | size => exact follows_length hp type
    | first => exact follows_first hp type
    | last => exact follows_last hp type
    | min | max => exact follows_extreme _ hp type
    | reverse => exact follows_reverse hp type
    | toStr => exact follows_toStr hp type h
    | toInt => exact follows_toInt hp type h
    | substring =>
      cases h with
      | nil => exact follows_refuse _
      | cons hi h =>
        cases h with
        | nil => exact follows_refuse _
        | cons hj h =>
          cases h with
          | nil => exact follows_substring hp type hi hj
          | cons _ h =>
            simp only [List.length_cons, h.length_eq]
            exact follows_refuse _
  · exact follows_refuse _

end Rendering

/-! ## Expressions -/

/-- The parts of a list follow their lowerings if its expressions do. -/
theorem follows_parts {Γ : Context} {es : List Expr} (h : ∀ e ∈ es, Renderer.Follows Γ Fragment.ofCpp e.renderer (e.lower Γ)) :
    List.Forall₂ (Part.Follows Γ) (Expr.parts es) (Expr.lowerAll Γ es) := by
  rw [Expr.parts_eq_map, Expr.lowerAll_eq_map, List.forall₂_map_left_iff, List.forall₂_map_right_iff, List.forall₂_same]
  exact fun e he => ⟨rfl, h e he⟩

/-- Writing an expression in one pass follows its lowering, whatever the include lists hold. -/
theorem follows_renderer (Γ : Context) (e : Expr) : Renderer.Follows Γ Fragment.ofCpp e.renderer (e.lower Γ) := by
  induction e with
  | int | bool | str | bytes | name => exact Renderer.follows_pure rfl
  | float x => exact Rendering.follows_float x
  | array items ih => exact Rendering.follows_array _ (follows_parts ih)
  | member v a ih => exact Rendering.follows_member (p := ⟨v, v.renderer⟩) (o := ⟨v, v.lower Γ⟩) ⟨rfl, ih⟩ a
  | subscript v i ihv ihi => exact Rendering.follows_subscript ⟨rfl, ihv⟩ ⟨rfl, ihi⟩
  | binary op l r ihl ihr => exact Rendering.follows_binary op ⟨rfl, ihl⟩ ⟨rfl, ihr⟩
  | unary op e ih => exact Rendering.follows_unary op ⟨rfl, ih⟩
  | conditional c t f ihc iht ihf => exact Rendering.follows_conditional ⟨rfl, ihc⟩ ⟨rfl, iht⟩ ⟨rfl, ihf⟩
  | cast v target ih => exact Rendering.follows_cast ⟨rfl, ih⟩ target
  | enumLabel d label => exact Rendering.follows_enumLabel d label
  | enumById d e ih => exact Rendering.follows_enumById d ⟨rfl, ih⟩
  | method r m args ihr ihargs => exact Rendering.follows_methodCall ⟨rfl, ihr⟩ m (follows_parts ihargs)

/-- From every session, writing an expression gives what its emission says and registers what that needs. -/
theorem Session.write_eq (s : Session) (e : Expr) :
    s.write e = (s.register (e.emit s.context).needs, (e.emit s.context).outcome) := by
  have hwrite : Renderer.Follows s.context id (Fragment.text <$> e.renderer) (e.emit s.context) :=
    (follows_renderer s.context e).bind fun _ => Renderer.follows_pure rfl
  have hid : (e.emit s.context).outcome.map id = (e.emit s.context).outcome := by
    cases (e.emit s.context).outcome <;> rfl
  rw [Session.write, hwrite s rfl, hid]

end ExprToCpp
