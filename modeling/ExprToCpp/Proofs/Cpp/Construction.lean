import ExprToCpp.Proofs.Cpp.NumberLiteral
import ExprToCpp.Proofs.Cpp.StringLiteral

/-!
# Constructions of vectors

How many vectors the text of a C++ expression constructs: the places outside string literals where `new std::vector<` stands. As
long as no name holds a blank or a quote, these are the `new` nodes of the tree, one for one (`constructionsIn_render`).
-/

namespace ExprToCpp.Cpp

open Reader

/-! ## Counting in a text -/

/-- What the construction of a vector begins with. -/
def vectorHead : List Char := "new std::vector<".toList

/-- The head of a construction begins with a letter, and a blank follows soon. -/
theorem vectorHead_eq : vectorHead = 'n' :: ("ew ".toList ++ "std::vector<".toList) := rfl

/-- The number of vectors that a text constructs. A string literal is passed over as a whole; what is no literal ends the count. -/
def constructionsIn (cs : List Char) : Nat :=
  match cs with
  | [] => 0
  | c :: r =>
    if c = '"' then
      match Escape.readLiteral r with
      | none => 0
      | some (_, rest) => if rest.length ≤ r.length then constructionsIn rest else 0
    else (if vectorHead.isPrefixOf (c :: r) then 1 else 0) + constructionsIn r
termination_by cs.length
decreasing_by all_goals simp only [List.length_cons]; omega

/-- A string literal constructs nothing, whatever stands in it. -/
theorem constructionsIn_literal (style : Escape.Style) (bytes : List UInt8) (r : List Char) :
    constructionsIn (("\"" ++ Escape.body style bytes ++ "\"").toList ++ r) = constructionsIn r := by
  have htext : ("\"" ++ Escape.body style bytes ++ "\"").toList ++ r =
      '"' :: ((Escape.body style bytes).toList ++ '"' :: r) := by simp
  have hread := Escape.readLiteral_body style bytes r
  rw [htext, constructionsIn]
  simp only [if_true, hread, List.length_append, List.length_cons]
  rw [if_pos (by omega)]

/-- Outside a literal, a construction is counted where its head begins. -/
theorem constructionsIn_cons {c : Char} (hc : c ≠ '"') (r : List Char) :
    constructionsIn (c :: r) = (if vectorHead.isPrefixOf (c :: r) then 1 else 0) + constructionsIn r := by
  rw [constructionsIn, if_neg hc]

theorem constructionsIn_cons_of_isPrefixOf {c : Char} {r : List Char} (hc : c ≠ '"')
    (h : vectorHead.isPrefixOf (c :: r) = true) : constructionsIn (c :: r) = 1 + constructionsIn r := by
  simp [constructionsIn_cons hc, h]

theorem constructionsIn_cons_of_not_isPrefixOf {c : Char} {r : List Char} (hc : c ≠ '"')
    (h : vectorHead.isPrefixOf (c :: r) = false) : constructionsIn (c :: r) = constructionsIn r := by
  simp [constructionsIn_cons hc, h]

/-- A construction begins with its first letter only. -/
theorem constructionsIn_symbol {c : Char} (hc : c ≠ 'n' ∧ c ≠ '"') (r : List Char) :
    constructionsIn (c :: r) = constructionsIn r := by
  refine constructionsIn_cons_of_not_isPrefixOf hc.2 ?_
  rw [Bool.eq_false_iff]
  intro hprefix
  rw [vectorHead_eq, List.isPrefixOf_iff_prefix, List.cons_prefix_cons] at hprefix
  exact hc.1 hprefix.1.symm

/-- A text without blanks or quotes. -/
def IsSolid (s : String) : Prop := ∀ c ∈ s.toList, c ≠ ' ' ∧ c ≠ '"'

instance (s : String) : Decidable (IsSolid s) := inferInstanceAs (Decidable (∀ c ∈ s.toList, _))

theorem isSolid_append {s t : String} : IsSolid (s ++ t) ↔ IsSolid s ∧ IsSolid t := by
  simp only [IsSolid, String.toList_append, List.forall_mem_append]

/-- Whether what follows a text without blanks can be no part of a construction that begins inside it. -/
def follows : List Char → Bool
  | [] => true
  | c :: r => c != 'e' && c != 'w' && !(c == ' ' && r.head? == some 's')

/-- The word `new` before the blank of a construction is not the end of a text that is followed in this way. -/
theorem not_isPrefixOf_vectorHead {c : Char} {w r : List Char} (hw : ∀ d ∈ w, d ≠ ' ') (hr : follows r = true) :
    vectorHead.isPrefixOf (c :: (w ++ r)) = false := by
  rw [Bool.eq_false_iff]
  intro hprefix
  have hhead : vectorHead = 'n' :: 'e' :: 'w' :: ' ' :: 's' :: "td::vector<".toList := rfl
  rw [hhead, List.isPrefixOf_iff_prefix, List.cons_prefix_cons] at hprefix
  obtain ⟨-, hprefix⟩ := hprefix
  -- `new` ends in the text or right after it, and the fourth character is a blank, which the text does not have
  match w with
  | [] =>
    obtain ⟨t, rfl⟩ := hprefix
    cases hr
  | [_] =>
    rw [List.cons_append, List.cons_prefix_cons] at hprefix
    obtain ⟨-, t, rfl⟩ := hprefix
    cases hr
  | [_, _] =>
    rw [List.cons_append, List.cons_append, List.cons_prefix_cons, List.cons_prefix_cons] at hprefix
    obtain ⟨-, -, t, rfl⟩ := hprefix
    cases hr
  | _ :: _ :: d :: _ =>
    simp only [List.cons_append, List.cons_prefix_cons] at hprefix
    exact hw d (by simp) hprefix.2.2.1.symm

/-! ## Counting in a part of a text -/

/-- A text constructs a number of vectors wherever it stands. -/
def Constructs (s : String) (n : Nat) : Prop :=
  ∀ r, follows r = true → constructionsIn (s.toList ++ r) = n + constructionsIn r

/-- A text with no quote and no letter that a construction begins with. -/
def IsSymbols (s : String) : Prop := ∀ c ∈ s.toList, c ≠ 'n' ∧ c ≠ '"'

instance (s : String) : Decidable (IsSymbols s) := inferInstanceAs (Decidable (∀ c ∈ s.toList, _))

/-- Symbols construct nothing. -/
theorem constructionsIn_symbols {s : String} (hs : IsSymbols s) (r : List Char) :
    constructionsIn (s.toList ++ r) = constructionsIn r := by
  rw [IsSymbols] at hs
  generalize s.toList = cs at hs ⊢
  induction cs with
  | nil => rfl
  | cons c cs ih =>
    rw [List.cons_append, constructionsIn_symbol (hs c List.mem_cons_self)]
    exact ih fun d hd => hs d (List.mem_cons_of_mem c hd)

namespace Constructs

variable {s t : String} {m n : Nat}

/-- A solid text constructs nothing, as the head of a construction has a blank in it. -/
theorem solid (hs : IsSolid s) : Constructs s 0 := by
  intro r hr
  rw [Nat.zero_add]
  rw [IsSolid] at hs
  generalize s.toList = cs at hs ⊢
  induction cs with
  | nil => rfl
  | cons c cs ih =>
    have hcs : ∀ d ∈ cs, d ≠ ' ' ∧ d ≠ '"' := fun d hd => hs d (List.mem_cons_of_mem c hd)
    have hhead := not_isPrefixOf_vectorHead (c := c) (fun d hd => (hcs d hd).1) hr
    rw [List.cons_append, constructionsIn_cons_of_not_isPrefixOf (hs c List.mem_cons_self).2 hhead]
    exact ih hcs

theorem literal (style : Escape.Style) (bytes : List UInt8) : Constructs ("\"" ++ Escape.body style bytes ++ "\"") 0 := by
  intro r _
  rw [constructionsIn_literal, Nat.zero_add]

theorem after {sep : String} (hsep : IsSymbols sep) (h : Constructs s n) : Constructs (sep ++ s) n := by
  intro r hr
  rw [String.toList_append, List.append_assoc, constructionsIn_symbols hsep, h r hr]

/-- Two texts construct what each of them constructs, if no head begins in the first one and ends in the second one. -/
theorem append (hfollow : ∀ r, follows (t.toList ++ r) = true) (hs : Constructs s m) (ht : Constructs t n) :
    Constructs (s ++ t) (m + n) := by
  intro r hr
  rw [String.toList_append, List.append_assoc, hs _ (hfollow r), ht r hr, Nat.add_assoc]

/-- A text and what closes it. -/
theorem closed (close : String) (hclose : IsSolid close) (hfollow : ∀ r, follows (close.toList ++ r) = true)
    (h : Constructs s n) : Constructs (s ++ close) n :=
  h.append hfollow (solid hclose)

/-- Two texts with symbols between them. -/
theorem between (sep : String) (hsep : IsSymbols sep) (hfollow : ∀ r, follows (sep.toList ++ r) = true) (hs : Constructs s m)
    (ht : Constructs t n) : Constructs (s ++ sep ++ t) (m + n) := by
  rw [String.append_assoc]
  refine hs.append (fun r => ?_) (ht.after hsep)
  rw [String.toList_append, List.append_assoc]
  exact hfollow _

theorem paren (h : Constructs s n) : Constructs ("(" ++ s ++ ")") n :=
  (h.after (by decide)).closed ")" (by decide) fun _ => rfl

theorem group (wanted : Bool) (h : Constructs s n) : Constructs (Cpp.group wanted s) n := by
  cases wanted with
  | false => exact h
  | true => exact h.paren

/-- A call constructs what the function and its arguments construct. -/
theorem call (hs : Constructs s m) (ht : Constructs t n) : Constructs (s ++ "(" ++ t ++ ")") (m + n) :=
  (hs.between "(" (by decide) (fun _ => rfl) ht).closed ")" (by decide) fun _ => rfl

/-- A member of what a text stands for. -/
theorem member (point : String) {name : String} (hpoint : IsSolid point) (hfollow : ∀ r, follows (point.toList ++ r) = true)
    (hname : IsSolid name) (h : Constructs s n) : Constructs (s ++ point ++ name) n := by
  rw [String.append_assoc]
  refine h.closed _ (isSolid_append.2 ⟨hpoint, hname⟩) fun r => ?_
  rw [String.toList_append, List.append_assoc]
  exact hfollow _

/-- A construction is one more than its items. -/
theorem new {u : Ty} (hu : IsSolid u.render) (ht : Constructs t n) :
    Constructs ("new " ++ (Ty.vector u).render ++ "\x7b" ++ t ++ "\x7d") (1 + n) := by
  intro r hr
  have hrender : (Ty.vector u).render = "std::vector<" ++ u.render ++ ">" := rfl
  have htype : Constructs (Ty.vector u).render 0 := by
    refine solid ?_
    rw [hrender, isSolid_append, isSolid_append]
    exact ⟨⟨by decide, hu⟩, by decide⟩
  have hitems : Constructs ((Ty.vector u).render ++ "\x7b" ++ t ++ "\x7d") (0 + n) :=
    (htype.between "\x7b" (by decide) (fun _ => rfl) ht).closed "\x7d" (by decide) fun _ => rfl
  have htext : ("new " ++ (Ty.vector u).render ++ "\x7b" ++ t ++ "\x7d").toList ++ r =
      'n' :: ("ew ".toList ++ (((Ty.vector u).render ++ "\x7b" ++ t ++ "\x7d").toList ++ r)) := by simp
  have hhead : vectorHead.isPrefixOf
      ('n' :: ("ew ".toList ++ (((Ty.vector u).render ++ "\x7b" ++ t ++ "\x7d").toList ++ r))) = true := by
    have hrest : ((Ty.vector u).render ++ "\x7b" ++ t ++ "\x7d").toList ++ r =
        "std::vector<".toList ++ ((u.render ++ ">" ++ "\x7b" ++ t ++ "\x7d").toList ++ r) := by
      simp only [hrender, String.toList_append, List.append_assoc]
    rw [vectorHead_eq, List.isPrefixOf_iff_prefix, hrest, List.cons_prefix_cons, ← List.append_assoc]
    exact ⟨rfl, List.prefix_append _ _⟩
  have hew : IsSymbols "ew " := by decide
  rw [htext, constructionsIn_cons_of_isPrefixOf (by decide) hhead, constructionsIn_symbols hew, hitems r hr, Nat.zero_add,
    Nat.add_assoc]

end Constructs

/-! ## Counting in a tree -/

namespace Expr

mutual

/-- The number of vectors that an expression constructs. -/
@[simp] def constructions : Expr → Nat
  | .int _ _ | .float _ | .bool _ | .string _ _ | .name _ => 0
  | .paren e | .arrow e _ | .dot e _ | .staticCast _ e | .staticPointerCast _ e | .own _ e | .unary _ e => e.constructions
  | .call f args => f.constructions + constructionsOfAll args
  | .index e i => e.constructions + i.constructions
  | .new _ items => 1 + constructionsOfAll items
  | .binary _ l r => l.constructions + r.constructions
  | .conditional c t f => c.constructions + t.constructions + f.constructions

/-- The number of vectors that a list of expressions constructs. -/
@[simp] def constructionsOfAll : List Expr → Nat
  | [] => 0
  | e :: es => e.constructions + constructionsOfAll es

end

mutual

/-- The names in an expression hold no blanks or quotes, and all it allocates are vectors. -/
def Solid : Expr → Prop
  | .int _ _ | .float _ | .bool _ | .string _ _ => True
  | .name n => IsSolid n
  | .paren e | .unary _ e => e.Solid
  | .arrow e m | .dot e m => e.Solid ∧ IsSolid m
  | .staticCast t e | .staticPointerCast t e | .own t e => IsSolid t.render ∧ e.Solid
  | .call f args => f.Solid ∧ SolidAll args
  | .index e i => e.Solid ∧ i.Solid
  | .new t items => (∃ u, t = .vector u ∧ IsSolid u.render) ∧ SolidAll items
  | .binary _ l r => l.Solid ∧ r.Solid
  | .conditional c t f => c.Solid ∧ t.Solid ∧ f.Solid

/-- The names in a list of expressions hold no blanks or quotes. -/
def SolidAll : List Expr → Prop
  | [] => True
  | e :: es => e.Solid ∧ SolidAll es

end

theorem solidAll_iff {es : List Expr} : SolidAll es ↔ ∀ e ∈ es, e.Solid := by
  induction es with
  | nil => exact ⟨nofun, fun _ => trivial⟩
  | cons e es ih => rw [List.forall_mem_cons, ← ih]; rfl

end Expr

/-! ## The text of a tree -/

/-- Numerals have no blank and no quote. -/
theorem solid_of_isNumeralChar {c : Char} (h : IsNumeralChar c) : c ≠ ' ' ∧ c ≠ '"' := ⟨h.ne (by decide), h.ne (by decide)⟩

theorem isSolid_int (n : Nat) (s : IntSuffix) : IsSolid (toString n ++ s.text) :=
  fun c hc => solid_of_isNumeralChar (isNumeralChar_int n s c hc)

theorem isSolid_float (d : Decimal) : IsSolid (d.text floatLayout) :=
  fun c hc => solid_of_isNumeralChar (isNumeralChar_float d c hc)

/-- A call of what an angle bracket closes, such as a cast. -/
theorem constructs_templateCall {opening text : String} {n : Nat} {t : Ty} (hopening : IsSolid opening) (ht : IsSolid t.render)
    (h : Constructs text n) : Constructs (opening ++ t.render ++ ">(" ++ text ++ ")") n := by
  have hhead : IsSolid (opening ++ t.render ++ ">") := isSolid_append.2 ⟨isSolid_append.2 ⟨hopening, ht⟩, by decide⟩
  have htext : opening ++ t.render ++ ">(" ++ text ++ ")" = opening ++ t.render ++ ">" ++ "(" ++ text ++ ")" := by
    rw [← String.toList_inj]
    simp
  rw [htext, ← Nat.zero_add n]
  exact (Constructs.solid hhead).call h

/-- A list constructs what its items construct. -/
theorem constructs_renderList {es : List Expr} (h : ∀ e ∈ es, Constructs e.render e.constructions) :
    Constructs (Expr.renderList es) (Expr.constructionsOfAll es) := by
  induction es with
  | nil => exact .solid (by decide)
  | cons e es ih =>
    have he := h e List.mem_cons_self
    have hes := ih fun x hx => h x (List.mem_cons_of_mem e hx)
    cases es with
    | nil => exact he
    | cons e' es => exact he.between ", " (by decide) (fun _ => rfl) hes

/-- Between its operands stands an operator, and after its blank no letter. -/
theorem constructs_binary (op : BinaryOp) {s t : String} {m n : Nat} (hs : Constructs s m) (ht : Constructs t n) :
    Constructs (s ++ " " ++ op.symbol ++ " " ++ t) (m + n) := by
  have hsymbols : IsSymbols (" " ++ op.symbol ++ " ") := by cases op <;> decide
  have hfollow : ∀ r, follows ((" " ++ op.symbol ++ " ").toList ++ r) = true := by
    intro r
    cases op <;> rfl
  have htext : s ++ " " ++ op.symbol ++ " " ++ t = s ++ (" " ++ op.symbol ++ " ") ++ t := by
    rw [← String.toList_inj]
    simp
  rw [htext]
  exact hs.between _ hsymbols hfollow ht

/-- A prefix operator constructs what its operand constructs. -/
theorem constructs_unary (op : PrefixOp) {s : String} {n : Nat} (h : Constructs s n) : Constructs (Expr.unaryText op s) n :=
  (h.group _).after (by rcases op with (_ | _ | _) | _ <;> decide)

/-- The text of an expression constructs as many vectors as the expression. -/
theorem constructs_render {e : Expr} (h : e.Solid) : Constructs e.render e.constructions := by
  induction e with
  | int n s => exact .solid (isSolid_int n s)
  | float d => exact .solid (isSolid_float d)
  | bool b => cases b <;> exact .solid (by decide)
  | string style bytes => exact .literal style bytes
  | name n => exact .solid h
  | paren e ih => exact (ih h).paren
  | call f args ihf ihargs =>
    have hargs := Expr.solidAll_iff.1 h.2
    exact ((ihf h.1).group _).call (constructs_renderList fun e he => ihargs e he (hargs e he))
  | arrow e m ih => exact ((ih h.1).group _).member "->" (by decide) (fun _ => rfl) h.2
  | dot e m ih => exact ((ih h.1).group _).member "." (by decide) (fun _ => rfl) h.2
  | index e i ihe ihi =>
    exact (((ihe h.1).group _).between "[" (by decide) (fun _ => rfl) (ihi h.2)).closed "]" (by decide) fun _ => rfl
  | staticCast t e ih => exact constructs_templateCall (by decide) h.1 (ih h.2)
  | staticPointerCast t e ih => exact constructs_templateCall (by decide) h.1 (ih h.2)
  | new t items ih =>
    obtain ⟨⟨u, rfl, hu⟩, hitems⟩ := h
    rw [Expr.solidAll_iff] at hitems
    exact .new hu (constructs_renderList fun e he => ih e he (hitems e he))
  | own t e ih =>
    have hhead : IsSolid (Ty.unique t).render := isSolid_append.2 ⟨isSolid_append.2 ⟨by decide, h.1⟩, by decide⟩
    have hcall := (Constructs.solid hhead).call (ih h.2)
    rwa [Nat.zero_add] at hcall
  | unary op e ih => exact constructs_unary op ((ih h).group _)
  | binary op l r ihl ihr => exact constructs_binary op ((ihl h.1).group _) ((ihr h.2).group _)
  | conditional c t f ihc iht ihf =>
    exact ((ihc h.1).between " ? " (by decide) (fun _ => rfl) (iht h.2.1)).between " : " (by decide) (fun _ => rfl) (ihf h.2.2)

/-- As many vectors are constructed in the text of an expression as in the expression. -/
theorem constructionsIn_render {e : Expr} (h : e.Solid) : constructionsIn e.render.toList = e.constructions := by
  have hcount := constructs_render h [] rfl
  rwa [List.append_nil, constructionsIn, Nat.add_zero] at hcount

end ExprToCpp.Cpp
