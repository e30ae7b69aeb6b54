import ExprToCpp.Proofs.Cpp.Scopes

/-!
# How deep the marks of a text stand

The marks of a text are the characters that belong to no word, number or literal, parentheses apart; how many parentheses stand
around a mark is its depth. A `Nesting` says at which depths the marks of a form may stand: those of an operand that binds too
loosely for its place all stand deeper than the operator. Parentheses leave no trace in a tree, but they do in the depths: whatever
is read as a tree has its marks where the tree allows them (`fits_of_read`, `fits_of_readJoined`).
-/

namespace ExprToCpp.Cpp

/-! ## Marks -/

/-- The number of marks in a text without parentheses. -/
def marksIn (text : String) : Nat := text.toList.countP fun c => !Lexer.isWordChar c

theorem marksIn_append (s t : String) : marksIn (s ++ t) = marksIn s + marksIn t := by
  rw [marksIn, String.toList_append, List.countP_append]
  rfl

/-- The number of marks in a token. -/
def Token.marks : Token → Nat
  | .word w => marksIn w
  | .punct p => p.chars.length
  | .number _ | .string _ => 0

/-- The depths of the marks of tokens that stand in `d` parentheses. There are none if a punctuator stands in no expression. -/
def depths : Nat → List Token → Option (List Nat)
  | _, [] => some []
  | _, .punct (.foreign _) :: _ => none
  | d, .punct .lparen :: ts => depths (d + 1) ts
  | d, .punct .rparen :: ts => depths (d - 1) ts
  | d, t :: ts => (depths d ts).map (List.replicate t.marks d ++ ·)

/-- Whether a token has its marks at the depth it stands at, and changes nothing after it. -/
def Token.isFlat : Token → Bool
  | .punct (.foreign _) | .punct .lparen | .punct .rparen => false
  | _ => true

/-- A flat token has its marks at the depth it stands at. -/
theorem depths_cons {t : Token} (ht : t.isFlat = true) (d : Nat) (ts : List Token) :
    depths d (t :: ts) = (depths d ts).map (List.replicate t.marks d ++ ·) := by
  rw [depths.eq_def]
  split <;> simp_all [Token.isFlat]

/-- Only the token itself decides how the marks after it come out. -/
theorem depths_cons_congr {ts us : List Token} (h : ∀ d, depths d ts = depths d us) (x : Token) (d : Nat) :
    depths d (x :: ts) = depths d (x :: us) := by
  rw [depths.eq_def, depths.eq_def]
  split <;> simp_all

/-- A qualified name taken for one word has the marks of its words and of the `::` between them. -/
theorem depths_joinNames (ts : List Token) (d : Nat) : depths d (Reader.joinNames ts) = depths d ts := by
  fun_induction Reader.joinNames ts generalizing d with
  | case1 => rfl
  | case2 w rest v names hjoined ih =>
    have hmarks : (Token.word (w ++ "::" ++ v)).marks = (Token.word w).marks + (2 + (Token.word v).marks) := by
      rw [Token.marks, marksIn_append, marksIn_append, show marksIn "::" = 2 by decide, Nat.add_assoc]
      rfl
    rw [depths_cons rfl, depths_cons rfl, depths_cons rfl, ← ih d, hjoined, depths_cons rfl, hmarks]
    simp only [Option.map_map, Function.comp_def, ← List.replicate_append_replicate, List.append_assoc]
    rfl
  | case3 w rest hword ih =>
    exact depths_cons_congr (fun d => depths_cons_congr ih _ d) _ d
  | case4 x rest hword ih => exact depths_cons_congr ih x d

/-! ## Nestings -/

/-- The depths that the marks of a form may have where it stands in a number of parentheses. The form has so many marks, and none
is less deep than the form. -/
structure Nesting where
  size : Nat
  Fits : Nat → List Nat → Prop
  length_eq : ∀ {d : Nat} {ds : List Nat}, Fits d ds → ds.length = size
  le_of_mem : ∀ {d : Nat} {ds : List Nat}, Fits d ds → ∀ x ∈ ds, d ≤ x

namespace Nesting

/-- Marks of the form itself. -/
def marks (n : Nat) : Nesting where
  size := n
  Fits d ds := ds = List.replicate n d
  length_eq := by
    rintro d _ rfl
    exact List.length_replicate
  le_of_mem := by
    rintro d _ rfl x hx
    exact (List.eq_of_mem_replicate hx).ge

/-- One form after another. -/
def seq (A B : Nesting) : Nesting where
  size := A.size + B.size
  Fits d ds := ∃ as bs, ds = as ++ bs ∧ A.Fits d as ∧ B.Fits d bs
  length_eq := by
    rintro d _ ⟨as, bs, rfl, ha, hb⟩
    rw [List.length_append, A.length_eq ha, B.length_eq hb]
  le_of_mem := by
    rintro d _ ⟨as, bs, rfl, ha, hb⟩ x hx
    rcases List.mem_append.1 hx with hx | hx
    · exact A.le_of_mem ha x hx
    · exact B.le_of_mem hb x hx

/-- A form in parentheses. -/
def enclosed (A : Nesting) : Nesting where
  size := A.size
  Fits d ds := A.Fits (d + 1) ds
  length_eq := A.length_eq
  le_of_mem := fun h x hx => Nat.le_of_succ_le (A.le_of_mem h x hx)

/-- A form in as many parentheses as one likes; in none only where it may stand bare. -/
def operand (bare : Prop) (A : Nesting) : Nesting where
  size := A.size
  Fits d ds := ∃ n, (n = 0 → bare) ∧ A.Fits (d + n) ds
  length_eq := fun ⟨_, _, h⟩ => A.length_eq h
  le_of_mem := fun ⟨n, _, h⟩ x hx => Nat.le_trans (Nat.le_add_right _ n) (A.le_of_mem h x hx)

end Nesting

/-- How tightly the root of a tree binds. -/
def Tree.rank : Tree → Nat
  | .int _ _ | .float _ | .bool _ | .string _ | .name _ | .template _ _ => BindingLevel.primary.rank
  | .call _ _ | .arrow _ _ | .dot _ _ | .index _ _ | .staticCast _ _ => BindingLevel.access.rank
  | .new _ _ | .unary _ _ => BindingLevel.unary.rank
  | .binary op _ _ => op.level.rank
  | .conditional _ _ _ => BindingLevel.conditional.rank

open Nesting in
mutual

/-- The depths of the marks of a tree that stands bare. -/
def Tree.nesting : Tree → Nesting
  | .int _ _ | .float _ | .bool _ | .string _ => marks 0
  | .name n => marks (marksIn n)
  | .template n t => marks (marksIn n + (1 + (marksIn t.render + 1)))
  | .call f args => (operand (BindingLevel.access.rank ≤ f.rank) f.nesting).seq (nestings args).enclosed
  | .arrow e m => (operand (BindingLevel.access.rank ≤ e.rank) e.nesting).seq ((marks 2).seq (marks (marksIn m)))
  | .dot e m => (operand (BindingLevel.access.rank ≤ e.rank) e.nesting).seq ((marks 1).seq (marks (marksIn m)))
  | .index e i =>
    (operand (BindingLevel.access.rank ≤ e.rank) e.nesting).seq
      ((marks 1).seq ((operand (0 ≤ i.rank) i.nesting).seq (marks 1)))
  | .staticCast t e => (marks (1 + (marksIn t.render + 1))).seq (operand (0 ≤ e.rank) e.nesting).enclosed
  | .new t items => (marks (marksIn t.render + 1)).seq ((nestings items).seq (marks 1))
  | .unary _ e => (marks 1).seq (operand (BindingLevel.unary.rank ≤ e.rank) e.nesting)
  | .binary op l r =>
    (operand (op.level.rank ≤ l.rank) l.nesting).seq
      ((marks op.symbol.toList.length).seq (operand (op.level.rank + 1 ≤ r.rank) r.nesting))
  | .conditional c t f =>
    (operand (0 ≤ c.rank) c.nesting).seq
      ((marks 1).seq ((operand (0 ≤ t.rank) t.nesting).seq ((marks 1).seq (operand (0 ≤ f.rank) f.nesting))))

/-- The depths of the marks of trees with commas between them. -/
def nestings : List Tree → Nesting
  | [] => marks 0
  | [t] => operand (0 ≤ t.rank) t.nesting
  | t :: ts => (operand (0 ≤ t.rank) t.nesting).seq ((marks 1).seq (nestings ts))

end

/-- A comma stands between an item and those after it. -/
theorem nestings_cons (t : Tree) {ts : List Tree} (hts : ts ≠ []) :
    nestings (t :: ts) = (Nesting.operand (0 ≤ t.rank) t.nesting).seq ((Nesting.marks 1).seq (nestings ts)) := by
  obtain ⟨u, us, rfl⟩ := List.exists_cons_of_ne_nil hts
  rfl

/-- The depths of the marks of a tree in the place of an operand that binds as tightly as a rank. -/
def Tree.inPlace (k : Nat) (t : Tree) : Nesting := t.nesting.operand (k ≤ t.rank)

/-! ## Tokens that are taken -/

/-- The tokens that are taken before `r` have their marks where a form allows them. -/
def Yields (A : Nesting) (ts r : List Token) : Prop :=
  ∀ d, ∃ ds, A.Fits d ds ∧ depths d ts = (depths d r).map (ds ++ ·)

namespace Yields

open Nesting

variable {A B : Nesting} {ts us r : List Token} {m n j k : Nat}

theorem nothing (r : List Token) : Yields (marks 0) r r := fun d => ⟨[], rfl, by simp⟩

/-- What is taken in two steps has its marks one after the other. -/
theorem seq (h : Yields A ts us) (h' : Yields B us r) : Yields (A.seq B) ts r := by
  intro d
  obtain ⟨as, ha, hts⟩ := h d
  obtain ⟨bs, hb, hus⟩ := h' d
  refine ⟨as ++ bs, ⟨as, bs, rfl, ha, hb⟩, ?_⟩
  rw [hts, hus, Option.map_map]
  congr 1
  funext ds
  exact (List.append_assoc as bs ds).symm

/-- Marks after marks. -/
theorem marks_add (h : Yields (marks m) ts us) (h' : Yields (marks n) us r) : Yields (marks (m + n)) ts r := by
  intro d
  obtain ⟨_, ⟨as, bs, rfl, rfl, rfl⟩, hts⟩ := h.seq h' d
  exact ⟨_, rfl, by rw [← List.replicate_append_replicate, hts]⟩

theorem token {t : Token} (ht : t.isFlat = true) (r : List Token) : Yields (marks t.marks) (t :: r) r :=
  fun d => ⟨_, rfl, depths_cons ht d r⟩

/-- What is taken between parentheses stands one deeper. -/
theorem enclosed (h : Yields A ts (.punct .rparen :: r)) : Yields A.enclosed (.punct .lparen :: ts) r := by
  intro d
  obtain ⟨ds, hfits, hts⟩ := h (d + 1)
  exact ⟨ds, hfits, hts⟩

/-- What may stand bare. -/
theorem bare {t : Tree} (h : Yields t.nesting ts r) (hk : k ≤ t.rank) : Yields (t.inPlace k) ts r := by
  intro d
  obtain ⟨ds, hfits, hts⟩ := h d
  exact ⟨ds, ⟨0, fun _ => hk, hfits⟩, hts⟩

/-- What stands in parentheses has room everywhere. -/
theorem grouped {t : Tree} (h : Yields (t.inPlace j) ts (.punct .rparen :: r)) :
    Yields (t.inPlace k) (.punct .lparen :: ts) r := by
  intro d
  obtain ⟨ds, ⟨n, -, hfits⟩, hts⟩ := h (d + 1)
  refine ⟨ds, ⟨n + 1, nofun, ?_⟩, hts⟩
  rwa [Nat.add_comm n 1, ← Nat.add_assoc]

theorem mono {t : Tree} (hjk : j ≤ k) (h : Yields (t.inPlace k) ts r) : Yields (t.inPlace j) ts r := by
  intro d
  obtain ⟨ds, ⟨n, hbare, hfits⟩, hts⟩ := h d
  exact ⟨ds, ⟨n, fun hn => Nat.le_trans hjk (hbare hn), hfits⟩, hts⟩

end Yields

namespace Reader

open Nesting

variable {ts us r : List Token}

/-! ## Names and types -/

/-- The `::` in a qualified name has two marks. -/
theorem marksIn_joinWords_cons (w v : String) (ws : List String) :
    marksIn (joinWords (w :: v :: ws)) = marksIn w + (2 + marksIn (joinWords (v :: ws))) := by
  have hscope : marksIn "::" = 2 := by decide
  rw [joinWords, String.intercalate_cons_cons, marksIn_append, marksIn_append, hscope, joinWords, Nat.add_assoc]

/-- The words of a name are taken with the marks of the name. -/
theorem yields_readWords {ws : List String} (h : readWords ts = some (ws, r)) :
    ws ≠ [] ∧ Yields (marks (marksIn (joinWords ws))) ts r := by
  fun_induction readWords ts generalizing ws with
  | case1 w rest ih =>
    obtain ⟨⟨vs, r'⟩, hrest, heq⟩ := Option.map_eq_some_iff.1 h
    obtain ⟨rfl, rfl⟩ := Prod.mk.inj heq
    obtain ⟨hne, hyields⟩ := ih hrest
    obtain ⟨v, vs, rfl⟩ := List.exists_cons_of_ne_nil hne
    refine ⟨List.cons_ne_nil _ _, ?_⟩
    rw [marksIn_joinWords_cons]
    exact (Yields.token (t := .word w) rfl _).marks_add ((Yields.token (t := .punct .scope) rfl _).marks_add hyields)
  | case2 w rest _ =>
    obtain ⟨rfl, rfl⟩ := Prod.mk.inj (Option.some.inj h)
    rw [joinWords, String.intercalate_singleton]
    exact ⟨List.cons_ne_nil _ _, Yields.token (t := .word w) rfl rest⟩
  | case3 => cases h

/-- A closing bracket is one mark, also where it is split from another. -/
theorem yields_closeAngle (h : closeAngle ts = some r) : Yields (marks 1) ts r := by
  fun_cases closeAngle ts with
  | case1 rest =>
    obtain rfl := Option.some.inj h
    exact Yields.token (t := .punct (.op .gt)) rfl rest
  | case2 rest =>
    obtain rfl := Option.some.inj h
    -- the token that is split has two marks, what is left of it one
    intro d
    refine ⟨_, rfl, ?_⟩
    rw [depths_cons rfl, depths_cons rfl, Option.map_map]
    rfl
  | case3 => simp_all [closeAngle]

/-- The stars after a type are marks of it. -/
theorem yields_readStars {t t' : Ty} (h : readStars t us = (t', r)) (ht : Yields (marks (marksIn t.render)) ts us) :
    Yields (marks (marksIn t'.render)) ts r := by
  fun_induction readStars t us with
  | case1 t rest ih =>
    refine ih h ?_
    have hstar : marksIn (Ty.pointer t).render = marksIn t.render + 1 := marksIn_append t.render "*"
    rw [hstar]
    exact ht.marks_add (Yields.token (t := .punct (.op .mul)) rfl rest)
  | case2 t rest _ =>
    obtain ⟨rfl, rfl⟩ := Prod.mk.inj h
    exact ht

/-- A class template is written before its argument in brackets. -/
theorem render_classTemplate {n : String} {make : Ty → Ty} (h : classTemplate? n = some make) (t : Ty) :
    (make t).render = n ++ "<" ++ t.render ++ ">" := by
  unfold classTemplate? at h
  split at h
  · obtain rfl := Option.some.inj h
    subst n
    rfl
  · split at h
    · obtain rfl := Option.some.inj h
      subst n
      rfl
    · split at h
      · obtain rfl := Option.some.inj h
        subst n
        rfl
      · cases h

/-- The marks of an argument and of the brackets around it. -/
theorem marksIn_argument (n : String) (t : Ty) :
    marksIn (n ++ "<" ++ t.render ++ ">") = marksIn n + (1 + (marksIn t.render + 1)) := by
  have hopen : marksIn "<" = 1 := by decide
  have hclose : marksIn ">" = 1 := by decide
  rw [marksIn_append, marksIn_append, marksIn_append, hopen, hclose, Nat.add_assoc, Nat.add_assoc]

/-- A type is taken with the marks of its text. -/
theorem yields_readType {t : Ty} (h : readType ts = some (t, r)) : Yields (marks (marksIn t.render)) ts r := by
  fun_induction readType ts generalizing t r with
  | case2 ts ws _ make rest htemplate _ u rest' hu hwords ih =>
    obtain ⟨after, hclose, hstars⟩ := Option.map_eq_some_iff.1 h
    refine yields_readStars hstars ?_
    rw [render_classTemplate htemplate, marksIn_argument]
    exact (yields_readWords hwords).2.marks_add
      ((Yields.token (t := .punct (.op .lt)) rfl _).marks_add ((ih hu).marks_add (yields_closeAngle hclose)))
  | case6 ts ws _ rest _ hwords => exact yields_readStars (Option.some.inj h) (yields_readWords hwords).2
  | _ => cases h

theorem yields_readArgument {t : Ty} (h : readArgument ts = some (t, r)) : Yields (marks (1 + (marksIn t.render + 1))) ts r := by
  revert h
  fun_cases readArgument ts with
  | case1 rest u rest' hu =>
    intro h
    obtain ⟨after, hclose, heq⟩ := Option.map_eq_some_iff.1 h
    obtain ⟨rfl, rfl⟩ := Prod.mk.inj heq
    exact (Yields.token (t := .punct (.op .lt)) rfl _).marks_add ((yields_readType hu).marks_add (yields_closeAngle hclose))
  | _ =>
    intros
    contradiction

theorem access_le_primary : BindingLevel.access.rank ≤ BindingLevel.primary.rank := by decide

/-- A name or a template is taken with the marks of its text. -/
theorem yields_readName {t : Tree} (h : readName ts = some (t, r)) : Yields (t.inPlace BindingLevel.access.rank) ts r := by
  revert h
  fun_cases readName ts with
  | case4 ws rest hwords _ _ u w rest' harg _ =>
    intro h
    obtain ⟨rfl, rfl⟩ := Prod.mk.inj (Option.some.inj h)
    refine Yields.bare ?_ access_le_primary
    have hmarks : marksIn (joinWords ws ++ "<" ++ u.render ++ ">::" ++ w) =
        marksIn (joinWords ws) + (1 + (marksIn u.render + 1) + (2 + marksIn w)) := by
      have hopen : marksIn "<" = 1 := by decide
      have hclose : marksIn ">::" = 3 := by decide
      rw [marksIn_append, marksIn_append, marksIn_append, marksIn_append, hopen, hclose]
      omega
    rw [Tree.nesting, hmarks]
    exact (yields_readWords hwords).2.marks_add ((yields_readArgument harg).marks_add
      ((Yields.token (t := .punct .scope) rfl _).marks_add (Yields.token (t := .word w) rfl _)))
  | case5 ws rest hwords _ _ u rest' _ harg =>
    intro h
    obtain ⟨rfl, rfl⟩ := Prod.mk.inj (Option.some.inj h)
    refine Yields.bare ?_ access_le_primary
    rw [Tree.nesting]
    exact (yields_readWords hwords).2.marks_add (yields_readArgument harg)
  | case6 ws rest hwords _ _ =>
    intro h
    obtain ⟨rfl, rfl⟩ := Prod.mk.inj (Option.some.inj h)
    refine Yields.bare ?_ access_le_primary
    rw [Tree.nesting]
    exact (yields_readWords hwords).2
  | _ =>
    intros
    contradiction

/-! ## Expressions -/

/-- If an operator follows, it binds looser than a rank. -/
def Below (k : Nat) (r : List Token) : Prop := ∀ op r', r = .punct (.op op) :: r' → op.level.rank < k

/-- What every reader takes from tokens has its marks where the tree it gives allows them. Readers that go on with a tree are given
the tokens from its beginning on. -/
structure Sound (ts : List Token) : Prop where
  expr : ∀ {t r}, readExpr ts = some (t, r) → Yields (t.inPlace 0) ts r
  binary : ∀ {least t r}, least ≤ BindingLevel.unary.rank → readBinary least ts = some (t, r) →
    Yields (t.inPlace least) ts r ∧ Below least r
  operators : ∀ {least k l t r us}, least ≤ k → Below (k + 1) ts → Yields (l.inPlace k) us ts →
    readOperators least l ts = some (t, r) → Yields (t.inPlace least) us r ∧ Below least r
  unary : ∀ {t r}, readUnary ts = some (t, r) → Yields (t.inPlace BindingLevel.unary.rank) ts r
  accesses : ∀ {e t r us}, Yields (e.inPlace BindingLevel.access.rank) us ts → readPostfix e ts = some (t, r) →
    Yields (t.inPlace BindingLevel.access.rank) us r
  list : ∀ {close items r}, readList close ts = some (items, r) → Yields (nestings items) ts (.punct close :: r)
  items : ∀ {close items r}, readItems close ts = some (items, r) → items ≠ [] ∧ Yields (nestings items) ts (.punct close :: r)

/-- A prefix operator is one mark. -/
theorem prefixOp?_spec {p : Punct} {op : PrefixOp} (h : prefixOp? p = some op) :
    (Token.punct p).isFlat = true ∧ (Token.punct p).marks = 1 := by
  unfold prefixOp? at h
  split at h
  · exact ⟨rfl, rfl⟩
  · exact ⟨rfl, rfl⟩
  · exact ⟨rfl, rfl⟩
  · exact ⟨rfl, rfl⟩
  · cases h

section

variable (ih : ∀ us : List Token, us.length < ts.length → Sound us) {t : Tree}

/-- A number has no mark. -/
theorem yields_readNumber {n : String} (h : readNumber n.toList = some t) (r : List Token) :
    Yields (t.inPlace BindingLevel.access.rank) (.number n :: r) r := by
  have hnumber : t.rank = BindingLevel.primary.rank ∧ t.nesting = marks 0 := by
    revert h
    fun_cases readNumber n.toList with
    | case2 =>
      intro h
      obtain rfl := Option.some.inj h
      exact ⟨rfl, rfl⟩
    | case3 =>
      intro h
      obtain ⟨e, -, rfl⟩ := Option.map_eq_some_iff.1 h
      exact ⟨rfl, rfl⟩
    | _ =>
    intros
    contradiction
  refine Yields.bare ?_ (by rw [hnumber.1]; exact access_le_primary)
  rw [hnumber.2]
  exact Yields.token (t := .number n) rfl r

include ih

/-- A primary expression is bare, or stands in parentheses. -/
theorem yields_readPrimary (h : readPrimary ts = some (t, r)) : Yields (t.inPlace BindingLevel.access.rank) ts r := by
  revert h ih
  fun_cases readPrimary ts with
  | case1 n rest =>
    intro _ h
    obtain ⟨u, hu, heq⟩ := Option.map_eq_some_iff.1 h
    obtain ⟨rfl, rfl⟩ := Prod.mk.inj heq
    exact yields_readNumber hu _
  | case2 bytes rest =>
    intro _ h
    obtain ⟨rfl, rfl⟩ := Prod.mk.inj (Option.some.inj h)
    exact Yields.bare (Yields.token (t := .string bytes) rfl rest) access_le_primary
  | case3 rest e rest' he =>
    intro ih h
    obtain ⟨rfl, rfl⟩ := Prod.mk.inj (Option.some.inj h)
    exact ((ih rest (Nat.lt_succ_self _)).expr he).grouped
  | case5 rest =>
    intro _ h
    obtain ⟨rfl, rfl⟩ := Prod.mk.inj (Option.some.inj h)
    exact Yields.bare (Yields.token (t := .word "true") rfl rest) access_le_primary
  | case6 rest =>
    intro _ h
    obtain ⟨rfl, rfl⟩ := Prod.mk.inj (Option.some.inj h)
    exact Yields.bare (Yields.token (t := .word "false") rfl rest) access_le_primary
  | case7 rest u rest' harg hlen e rest'' he =>
    intro ih h
    obtain ⟨rfl, rfl⟩ := Prod.mk.inj (Option.some.inj h)
    have hvalue := ((ih rest' (Nat.lt_succ_of_lt hlen)).expr he).enclosed
    have htarget := (Yields.token (t := .word "static_cast") rfl rest).marks_add (yields_readArgument harg)
    rw [show (Token.word "static_cast").marks = 0 by decide, Nat.zero_add] at htarget
    refine Yields.bare ?_ (Nat.le_refl BindingLevel.access.rank)
    rw [Tree.nesting]
    exact htarget.seq hvalue
  | case11 w rest => exact fun _ h => yields_readName h
  | _ =>
    intros
    contradiction

/-- Accesses are taken after what they are accesses of. -/
theorem yields_readPostfix {e : Tree} (he : Yields (e.inPlace BindingLevel.access.rank) us ts)
    (h : readPostfix e ts = some (t, r)) : Yields (t.inPlace BindingLevel.access.rank) us r := by
  revert h ih he
  fun_cases readPostfix e ts with
  | case1 rest args rest' hargs hlen =>
    intro ih he h
    have hcall : Yields (Tree.call e args).nesting us rest' := by
      rw [Tree.nesting]
      exact he.seq ((ih rest (Nat.lt_succ_self _)).list hargs).enclosed
    exact (ih rest' (Nat.lt_succ_of_lt hlen)).accesses (hcall.bare (Nat.le_refl BindingLevel.access.rank)) h
  | case4 rest i rest' hi hlen =>
    intro ih he h
    have hindex : Yields (Tree.index e i).nesting us rest' := by
      rw [Tree.nesting]
      exact he.seq ((Yields.token (t := .punct .lbracket) rfl rest).seq
        (((ih rest (Nat.lt_succ_self _)).expr hi).seq (Yields.token (t := .punct .rbracket) rfl rest')))
    exact (ih rest' (Nat.lt_succ_of_lt hlen)).accesses (hindex.bare (Nat.le_refl BindingLevel.access.rank)) h
  | case8 m rest =>
    intro ih he h
    have harrow : Yields (Tree.arrow e m).nesting us rest := by
      rw [Tree.nesting]
      exact he.seq ((Yields.token (t := .punct .arrow) rfl _).seq (Yields.token (t := .word m) rfl rest))
    exact (ih rest (Nat.lt_succ_of_lt (Nat.lt_succ_self _))).accesses (harrow.bare (Nat.le_refl BindingLevel.access.rank)) h
  | case10 m rest =>
    intro ih he h
    have hdot : Yields (Tree.dot e m).nesting us rest := by
      rw [Tree.nesting]
      exact he.seq ((Yields.token (t := .punct .dot) rfl _).seq (Yields.token (t := .word m) rfl rest))
    exact (ih rest (Nat.lt_succ_of_lt (Nat.lt_succ_self _))).accesses (hdot.bare (Nat.le_refl BindingLevel.access.rank)) h
  | case11 =>
    intro _ he h
    obtain ⟨rfl, rfl⟩ := Prod.mk.inj (Option.some.inj h)
    exact he
  | _ =>
    intros
    contradiction

/-- An accessed expression is taken with all its accesses. -/
theorem yields_readAccess (h : readAccess ts = some (t, r)) : Yields (t.inPlace BindingLevel.access.rank) ts r := by
  rw [readAccess] at h
  split at h
  · next e rest he =>
    split at h
    · next hlen => exact (ih rest hlen).accesses (yields_readPrimary ih he) h
    · cases h
  · cases h

/-- Prefix operators are taken before their operand. -/
theorem yields_readUnary (h : readUnary ts = some (t, r)) : Yields (t.inPlace BindingLevel.unary.rank) ts r := by
  have hle : BindingLevel.unary.rank ≤ BindingLevel.access.rank := by decide
  revert h ih
  fun_cases readUnary ts with
  | case1 rest u rest' hu hlen =>
    intro ih h
    obtain ⟨⟨items, rest''⟩, hitems, heq⟩ := Option.map_eq_some_iff.1 h
    obtain ⟨rfl, rfl⟩ := Prod.mk.inj heq
    have htype := (Yields.token (t := .word "new") rfl rest).marks_add
      ((yields_readType hu).marks_add (Yields.token (t := .punct .lbrace) rfl rest'))
    rw [show (Token.word "new").marks = 0 by decide, Nat.zero_add] at htype
    have hnew : Yields (Tree.new u items).nesting (.word "new" :: rest) rest'' := by
      rw [Tree.nesting]
      exact htype.seq (((ih rest' (Nat.lt_succ_of_lt hlen)).list hitems).seq (Yields.token (t := .punct .rbrace) rfl rest''))
    exact hnew.bare (Nat.le_refl BindingLevel.unary.rank)
  | case5 p rest op hop =>
    intro ih h
    obtain ⟨⟨e, rest'⟩, he, heq⟩ := Option.map_eq_some_iff.1 h
    obtain ⟨rfl, rfl⟩ := Prod.mk.inj heq
    have hunary : Yields (Tree.unary op e).nesting (.punct p :: rest) rest' := by
      obtain ⟨hflat, hmarks⟩ := prefixOp?_spec hop
      have htoken := Yields.token hflat rest
      rw [hmarks] at htoken
      rw [Tree.nesting]
      exact htoken.seq ((ih rest (Nat.lt_succ_self _)).unary he)
    exact hunary.bare (Nat.le_refl BindingLevel.unary.rank)
  | case4 | case6 | case7 => exact fun ih h => (yields_readAccess ih h).mono hle
  | _ =>
    intros
    contradiction

/-- Operators are taken as long as they bind tightly enough, the ones on the left first. -/
theorem yields_readOperators {least k : Nat} {l : Tree} (hk : least ≤ k) (hbelow : Below (k + 1) ts)
    (hl : Yields (l.inPlace k) us ts) (h : readOperators least l ts = some (t, r)) :
    Yields (t.inPlace least) us r ∧ Below least r := by
  revert h ih hl hbelow
  fun_cases readOperators least l ts with
  | case1 op rest hop right rest' hright hlen =>
    intro ih hbelow hl h
    have hrank : op.level.rank ≤ k := Nat.lt_succ_iff.1 (hbelow op rest rfl)
    obtain ⟨hyields, hbelow'⟩ := (ih rest (Nat.lt_succ_self _)).binary (rank_lt_unary op) hright
    have hbinary : Yields (Tree.binary op l right).nesting us rest' := by
      rw [Tree.nesting]
      exact (hl.mono hrank).seq ((Yields.token (t := .punct (.op op)) rfl rest).seq hyields)
    exact (ih rest' (Nat.lt_succ_of_lt hlen)).operators hop hbelow' (hbinary.bare (Nat.le_refl op.level.rank)) h
  | case4 op rest hop =>
    intro _ _ hl h
    obtain ⟨rfl, rfl⟩ := Prod.mk.inj (Option.some.inj h)
    refine ⟨hl.mono hk, ?_⟩
    rintro op' rest' heq
    cases heq
    exact Nat.lt_of_not_le hop
  | case5 _ hstop =>
    intro _ _ hl h
    obtain ⟨rfl, rfl⟩ := Prod.mk.inj (Option.some.inj h)
    exact ⟨hl.mono hk, fun op rest heq => (hstop op rest heq).elim⟩
  | _ =>
    intros
    contradiction

/-- Operands between operators of a rank are taken, and what follows binds looser. -/
theorem yields_readBinary {least : Nat} (hleast : least ≤ BindingLevel.unary.rank) (h : readBinary least ts = some (t, r)) :
    Yields (t.inPlace least) ts r ∧ Below least r := by
  rw [readBinary] at h
  split at h
  · next l rest hl =>
    split at h
    · next hlen =>
      refine (ih rest hlen).operators hleast ?_ (yields_readUnary ih hl) h
      exact fun op _ _ => Nat.lt_succ_of_lt (rank_lt_unary op)
    · cases h
  · cases h

/-- An expression is taken with its condition and branches, if it has some. -/
theorem yields_readExpr (h : readExpr ts = some (t, r)) : Yields (t.inPlace 0) ts r := by
  revert h ih
  fun_cases readExpr ts with
  | case1 c rest hc hlen u rest' hu hlen' =>
    intro ih h
    obtain ⟨⟨f, rest''⟩, hf, heq⟩ := Option.map_eq_some_iff.1 h
    obtain ⟨rfl, rfl⟩ := Prod.mk.inj heq
    refine Yields.bare ?_ (Nat.zero_le _)
    rw [Tree.nesting]
    exact (yields_readBinary ih (Nat.zero_le _) hc).1.seq ((Yields.token (t := .punct .question) rfl rest).seq
      (((ih rest hlen).expr hu).seq ((Yields.token (t := .punct .colon) rfl rest').seq ((ih rest' hlen').expr hf))))
  | case5 => exact fun ih h => (yields_readBinary ih (Nat.zero_le _) h).1
  | _ =>
    intros
    contradiction

/-- Items are taken with the commas between them. -/
theorem yields_readItems {close : Punct} {items : List Tree} (h : readItems close ts = some (items, r)) :
    items ≠ [] ∧ Yields (nestings items) ts (.punct close :: r) := by
  revert h ih
  fun_cases readItems close ts with
  | case1 e rest he =>
    intro ih h
    obtain ⟨rfl, rfl⟩ := Prod.mk.inj (Option.some.inj h)
    exact ⟨List.cons_ne_nil _ _, yields_readExpr ih he⟩
  | case2 e p rest he _ hcomma =>
    intro ih h
    obtain ⟨⟨es, rest'⟩, hes, heq⟩ := Option.map_eq_some_iff.1 h
    obtain ⟨rfl, rfl⟩ := Prod.mk.inj heq
    obtain ⟨rfl, hlen⟩ := hcomma
    obtain ⟨hne, hyields⟩ := (ih rest hlen).items hes
    refine ⟨List.cons_ne_nil _ _, ?_⟩
    rw [nestings_cons e hne]
    exact (yields_readExpr ih he).seq ((Yields.token (t := .punct .comma) rfl rest).seq hyields)
  | _ =>
    intros
    contradiction

theorem yields_readList {close : Punct} {items : List Tree} (h : readList close ts = some (items, r)) :
    Yields (nestings items) ts (.punct close :: r) := by
  rw [readList] at h
  split at h
  · next hhead =>
    obtain ⟨rfl, rfl⟩ := Prod.mk.inj (Option.some.inj h)
    cases ts with
    | nil => cases hhead
    | cons x ts =>
      obtain rfl : x = .punct close := by simpa using hhead
      exact Yields.nothing _
  · exact (yields_readItems ih h).2

end

/-- By induction on the number of tokens: every reader goes on with fewer of them, or with the same as the reader it calls. -/
theorem sound (ts : List Token) : Sound ts := by
  induction hlen : ts.length using Nat.strong_induction_on generalizing ts with
  | _ n ihn =>
    have ih : ∀ us : List Token, us.length < ts.length → Sound us := fun us hus => ihn us.length (hlen ▸ hus) us rfl
    exact {
      expr := yields_readExpr ih
      binary := yields_readBinary ih
      operators := yields_readOperators ih
      unary := yields_readUnary ih
      accesses := yields_readPostfix ih
      list := yields_readList ih
      items := yields_readItems ih }

end Reader

/-! ## Texts -/

/-- The depths of the marks of a text that stands in `d` parentheses. -/
def profile (d : Nat) (cs : List Char) : Option (List Nat) := (Lexer.lex cs).bind (depths d)

/-- The depths of a text are those of its tokens. -/
theorem profile_eq {text : String} {ts : List Token} (hlex : Lexer.lex text.toList = some ts) (d : Nat) :
    profile d text.toList = depths d ts := by
  rw [profile, hlex, Option.bind_some]

/-- Tokens that are read as a tree have their marks where the tree allows them. -/
theorem fits_of_readExpr {ts : List Token} {t : Tree} (h : Reader.readExpr ts = some (t, [])) :
    ∃ ds, (t.inPlace 0).Fits 0 ds ∧ depths 0 ts = some ds := by
  obtain ⟨ds, hfits, hdepths⟩ := (Reader.sound ts).expr h 0
  refine ⟨ds, hfits, ?_⟩
  rw [hdepths]
  simp [depths]

/-- A text that is read as a tree has its marks where the tree allows them. -/
theorem fits_of_read {text : String} {t : Tree} (h : read text = some t) :
    ∃ ds, (t.inPlace 0).Fits 0 ds ∧ profile 0 text.toList = some ds := by
  obtain ⟨ts, hts, -⟩ := Option.bind_eq_some_iff.1 h
  rw [profile_eq hts]
  exact fits_of_readExpr ((read_eq_some_iff hts).1 h)

/-- So has a text that is read with every qualified name taken for one word. -/
theorem fits_of_readJoined {text : String} {t : Tree} (h : readJoined text = some t) :
    ∃ ds, (t.inPlace 0).Fits 0 ds ∧ profile 0 text.toList = some ds := by
  obtain ⟨ts, hts, -⟩ := Option.bind_eq_some_iff.1 h
  rw [profile_eq hts, ← depths_joinNames]
  exact fits_of_readExpr ((readJoined_eq_some_iff hts).1 h)

end ExprToCpp.Cpp
