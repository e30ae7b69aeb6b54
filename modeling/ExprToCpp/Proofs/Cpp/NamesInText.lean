import ExprToCpp.Proofs.Cpp.NumberLiteral
import ExprToCpp.Proofs.Cpp.StringLiteral

/-!
# Names in a text

Which names stand in a text outside its string literals: the longest pieces of letters, digits, underscores and colons. The
qualified ones among them are those of the tree that the text is written for, since wherever two pieces of it meet, one ends or
begins with another character (`mem_namesIn_render`).
-/

namespace ExprToCpp.Cpp

open Reader

/-! ## Names in a tree -/

/-- The names in a type. -/
@[simp] def Ty.names : Ty → List String
  | .named n => [n]
  | .vector t => "std::vector" :: t.names
  | .pointer t => t.names
  | .shared t => "std::shared_ptr" :: t.names
  | .unique t => "std::unique_ptr" :: t.names

namespace Expr

mutual

/-- The names in an expression: of variables, functions, members and types. -/
@[simp] def names : Expr → List String
  | .int _ _ | .float _ | .bool _ | .string _ _ => []
  | .name n => [n]
  | .paren e | .unary _ e => e.names
  | .call f args => f.names ++ namesOfAll args
  | .arrow e m | .dot e m => e.names ++ [m]
  | .index e i => e.names ++ i.names
  | .staticCast t e => t.names ++ e.names
  | .staticPointerCast t e => "std::static_pointer_cast" :: (t.names ++ e.names)
  | .new t items => t.names ++ namesOfAll items
  | .own t e => (Ty.unique t).names ++ e.names
  | .binary _ l r => l.names ++ r.names
  | .conditional c t f => c.names ++ t.names ++ f.names

/-- The names in a list of expressions. -/
@[simp] def namesOfAll : List Expr → List String
  | [] => []
  | e :: es => e.names ++ namesOfAll es

end

/-- The names of a list are those of its items. -/
theorem mem_namesOfAll {es : List Expr} {n : String} : n ∈ namesOfAll es ↔ ∃ e ∈ es, n ∈ e.names := by
  induction es with
  | nil => simp
  | cons e es ih => simp [ih]

end Expr

/-! ## Names in a text -/

/-- A text with a quote in the place of each string literal. What is no literal ends the text. -/
def code (cs : List Char) : List Char :=
  match cs with
  | [] => []
  | c :: r =>
    if c = '"' then
      match Escape.readLiteral r with
      | none => ['"']
      | some (_, rest) => '"' :: if rest.length ≤ r.length then code rest else []
    else c :: code r
termination_by cs.length
decreasing_by all_goals simp only [List.length_cons]; omega

theorem code_nil : code [] = [] := by
  rw [code]

/-- Outside a literal, characters are kept. -/
theorem code_cons {c : Char} (hc : c ≠ '"') (r : List Char) : code (c :: r) = c :: code r := by
  rw [code, if_neg hc]

/-- A text without quotes is kept before whatever follows. -/
theorem code_append {s : List Char} (hs : '"' ∉ s) (r : List Char) : code (s ++ r) = s ++ code r := by
  induction s with
  | nil => rfl
  | cons c s ih =>
    rw [List.mem_cons, not_or] at hs
    rw [List.cons_append, code_cons (Ne.symm hs.1), ih hs.2, List.cons_append]

theorem code_of_no_quote {s : List Char} (hs : '"' ∉ s) : code s = s := by
  have hcode := code_append hs []
  rwa [List.append_nil, code_nil, List.append_nil] at hcode

/-- Of a literal only one quote is left. -/
theorem code_literal (style : Escape.Style) (bytes : List UInt8) (r : List Char) :
    code (("\"" ++ Escape.body style bytes ++ "\"").toList ++ r) = '"' :: code r := by
  have htext : ("\"" ++ Escape.body style bytes ++ "\"").toList ++ r =
      '"' :: ((Escape.body style bytes).toList ++ '"' :: r) := by simp
  have hread := Escape.readLiteral_body style bytes r
  rw [htext, code]
  simp only [if_true, hread, List.length_append, List.length_cons]
  rw [if_pos (by omega)]

/-- The first character of a text stays. -/
theorem exists_code_cons (c : Char) (r : List Char) : ∃ k, code (c :: r) = c :: k := by
  by_cases hc : c = '"'
  · subst hc
    rw [code, if_pos rfl]
    split
    · exact ⟨[], rfl⟩
    · exact ⟨_, rfl⟩
  · exact ⟨code r, code_cons hc r⟩

/-- The characters of qualified names. -/
def isNameChar (c : Char) : Bool := Lexer.isWordChar c || c == ':'

/-- The names in a text, outside its literals. -/
def namesIn (cs : List Char) : List (List Char) := (code cs).splitOnP fun c => !isNameChar c

/-- A name with a qualification. -/
def IsQualified (q : List Char) : Prop := [':', ':'] <:+: q

/-- A qualified name is not empty. -/
theorem IsQualified.ne_nil {q : List Char} (h : IsQualified q) : q ≠ [] := by
  rintro rfl
  simp [IsQualified] at h

/-- A text that another one can follow without going on with its last name. -/
def endsName : List Char → Bool
  | [] => true
  | c :: _ => !isNameChar c

/-- A text with only characters of names is one name. -/
theorem namesIn_of_isNameChar {s : List Char} (hs : ∀ c ∈ s, isNameChar c = true) : namesIn s = [s] := by
  have hquote : '"' ∉ s := fun hmem => absurd (hs _ hmem) (by decide)
  rw [namesIn, code_of_no_quote hquote]
  exact List.splitOnP_eq_singleton fun c hc => by simp [hs c hc]

/-- A character that is in no name divides the names. -/
theorem namesIn_append_cons {s : List Char} {x : Char} (hs : '"' ∉ s) (hx : isNameChar x = false) (hquote : x ≠ '"')
    (r : List Char) : namesIn (s ++ x :: r) = namesIn s ++ namesIn r := by
  rw [namesIn, code_append hs, code_cons hquote, List.splitOnP_append_cons _ _ (by simp [hx]), namesIn, namesIn,
    code_of_no_quote hs]

/-- Names do not reach over a character that ends them. -/
theorem mem_namesIn_append {s r q : List Char} (hs : '"' ∉ s) (hr : endsName r = true) (hq : q ≠ []) :
    q ∈ namesIn (s ++ r) ↔ q ∈ namesIn s ∨ q ∈ namesIn r := by
  cases r with
  | nil =>
    have hnil : namesIn [] = [[]] := namesIn_of_isNameChar (by simp)
    rw [List.append_nil, hnil, List.mem_singleton]
    exact ⟨Or.inl, fun h => h.resolve_right hq⟩
  | cons x r =>
    obtain ⟨k, hk⟩ := exists_code_cons x r
    have hx : (!isNameChar x) = true := hr
    have hsplit : List.splitOnP (fun c => !isNameChar c) (x :: k) = [] :: List.splitOnP (fun c => !isNameChar c) k :=
      List.splitOnP_append_cons [] k hx
    rw [namesIn, code_append hs, hk, List.splitOnP_append_cons s k hx, List.mem_append, namesIn, code_of_no_quote hs, namesIn, hk,
      hsplit, List.mem_cons]
    exact or_congr_right ⟨Or.inr, fun h => h.resolve_left hq⟩

/-- A name in a text is a piece of it. -/
theorem infix_of_mem_splitOnP {p : Char → Bool} {s q : List Char} (h : q ∈ s.splitOnP p) : q <:+: s := by
  have hhead : ∀ s : List Char, ∃ w ws, s.splitOnP p = w :: ws ∧ w <+: s ∧ ∀ q ∈ ws, q <:+: s := by
    intro s
    induction s with
    | nil => exact ⟨[], [], List.splitOnP_nil, List.prefix_refl _, by simp⟩
    | cons c s ih =>
      obtain ⟨w, ws, hsplit, hw, hws⟩ := ih
      rw [List.splitOnP_cons_eq_if_modifyHead, hsplit]
      split
      · refine ⟨[], w :: ws, rfl, List.nil_prefix, List.forall_mem_cons.2 ⟨?_, fun q hq => ?_⟩⟩
        · exact hw.isInfix.trans (List.suffix_cons c s).isInfix
        · exact (hws q hq).trans (List.suffix_cons c s).isInfix
      · refine ⟨c :: w, ws, rfl, List.cons_prefix_cons.2 ⟨rfl, hw⟩, fun q hq => ?_⟩
        exact (hws q hq).trans (List.suffix_cons c s).isInfix
  obtain ⟨w, ws, hsplit, hw, hws⟩ := hhead s
  rw [hsplit] at h
  rcases List.mem_cons.1 h with rfl | h
  · exact hw.isInfix
  · exact hws q h

/-- A text with fewer than two colons has no qualified name. -/
theorem not_mem_namesIn {s q : List Char} (hs : '"' ∉ s) (hcolons : s.count ':' < 2) (hq : IsQualified q) : q ∉ namesIn s := by
  intro hmem
  rw [namesIn, code_of_no_quote hs] at hmem
  have hcount : 2 ≤ s.count ':' := (hq.trans (infix_of_mem_splitOnP hmem)).sublist.count_le ':'
  omega

/-! ## Texts and their names -/

/-- The qualified names in a text are those of the names listed, whatever follows the text. -/
def Spells (s : String) (ns : List String) : Prop :=
  ∀ q, IsQualified q → ∀ r, endsName r = true →
    (q ∈ namesIn (s.toList ++ r) ↔ (∃ n ∈ ns, q ∈ namesIn n.toList) ∨ q ∈ namesIn r)

/-- A text without qualified names or quotes that ends in a character of no name. -/
def IsSeparator (s : String) : Prop :=
  '"' ∉ s.toList ∧ s.toList.count ':' < 2 ∧ s.toList.getLast?.any (fun c => !isNameChar c) = true

instance (s : String) : Decidable (IsSeparator s) :=
  inferInstanceAs (Decidable ('"' ∉ s.toList ∧ s.toList.count ':' < 2 ∧ s.toList.getLast?.any (fun c => !isNameChar c) = true))

namespace Spells

variable {s t : String} {ms ns : List String}

theorem name {n : String} (hn : '"' ∉ n.toList) : Spells n [n] := by
  intro q hq r hr
  rw [mem_namesIn_append hn hr hq.ne_nil]
  simp

/-- A text without `::` spells no qualified name. -/
theorem fixed (hs : '"' ∉ s.toList) (hcolons : s.toList.count ':' < 2) : Spells s [] := by
  intro q hq r hr
  rw [mem_namesIn_append hs hr hq.ne_nil]
  simp [not_mem_namesIn hs hcolons hq]

theorem literal (style : Escape.Style) (bytes : List UInt8) : Spells ("\"" ++ Escape.body style bytes ++ "\"") [] := by
  intro q hq r _
  have hsplit : List.splitOnP (fun c => !isNameChar c) ('"' :: code r) = [] :: namesIn r :=
    List.splitOnP_append_cons [] (code r) (by decide)
  rw [namesIn, code_literal, hsplit]
  simp [hq.ne_nil]

/-- Two texts spell the names of both, if a name ends where they meet. -/
theorem append (hfollow : ∀ r, endsName (t.toList ++ r) = true) (hs : Spells s ms) (ht : Spells t ns) :
    Spells (s ++ t) (ms ++ ns) := by
  intro q hq r hr
  rw [String.toList_append, List.append_assoc, hs q hq _ (hfollow r), ht q hq r hr]
  simp only [List.mem_append, or_and_right, exists_or, or_assoc]

theorem after {sep : String} (hsep : IsSeparator sep) (h : Spells s ns) : Spells (sep ++ s) ns := by
  intro q hq r hr
  obtain ⟨hquote, hcolons, hlast⟩ := hsep
  obtain ⟨x, hx, hname⟩ := (Option.any_eq_true _ _).1 hlast
  have htext : sep.toList = sep.toList.dropLast ++ [x] := (List.dropLast_append_getLast? x hx).symm
  have hmem : x ∈ sep.toList := List.mem_of_getLast? hx
  have hfront : '"' ∉ sep.toList.dropLast := fun hmem => hquote ((List.dropLast_prefix _).subset hmem)
  have hnone : q ∉ namesIn sep.toList.dropLast :=
    not_mem_namesIn hfront (Nat.lt_of_le_of_lt ((List.dropLast_sublist _).count_le ':') hcolons) hq
  have hsplit := namesIn_append_cons hfront (by simpa using hname) (fun heq => hquote (heq ▸ hmem)) (s.toList ++ r)
  rw [String.toList_append, List.append_assoc, htext, List.append_assoc, List.singleton_append, hsplit, List.mem_append, h q hq r hr]
  exact ⟨fun h => h.resolve_left hnone, Or.inr⟩

/-- A text and what closes it. -/
theorem closed (close : String) (hquote : '"' ∉ close.toList) (hcolons : close.toList.count ':' < 2)
    (hfollow : ∀ r, endsName (close.toList ++ r) = true) (h : Spells s ns) : Spells (s ++ close) ns := by
  have hclosed := h.append hfollow (fixed hquote hcolons)
  rwa [List.append_nil] at hclosed

/-- Two texts with a separator between them. -/
theorem between (sep : String) (hsep : IsSeparator sep) (hfollow : ∀ r, endsName (sep.toList ++ r) = true) (hs : Spells s ms)
    (ht : Spells t ns) : Spells (s ++ sep ++ t) (ms ++ ns) := by
  rw [String.append_assoc]
  refine hs.append (fun r => ?_) (ht.after hsep)
  rw [String.toList_append, List.append_assoc]
  exact hfollow _

theorem paren (h : Spells s ns) : Spells ("(" ++ s ++ ")") ns :=
  (h.after (by decide)).closed ")" (by decide) (by decide) fun _ => rfl

theorem group (wanted : Bool) (h : Spells s ns) : Spells (Cpp.group wanted s) ns := by
  cases wanted with
  | false => exact h
  | true => exact h.paren

/-- A call spells the names of the function and of the arguments. -/
theorem call (hs : Spells s ms) (ht : Spells t ns) : Spells (s ++ "(" ++ t ++ ")") (ms ++ ns) :=
  (hs.between "(" (by decide) (fun _ => rfl) ht).closed ")" (by decide) (by decide) fun _ => rfl

/-- The name of a template, with the angle bracket that opens its argument, and the argument. -/
theorem argument {n : String} (opening : String) (hopening : opening = n ++ "<") (hn : '"' ∉ n.toList) (h : Spells s ns) :
    Spells (opening ++ s) (n :: ns) := by
  rw [hopening]
  exact (name hn).between "<" (by decide) (fun _ => rfl) h

end Spells

/-! ## The text of a tree -/

/-- A type spells the names in it. -/
theorem spells_type {t : Ty} (h : ∀ n ∈ t.names, '"' ∉ n.toList) : Spells t.render t.names := by
  induction t with
  | named n => exact .name (h n List.mem_cons_self)
  | pointer t ih => exact (ih h).closed "*" (by decide) (by decide) fun _ => rfl
  | vector t ih =>
    have ht := ih fun n hn => h n (List.mem_cons_of_mem _ hn)
    exact (ht.argument "std::vector<" (by decide) (by decide)).closed ">" (by decide) (by decide) fun _ => rfl
  | shared t ih =>
    have ht := ih fun n hn => h n (List.mem_cons_of_mem _ hn)
    exact (ht.argument "std::shared_ptr<" (by decide) (by decide)).closed ">" (by decide) (by decide) fun _ => rfl
  | unique t ih =>
    have ht := ih fun n hn => h n (List.mem_cons_of_mem _ hn)
    exact (ht.argument "std::unique_ptr<" (by decide) (by decide)).closed ">" (by decide) (by decide) fun _ => rfl

/-- Numerals spell no name. -/
theorem spells_numeral {s : String} (h : ∀ c ∈ s.toList, IsNumeralChar c) : Spells s [] := by
  have hcolon : ':' ∉ s.toList := fun hc => (h _ hc).ne (by decide) rfl
  refine .fixed (fun hc => (h _ hc).ne (by decide) rfl) ?_
  rw [List.count_eq_zero.2 hcolon]
  decide

/-- A list spells the names of its items. -/
theorem spells_renderList {es : List Expr} (h : ∀ e ∈ es, Spells e.render e.names) :
    Spells (Expr.renderList es) (Expr.namesOfAll es) := by
  induction es with
  | nil => exact .fixed (by decide) (by decide)
  | cons e es ih =>
    have he := h e List.mem_cons_self
    have hes := ih fun x hx => h x (List.mem_cons_of_mem e hx)
    cases es with
    | nil =>
      rw [Expr.namesOfAll, Expr.namesOfAll, List.append_nil]
      exact he
    | cons e' es => exact he.between ", " (by decide) (fun _ => rfl) hes

theorem spells_binary (op : BinaryOp) {s t : String} {ms ns : List String} (hs : Spells s ms) (ht : Spells t ns) :
    Spells (s ++ " " ++ op.symbol ++ " " ++ t) (ms ++ ns) := by
  have hsep : IsSeparator (" " ++ op.symbol ++ " ") := by cases op <;> decide
  have htext : s ++ " " ++ op.symbol ++ " " ++ t = s ++ (" " ++ op.symbol ++ " ") ++ t := by
    simp only [String.append_assoc]
  rw [htext]
  refine hs.between _ hsep (fun r => ?_) ht
  cases op <;> rfl

theorem spells_unary (op : PrefixOp) {s : String} {ns : List String} (h : Spells s ns) : Spells (Expr.unaryText op s) ns :=
  (h.group _).after (by rcases op with (_ | _ | _) | _ <;> decide)

/-- A text between angle brackets and one in parentheses, as in a cast. -/
theorem spells_templateCall {s t : String} {ms ns : List String} (hs : Spells s ms) (ht : Spells t ns) :
    Spells (s ++ ">(" ++ t ++ ")") (ms ++ ns) :=
  (hs.between ">(" (by decide) (fun _ => rfl) ht).closed ")" (by decide) (by decide) fun _ => rfl

/-- The text of an expression spells its names. -/
theorem spells_render {e : Expr} (h : ∀ n ∈ e.names, '"' ∉ n.toList) : Spells e.render e.names := by
  induction e with
  | int n s => exact spells_numeral (isNumeralChar_int n s)
  | float d => exact spells_numeral (isNumeralChar_float d)
  | bool b =>
    cases b with
    | false => exact (Spells.fixed (by decide) (by decide) : Spells "false" [])
    | true => exact (Spells.fixed (by decide) (by decide) : Spells "true" [])
  | string style bytes => exact .literal style bytes
  | name n => exact .name (h n List.mem_cons_self)
  | paren e ih => exact (ih h).paren
  | call f args ihf ihargs =>
    obtain ⟨hf, hargs⟩ := List.forall_mem_append.1 h
    exact ((ihf hf).group _).call (spells_renderList fun a ha => ihargs a ha fun n hn =>
      hargs n (Expr.mem_namesOfAll.2 ⟨a, ha, hn⟩))
  | arrow e m ih =>
    obtain ⟨he, hm⟩ := List.forall_mem_append.1 h
    exact ((ih he).group _).between "->" (by decide) (fun _ => rfl) (.name (hm m List.mem_cons_self))
  | dot e m ih =>
    obtain ⟨he, hm⟩ := List.forall_mem_append.1 h
    exact ((ih he).group _).between "." (by decide) (fun _ => rfl) (.name (hm m List.mem_cons_self))
  | index e i ihe ihi =>
    obtain ⟨he, hi⟩ := List.forall_mem_append.1 h
    exact (((ihe he).group _).between "[" (by decide) (fun _ => rfl) (ihi hi)).closed "]" (by decide) (by decide) fun _ => rfl
  | staticCast t e ih =>
    obtain ⟨ht, he⟩ := List.forall_mem_append.1 h
    exact spells_templateCall ((spells_type ht).after (by decide)) (ih he)
  | staticPointerCast t e ih =>
    obtain ⟨hcast, h⟩ := List.forall_mem_cons.1 h
    obtain ⟨ht, he⟩ := List.forall_mem_append.1 h
    exact spells_templateCall ((spells_type ht).argument "std::static_pointer_cast<" (by decide) hcast) (ih he)
  | new t items ih =>
    obtain ⟨ht, hitems⟩ := List.forall_mem_append.1 h
    have hlist := spells_renderList fun a ha => ih a ha fun n hn => hitems n (Expr.mem_namesOfAll.2 ⟨a, ha, hn⟩)
    exact (((spells_type ht).after (by decide)).between "\x7b" (by decide) (fun _ => rfl) hlist).closed "\x7d" (by decide)
      (by decide) fun _ => rfl
  | own t e ih =>
    obtain ⟨ht, he⟩ := List.forall_mem_append.1 h
    exact (spells_type ht).call (ih he)
  | unary op e ih => exact spells_unary op ((ih h).group _)
  | binary op l r ihl ihr =>
    obtain ⟨hl, hr⟩ := List.forall_mem_append.1 h
    exact spells_binary op ((ihl hl).group _) ((ihr hr).group _)
  | conditional c t f ihc iht ihf =>
    obtain ⟨h, hf⟩ := List.forall_mem_append.1 h
    obtain ⟨hc, ht⟩ := List.forall_mem_append.1 h
    exact ((ihc hc).between " ? " (by decide) (fun _ => rfl) (iht ht)).between " : " (by decide) (fun _ => rfl) (ihf hf)

/-- The qualified names in the text of an expression are those of the expression. -/
theorem mem_namesIn_render {e : Expr} {q : List Char} (h : ∀ n ∈ e.names, '"' ∉ n.toList) (hq : IsQualified q) :
    q ∈ namesIn e.render.toList ↔ ∃ n ∈ e.names, q ∈ namesIn n.toList := by
  have hspells := spells_render h q hq [] rfl
  have hnil : namesIn [] = [[]] := namesIn_of_isNameChar (by simp)
  rw [List.append_nil, hnil, List.mem_singleton] at hspells
  rw [hspells]
  exact ⟨fun h => h.resolve_right hq.ne_nil, Or.inl⟩

end ExprToCpp.Cpp
