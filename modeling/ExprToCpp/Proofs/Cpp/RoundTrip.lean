import ExprToCpp.Proofs.Cpp.NamesInText
import ExprToCpp.Proofs.Cpp.TypeName

/-!
# The text of an expression reads back

`Renders rank point text t` says that a text is the tokens of the tree `t`, so that it is read as the tree wherever an operand of a
rank has room, unless a keyword stands next to `::` in a name, and even then if a qualified name is taken for one word. It holds of a
form as soon as it holds of the parts, each in its place; an expression is `Rendered` if it holds of the text the printer gives it.
So the printer's parentheses are enough, and the blank and the parentheses that keep two tokens apart are too. Main statements:
`rendered_call`, `rendered_binary` and so on, one for each form, `Rendered.read_render` and `Rendered.readJoined_render`.
-/

namespace ExprToCpp.Cpp

open Lexer Reader

namespace Expr

mutual

/-- The tree of an expression: parentheses and the style of a literal leave no trace, and an owning pointer and a cast between
shared pointers are calls of templates. -/
def tree : Expr → Tree
  | .int n s => .int n s
  | .float d => .float d.value
  | .bool b => .bool b
  | .string _ bytes => .string bytes
  | .name n => .name n
  | .paren e => e.tree
  | .call f args => .call f.tree (trees args)
  | .arrow e m => .arrow e.tree m
  | .dot e m => .dot e.tree m
  | .index e i => .index e.tree i.tree
  | .staticCast t e => .staticCast t e.tree
  | .staticPointerCast t e => .call (.template "std::static_pointer_cast" t) [e.tree]
  | .new t items => .new t (trees items)
  | .own t e => .call (.template "std::unique_ptr" t) [e.tree]
  | .unary op e => .unary op e.tree
  | .binary op l r => .binary op l.tree r.tree
  | .conditional c t f => .conditional c.tree t.tree f.tree

/-- The trees of a list of expressions. -/
def trees : List Expr → List Tree
  | [] => []
  | e :: es => e.tree :: trees es

end

/-- Whether a point may follow the text of an expression. -/
def acceptsPoint : Expr → Bool
  | .int _ _ | .float _ | .new _ _ | .own _ _ | .unary _ _ | .binary _ _ _ | .conditional _ _ _ => false
  | _ => true

end Expr

/-! ## The names of a tree -/

/-- A type is free of keywords next to `::` if its names are. -/
theorem Ty.scoped_iff {t : Ty} : t.Scoped ↔ ∀ n ∈ t.names, ScopedName n := by
  have htemplates : ∀ n ∈ ["std::vector", "std::shared_ptr", "std::unique_ptr"], ScopedName n := by decide +kernel
  simp only [List.mem_cons, List.not_mem_nil, or_false, forall_eq_or_imp, forall_eq] at htemplates
  induction t with
  | named n => simp [Ty.Scoped]
  | pointer t ih => exact ih
  | vector t ih | shared t ih | unique t ih => simp [Ty.Scoped, ih, htemplates]

namespace Expr

/-- The trees of a list are free of such keywords if each of them is. -/
theorem allScoped_trees {es : List Expr} : Tree.AllScoped (trees es) ↔ ∀ e ∈ es, e.tree.Scoped := by
  induction es with
  | nil => simp [trees, Tree.AllScoped]
  | cons e es ih => simp [trees, Tree.AllScoped, ih]

/-- A tree is free of keywords next to `::` if the names in the expression are. -/
theorem scoped_tree_iff {e : Expr} : e.tree.Scoped ↔ ∀ n ∈ e.names, ScopedName n := by
  have htemplates : ∀ n ∈ ["std::static_pointer_cast", "std::unique_ptr"], ScopedName n := by decide +kernel
  simp only [List.mem_cons, List.not_mem_nil, or_false, forall_eq_or_imp, forall_eq] at htemplates
  induction e with
  | int | float | bool | string => simp [tree, Tree.Scoped]
  | name n => simp [tree, Tree.Scoped]
  | paren e ih => exact ih
  | call f args ihf ihargs =>
    simp only [tree, Tree.Scoped, names, List.forall_mem_append, ihf, allScoped_trees, mem_namesOfAll]
    grind
  | arrow e m ih | dot e m ih => simp [tree, Tree.Scoped, ih, or_imp, forall_and]
  | index e i ihe ihi => simp only [tree, Tree.Scoped, names, List.forall_mem_append, ihe, ihi]
  | staticCast t e ih => simp only [tree, Tree.Scoped, names, List.forall_mem_append, Ty.scoped_iff, ih]
  | staticPointerCast t e ih | own t e ih =>
    simp [tree, Tree.Scoped, Tree.AllScoped, Ty.scoped_iff, ih, htemplates, or_imp, forall_and]
  | new t items ih =>
    simp only [tree, Tree.Scoped, names, List.forall_mem_append, Ty.scoped_iff, allScoped_trees, mem_namesOfAll]
    grind
  | unary op e ih => exact ih
  | binary op l r ihl ihr => simp only [tree, Tree.Scoped, names, List.forall_mem_append, ihl, ihr]
  | conditional c t f ihc iht ihf => simp only [tree, Tree.Scoped, names, List.forall_mem_append, ihc, iht, ihf, and_assoc]

end Expr

/-! ## Texts and trees -/

/-- What may stand right after an expression. -/
def Stops (point : Bool) (r : List Char) : Prop :=
  ∀ d, r.head? = some d → d ∈ [' ', ')', ']', '\x7d', ',', '(', '[', '-'] ∨ point = true ∧ d = '.'

/-- What may follow a number may follow everything. -/
theorem Stops.mono {point : Bool} {r : List Char} (h : Stops false r) : Stops point r := by
  intro d hd
  rcases h d hd with hmem | ⟨hpoint, -⟩
  · exact Or.inl hmem
  · cases hpoint

/-- Where an expression stops, a word ends. -/
theorem Stops.endsWord {point : Bool} {r : List Char} (h : Stops point r) : EndsWord r := by
  intro d hd
  rcases h d hd with hmem | ⟨-, rfl⟩
  · have hall : ∀ c ∈ [' ', ')', ']', '\x7d', ',', '(', '[', '-'], Lexer.endsWord c = true := by decide
    exact hall d hmem
  · decide

/-- Where no point may follow, a number ends. -/
theorem Stops.endsNumber {r : List Char} (h : Stops false r) : ∀ d, r.head? = some d → isNumberChar d = false := by
  intro d hd
  rcases h d hd with hmem | ⟨hpoint, -⟩
  · have hall : ∀ c ∈ [' ', ')', ']', '\x7d', ',', '(', '[', '-'], isNumberChar c = false := by decide
    exact hall d hmem
  · cases hpoint

/-- And so does a type. -/
theorem Stops.endsType {point : Bool} {r : List Char} (h : Stops point r) : EndsType r := by
  intro d hd
  refine ⟨h.endsWord d hd, ?_⟩
  rcases h d hd with hmem | ⟨-, rfl⟩
  · have hall : ∀ c ∈ [' ', ')', ']', '\x7d', ',', '(', '[', '-'], c ≠ '>' ∧ c ≠ '=' := by decide
    exact hall d hmem
  · decide

theorem stops_cons {point : Bool} {c : Char} (hc : c ∈ [' ', ')', ']', '\x7d', ',', '(', '[', '-']) (r : List Char) :
    Stops point (c :: r) := by
  intro d hd
  obtain rfl : c = d := by simpa using hd
  exact Or.inl hc

/-- A text is tokens, wherever it stops. -/
def Lexes (point : Bool) (text : String) (ts : List Token) : Prop :=
  ∀ r, Stops point r → lex (text.toList ++ r) = (lex r).map (ts ++ ·)

/-- A text that ends after its tokens is these tokens. -/
theorem Lexes.lex_eq {point : Bool} {text : String} {ts : List Token} (h : Lexes point text ts) : lex text.toList = some ts := by
  have hlex := h [] nofun
  rwa [List.append_nil, lex_nil, Option.map_some, List.append_nil] at hlex

/-- Whether a text begins with a character that draws in no operator before it, but for a minus after a minus. -/
def startsOperand (text : String) : Bool := text.toList.head?.any fun c => c != '=' && c != '>'

/-- A text is the tokens of a tree, for wherever an operand of a rank has room. -/
def Renders (rank : Nat) (point : Bool) (text : String) (t : Tree) : Prop :=
  ∃ ts, Lexes point text ts ∧ Phrase rank ts t ∧ startsOperand text = true

theorem startsOperand_append {s t : String} (h : startsOperand s = true) : startsOperand (s ++ t) = true := by
  rw [startsOperand] at h ⊢
  rw [String.toList_append]
  cases hs : s.toList with
  | nil => rw [hs] at h; cases h
  | cons c cs => rw [hs] at h; exact h

/-- Words draw in no operator. -/
theorem startsOperand_of_isWordStart {text : String} (h : text.toList.head?.any isWordStart = true) :
    startsOperand text = true := by
  rw [startsOperand]
  cases hc : text.toList.head? with
  | none => rw [hc] at h; cases h
  | some c =>
    rw [hc, Option.any_some] at h
    simp only [Option.any_some, Bool.and_eq_true, bne_iff_ne]
    constructor <;> rintro rfl <;> exact absurd h (by decide)

namespace Renders

variable {k l : Nat} {p q : Bool} {s s' : String} {t t' : Tree}

theorem mono (hkl : k ≤ l) (h : Renders l p s t) : Renders k p s t := by
  obtain ⟨ts, hlex, hread, hstart⟩ := h
  exact ⟨ts, hlex, hread.mono hkl, hstart⟩

/-- A text that a point may follow is all the more good without one. -/
theorem beforeNoPoint (h : Renders k p s t) : Renders k false s t := by
  obtain ⟨ts, hlex, hread, hstart⟩ := h
  exact ⟨ts, fun r hr => hlex r hr.mono, hread, hstart⟩

/-- A text that is the tokens of a tree is read as the tree, and nothing is left. -/
theorem read_eq (h : Renders k p s t) (ht : t.Scoped) : read s = some t := by
  obtain ⟨ts, hlex, hphrase, -⟩ := h
  have hexpr := (hphrase.reads ht).expr [] nofun
  rw [List.append_nil] at hexpr
  exact (read_eq_some_iff hlex.lex_eq).2 hexpr

/-- With a keyword next to `::` it is not read at all. -/
theorem read_eq_none (h : Renders k p s t) (ht : ¬t.Scoped) : read s = none := by
  obtain ⟨ts, hlex, hphrase, -⟩ := h
  rw [Option.eq_none_iff_forall_ne_some]
  intro u hu
  exact ht (hphrase.scoped_iff.1 (scoped_of_read hlex.lex_eq hu))

/-- With every qualified name taken for one word it is read as the tree in both cases. -/
theorem readJoined_eq (h : Renders k p s t) : readJoined s = some t := by
  obtain ⟨ts, hlex, hphrase, -⟩ := h
  have hexpr := hphrase.joined.expr [] nofun
  rw [List.append_nil] at hexpr
  exact (readJoined_eq_some_iff hlex.lex_eq).2 hexpr

theorem int (n : Nat) (x : IntSuffix) : Renders k false (toString n ++ x.text) (.int n x) := by
  refine ⟨_, fun r hr => lex_int n x hr.endsNumber, Phrase.literal trivial (Reads.number ?_), ?_⟩
  · have hread := readNumber_int n x
    simpa using hread
  · obtain ⟨c, cs, hcs⟩ := List.exists_cons_of_ne_nil (Nat.toDigits_ne_nil (n := n) (b := 10))
    have hc : c.isDigit = true := allDigits_toDigits n c (hcs ▸ List.mem_cons_self)
    have htext : (toString n ++ x.text).toList = c :: (cs ++ x.text.toList) := by simp [hcs]
    rw [startsOperand, htext]
    simp only [List.head?_cons, Option.any_some, Bool.and_eq_true, bne_iff_ne]
    constructor <;> rintro rfl <;> exact absurd hc (by decide)

/-- The text of a float literal reads as the value of its digits. -/
theorem float (d : Decimal) : Renders k false (d.text floatLayout) (.float d.value) := by
  refine ⟨_, fun r hr => lex_float d hr.endsNumber, Phrase.literal trivial (Reads.number (readNumber_float d)), ?_⟩
  obtain ⟨w, u, htext, hne, hw, -⟩ := exists_digits_float d
  obtain ⟨c, cs, rfl⟩ := List.exists_cons_of_ne_nil hne
  have hc : c.isDigit = true := hw c List.mem_cons_self
  rw [startsOperand, htext]
  simp only [List.cons_append, List.head?_cons, Option.any_some, Bool.and_eq_true, bne_iff_ne]
  constructor <;> rintro rfl <;> exact absurd hc (by decide)

/-- A truth value is one word. -/
theorem lexes_bool (b : Bool) : Lexes true (if b then "true" else "false") [.word (if b then "true" else "false")] := by
  intro r hr
  have hword : isWord (if b then "true" else "false").toList = true := by cases b <;> decide
  have hlex := lex_word hword hr.endsWord.spec
  rw [String.ofList_toList] at hlex
  exact hlex

theorem bool (b : Bool) : Renders k true (if b then "true" else "false") (.bool b) :=
  ⟨_, lexes_bool b, Phrase.literal trivial (Reads.bool b), by cases b <;> decide⟩

/-- A string literal is one token, in both styles. -/
theorem lexes_string (style : Escape.Style) (bytes : List UInt8) :
    Lexes true ("\"" ++ Escape.body style bytes ++ "\"") [.string bytes] := by
  intro r hr
  have hsuffix : ∀ d, r.head? = some d → isWordStart d = false := by
    intro d hd
    have hnot := (hr.endsWord.spec d hd).1
    rw [Bool.eq_false_iff]
    intro hstart
    simp only [isWordStart, isWordChar, Char.isAlphanum] at hstart hnot
    grind
  have hlex := lex_string style bytes hsuffix
  have htext : ("\"" ++ Escape.body style bytes ++ "\"").toList ++ r = '"' :: (Escape.body style bytes).toList ++ '"' :: r := by
    simp
  rw [htext]
  exact hlex

theorem string (style : Escape.Style) (bytes : List UInt8) :
    Renders k true ("\"" ++ Escape.body style bytes ++ "\"") (.string bytes) :=
  ⟨_, lexes_string style bytes, Phrase.literal trivial (Reads.string bytes), startsOperand_append (startsOperand_append (by decide))⟩

/-! ## Names and templates -/

/-- The text of a name is its words. -/
theorem name {n : String} (hn : IsValueName n) : Renders k true n (.name n) := by
  obtain ⟨ws, hws, halone, htemplate, rfl⟩ := hn
  refine ⟨_, fun r hr => lex_joinWords hws hr.endsWord,
    Phrase.name hws.1 (lex_name hws) halone htemplate, ?_⟩
  have hstart := isWordStart_head_joinWords hws []
  rw [List.append_nil] at hstart
  exact startsOperand_of_isWordStart hstart

/-- The text of a template argument in its brackets. -/
theorem lex_argument {ty : Ty} (hty : ty.WellNamed) :
    ∃ us, TypePhrase 1 us ty ∧ ∀ r, EndsType r → lex ("<".toList ++ (ty.render.toList ++ (">".toList ++ r))) =
      (lex r).map (.punct (.op .lt) :: us ++ ·) := by
  obtain ⟨us, hphrase, hlex⟩ := lexesType hty 1
  refine ⟨us, hphrase, ?_⟩
  intro r hr
  have hopen := lex_punct_wordStart (op_mem_all .lt) (isWordStart_head_render hty (List.replicate 1 '>' ++ r))
  rw [hlex r hr, Option.map_map] at hopen
  exact hopen

/-- A template with its argument. -/
theorem template (ws : List String) {ty : Ty} (hws : AreWords ws) (halone : ws.length = 1 → ∀ w ∈ ws, w ∉ keywords)
    (htemplate : joinWords ws ∈ callableTemplates) (hty : ty.WellNamed) :
    Renders k true (joinWords ws ++ "<" ++ ty.render ++ ">") (.template (joinWords ws) ty) := by
  obtain ⟨us, harg, hlex⟩ := lex_argument hty
  have hstart := isWordStart_head_joinWords hws []
  rw [List.append_nil] at hstart
  refine ⟨_, ?_, Phrase.template hws.1 (lex_name hws) halone htemplate harg.argument,
    startsOperand_append (startsOperand_append (startsOperand_append (startsOperand_of_isWordStart hstart)))⟩
  intro r hr
  have hbracket : EndsWord ("<".toList ++ (ty.render.toList ++ (">".toList ++ r))) := endsWord_cons (by decide) _
  simp only [String.toList_append, List.append_assoc]
  rw [lex_joinWords hws hbracket, hlex r hr.endsType]
  simp only [Option.map_map, Function.comp_def]

/-- A member of a template with its argument. -/
theorem templateMember (ws : List String) {m : String} {ty : Ty} (hws : AreWords ws)
    (halone : ws.length = 1 → ∀ w ∈ ws, w ∉ keywords) (htemplate : joinWords ws ∈ callableTemplates) (hm : IsIdentifier m)
    (hty : ty.WellNamed) :
    Renders k true (joinWords ws ++ "<" ++ ty.render ++ ">::" ++ m) (.name (joinWords ws ++ "<" ++ ty.render ++ ">::" ++ m)) := by
  obtain ⟨us, harg, hlex⟩ := lex_argument hty
  have hstart := isWordStart_head_joinWords hws []
  rw [List.append_nil] at hstart
  have hlexes : Lexes true (joinWords ws ++ "<" ++ ty.render ++ ">::" ++ m)
      (wordTokens ws ++ .punct (.op .lt) :: (us ++ [.punct .scope, .word m])) := by
    intro r hr
    have htext : (joinWords ws ++ "<" ++ ty.render ++ ">::" ++ m).toList ++ r = (joinWords ws).toList ++
        ("<".toList ++ (ty.render.toList ++ (">".toList ++ (Punct.scope.chars ++ (m.toList ++ r))))) := by simp [Punct.chars]
    have hbracket : EndsWord ("<".toList ++ (ty.render.toList ++ (">".toList ++ (Punct.scope.chars ++ (m.toList ++ r))))) :=
      endsWord_cons (by decide) _
    have hend : EndsType (Punct.scope.chars ++ (m.toList ++ r)) := endsType_cons (by decide) _
    rw [htext, lex_joinWords hws hbracket, hlex _ hend, lex_separator (by decide),
      lex_word hm.1 hr.endsWord.spec, String.ofList_toList]
    simp only [Option.map_map, Function.comp_def, List.cons_append, List.append_assoc, List.nil_append]
  exact ⟨_, hlexes, Phrase.templateMember hws.1 (lex_name hws) hlexes.lex_eq halone htemplate hm.2 harg,
    startsOperand_append (startsOperand_append (startsOperand_append (startsOperand_append (startsOperand_of_isWordStart hstart))))⟩

/-! ## Grouping -/

/-- A text in parentheses has room everywhere. -/
theorem paren (h : Renders k p s t) : Renders l q ("(" ++ s ++ ")") t := by
  obtain ⟨ts, hlex, hread, -⟩ := h
  refine ⟨_, ?_, hread.paren, startsOperand_append (startsOperand_append (by decide))⟩
  intro r _
  have htext : ("(" ++ s ++ ")").toList ++ r = Punct.lparen.chars ++ (s.toList ++ (Punct.rparen.chars ++ r)) := by
    simp [Punct.chars]
  have hstop : Stops p (Punct.rparen.chars ++ r) := stops_cons (by decide) r
  rw [htext, lex_separator (by decide), hlex _ hstop, lex_separator (by decide)]
  simp only [Option.map_map, Function.comp_def, List.cons_append, List.append_assoc, List.nil_append]

/-- Parentheses where they are wanted leave the tree as it is. -/
theorem group (wanted : Bool) (hrank : wanted = false → l ≤ k) (h : Renders k p s t) :
    Renders l (wanted || p) (Cpp.group wanted s) t := by
  cases wanted with
  | true => exact h.paren
  | false => exact h.mono (hrank rfl)

/-! ## Accesses -/

theorem arrow {m : String} (hm : IsIdentifier m) (h : Renders BindingLevel.access.rank p s t) :
    Renders k true (s ++ "->" ++ m) (.arrow t m) := by
  obtain ⟨ts, hlex, hread, hstart⟩ := h
  refine ⟨_, ?_, hread.arrow (lex_identifier hm) hm.2, startsOperand_append (startsOperand_append hstart)⟩
  intro r hr
  have htext : (s ++ "->" ++ m).toList ++ r = s.toList ++ (Punct.arrow.chars ++ (m.toList ++ r)) := by simp [Punct.chars]
  have hstop : Stops p (Punct.arrow.chars ++ (m.toList ++ r)) := stops_cons (by decide) _
  rw [htext, hlex _ hstop, lex_punct_wordStart (by decide) (isWordStart_head hm.1 r), lex_word hm.1 hr.endsWord.spec,
    String.ofList_toList]
  simp only [Option.map_map, Function.comp_def, List.cons_append, List.append_assoc, List.nil_append]

/-- The text of a member of an object, which must not be a number, as a point would belong to it. -/
theorem dot {m : String} (hm : IsIdentifier m) (h : Renders BindingLevel.access.rank true s t) :
    Renders k true (s ++ "." ++ m) (.dot t m) := by
  obtain ⟨ts, hlex, hread, hstart⟩ := h
  refine ⟨_, ?_, hread.dot (lex_identifier hm) hm.2, startsOperand_append (startsOperand_append hstart)⟩
  intro r hr
  have htext : (s ++ "." ++ m).toList ++ r = s.toList ++ (Punct.dot.chars ++ (m.toList ++ r)) := by simp [Punct.chars]
  have hstop : Stops true (Punct.dot.chars ++ (m.toList ++ r)) := by
    intro d hd
    exact Or.inr ⟨rfl, by simpa [Punct.chars] using hd.symm⟩
  rw [htext, hlex _ hstop, lex_punct_wordStart (by decide) (isWordStart_head hm.1 r), lex_word hm.1 hr.endsWord.spec,
    String.ofList_toList]
  simp only [Option.map_map, Function.comp_def, List.cons_append, List.append_assoc, List.nil_append]

theorem index (h : Renders BindingLevel.access.rank p s t) (hi : Renders l q s' t') :
    Renders k true (s ++ "[" ++ s' ++ "]") (.index t t') := by
  obtain ⟨ts, hlex, hread, hstart⟩ := h
  obtain ⟨us, hilex, hiread, -⟩ := hi
  refine ⟨_, ?_, hread.index hiread, startsOperand_append (startsOperand_append (startsOperand_append hstart))⟩
  intro r _
  have htext : (s ++ "[" ++ s' ++ "]").toList ++ r =
      s.toList ++ (Punct.lbracket.chars ++ (s'.toList ++ (Punct.rbracket.chars ++ r))) := by simp [Punct.chars]
  have hstop : Stops p (Punct.lbracket.chars ++ (s'.toList ++ (Punct.rbracket.chars ++ r))) := stops_cons (by decide) _
  have histop : Stops q (Punct.rbracket.chars ++ r) := stops_cons (by decide) r
  rw [htext, hlex _ hstop, lex_separator (by decide), hilex _ histop, lex_separator (by decide)]
  simp only [Option.map_map, Function.comp_def, List.cons_append, List.append_assoc, List.nil_append]

theorem staticCast {ty : Ty} (hty : ty.WellNamed) (h : Renders l p s t) :
    Renders k true ("static_cast<" ++ ty.render ++ ">(" ++ s ++ ")") (.staticCast ty t) := by
  obtain ⟨us, harg, halex⟩ := lex_argument hty
  obtain ⟨ts, hlex, hread, -⟩ := h
  refine ⟨_, ?_, Phrase.staticCast harg.argument hread,
    startsOperand_append (startsOperand_append (startsOperand_append (startsOperand_append (by decide))))⟩
  intro r _
  have htext : ("static_cast<" ++ ty.render ++ ">(" ++ s ++ ")").toList ++ r = "static_cast".toList ++ ("<".toList ++
      (ty.render.toList ++ (">".toList ++ (Punct.lparen.chars ++ (s.toList ++ (Punct.rparen.chars ++ r)))))) := by
    simp [Punct.chars]
  have hbracket : EndsWord ("<".toList ++ (ty.render.toList ++ (">".toList ++
      (Punct.lparen.chars ++ (s.toList ++ (Punct.rparen.chars ++ r)))))) := endsWord_cons (by decide) _
  have hstop : Stops p (Punct.rparen.chars ++ r) := stops_cons (by decide) r
  have hend : EndsType (Punct.lparen.chars ++ (s.toList ++ (Punct.rparen.chars ++ r))) := endsType_cons (by decide) _
  rw [htext, lex_word (by decide) hbracket.spec, String.ofList_toList, halex _ hend,
    lex_separator (by decide), hlex _ hstop, lex_separator (by decide)]
  simp only [Option.map_map, Function.comp_def, List.cons_append, List.append_assoc, List.nil_append]

/-! ## Operators -/

/-- The token of a prefix operator. -/
def prefixPunct : PrefixOp → Punct
  | .operator .neg => .op .sub
  | .operator .not => .bang
  | .operator .invert => .tilde
  | .deref => .op .mul

theorem prefixOp?_prefixPunct (op : PrefixOp) : prefixOp? (prefixPunct op) = some op := by
  rcases op with (_ | _ | _) | _ <;> rfl

theorem toList_symbol (op : PrefixOp) : op.symbol.toList = (prefixPunct op).chars := by
  rcases op with (_ | _ | _) | _ <;> rfl

/-- Only few characters draw in a prefix operator, and a minus is drawn in by a minus. -/
theorem prefixPunct_spec (op : PrefixOp) : prefixPunct op ∈ Punct.all ∧ prefixPunct op ≠ .dot ∧ prefixPunct op ≠ .op .div ∧
    ∀ c ∈ extenders (prefixPunct op), c = '=' ∨ c = '>' ∨ op = .operator .neg ∧ c = '-' := by
  rcases op with (_ | _ | _) | _ <;> decide +kernel

/-- A prefix operator is a token of its own before what does not draw it in. -/
theorem lex_prefixed {op : PrefixOp} (hminus : op = .operator .neg → s.toList.head? ≠ some '-') (hstart : startsOperand s = true)
    (r : List Char) : lex ((op.symbol ++ s).toList ++ r) = (lex (s.toList ++ r)).map (.punct (prefixPunct op) :: ·) := by
  obtain ⟨hmem, hdot, hdiv, hext⟩ := prefixPunct_spec op
  rw [String.toList_append, List.append_assoc, toList_symbol]
  apply lex_punct hmem
  intro c hc
  rw [startsOperand] at hstart
  obtain ⟨d, cs, hs⟩ : ∃ d cs, s.toList = d :: cs := by
    cases hs : s.toList with
    | nil => rw [hs] at hstart; cases hstart
    | cons d cs => exact ⟨d, cs, rfl⟩
  rw [hs] at hstart hc hminus
  obtain rfl : d = c := by simpa using hc
  simp only [List.head?_cons, Option.any_some, Bool.and_eq_true, bne_iff_ne] at hstart
  refine joins_eq_false (fun hcs => ?_) hdot hdiv
  rcases hext d hcs with rfl | rfl | ⟨rfl, rfl⟩
  · exact hstart.1 rfl
  · exact hstart.2 rfl
  · exact hminus rfl rfl

/-- A prefix operator before an operand that does not draw it in. -/
theorem prefixed {op : PrefixOp} (hminus : op = .operator .neg → s.toList.head? ≠ some '-')
    (h : Renders BindingLevel.unary.rank p s t) : Renders BindingLevel.unary.rank p (op.symbol ++ s) (.unary op t) := by
  obtain ⟨ts, hlex, hread, hstart⟩ := h
  refine ⟨_, ?_, hread.prefixed (prefixOp?_prefixPunct op), startsOperand_append (by rcases op with (_ | _ | _) | _ <;> decide)⟩
  intro r hr
  rw [lex_prefixed hminus hstart, hlex r hr]
  simp only [Option.map_map, Function.comp_def, List.cons_append]

/-- The text of a binary operator, with blanks around it. -/
theorem between {op : BinaryOp} (hl : Renders op.level.rank p s t) (hr : Renders (op.level.rank + 1) q s' t') :
    Renders op.level.rank false (s ++ " " ++ op.symbol ++ " " ++ s') (.binary op t t') := by
  obtain ⟨ts, hlex, hread, hstart⟩ := hl
  obtain ⟨us, hrlex, hrread, -⟩ := hr
  refine ⟨_, ?_, hread.between hrread,
    startsOperand_append (startsOperand_append (startsOperand_append (startsOperand_append hstart)))⟩
  intro r hstop
  have htext : (s ++ " " ++ op.symbol ++ " " ++ s').toList ++ r =
      s.toList ++ (' ' :: (op.symbol.toList ++ ' ' :: (s'.toList ++ r))) := by simp
  rw [htext, hlex _ (stops_cons (by decide) _), lex_op_space, hrlex r hstop.mono]
  simp only [Option.map_map, Function.comp_def, List.cons_append, List.append_assoc]

/-- A colon between blanks is no part of `::`. -/
theorem lex_colon_space (r : List Char) : lex (' ' :: ':' :: ' ' :: r) = (lex r).map (.punct .colon :: ·) := by
  have hjoins : ∀ c, (' ' :: r).head? = some c → joins .colon c = false := by
    intro c hc
    obtain rfl : ' ' = c := by simpa using hc
    decide +kernel
  have hlex := lex_punct (p := .colon) (by decide) hjoins
  rw [lex_space] at hlex
  rw [lex_space]
  exact hlex

theorem conditional {s'' : String} {t'' : Tree} {n : Nat} {b : Bool} (hcond : BindingLevel.logicalOr.rank ≤ k)
    (hc : Renders k p s t) (ht : Renders l q s' t') (hf : Renders n b s'' t'') :
    Renders BindingLevel.conditional.rank false (s ++ " ? " ++ s' ++ " : " ++ s'') (.conditional t t' t'') := by
  obtain ⟨ts, hlex, hread, hstart⟩ := hc
  obtain ⟨us, htlex, htread, -⟩ := ht
  obtain ⟨vs, hflex, hfread, -⟩ := hf
  refine ⟨_, ?_, Phrase.conditional hcond hread htread hfread,
    startsOperand_append (startsOperand_append (startsOperand_append (startsOperand_append hstart)))⟩
  intro r hstop
  have htext : (s ++ " ? " ++ s' ++ " : " ++ s'').toList ++ r =
      s.toList ++ (' ' :: (Punct.question.chars ++ (' ' :: (s'.toList ++ (' ' :: ':' :: ' ' :: (s''.toList ++ r)))))) := by
    simp [Punct.chars]
  rw [htext, hlex _ (stops_cons (by decide) _), lex_space, lex_separator (by decide), lex_space,
    htlex _ (stops_cons (by decide) _), lex_colon_space, hflex r hstop.mono]
  simp only [Option.map_map, Function.comp_def, List.cons_append, List.append_assoc]

/-! ## Lists -/

end Renders

/-- Whether lists end at a bracket. -/
def closesList (close : Punct) : Bool := close == .rparen || close == .rbrace

/-- Both brackets that close lists end expressions and stop texts. -/
theorem closesList_spec {close : Punct} (h : closesList close = true) (point : Bool) (r : List Char) :
    ends (.punct close) = true ∧ close ≠ .comma ∧ close ∈ separators ∧ Stops point (close.chars ++ r) := by
  rw [closesList, Bool.or_eq_true, beq_iff_eq, beq_iff_eq] at h
  rcases h with rfl | rfl <;> exact ⟨rfl, by decide, by decide, stops_cons (by decide) r⟩

/-- A text is the tokens of a list of trees before a closing bracket. -/
def RendersList (close : Punct) (s : String) (items : List Tree) : Prop :=
  ∃ ts, (∀ r, lex (s.toList ++ (close.chars ++ r)) = (lex (close.chars ++ r)).map (ts ++ ·)) ∧
    Spelling (ReadsList close items) (Tree.AllScoped items) ts

namespace Renders

variable {k l : Nat} {p : Bool} {s args : String} {t : Tree} {items : List Tree}

theorem call (hf : Renders BindingLevel.access.rank p s t) (hargs : RendersList .rparen args items) :
    Renders k true (s ++ "(" ++ args ++ ")") (.call t items) := by
  obtain ⟨ts, hlex, hread, hstart⟩ := hf
  obtain ⟨us, halex, haread⟩ := hargs
  refine ⟨_, ?_, hread.call haread, startsOperand_append (startsOperand_append (startsOperand_append hstart))⟩
  intro r _
  have htext : (s ++ "(" ++ args ++ ")").toList ++ r =
      s.toList ++ (Punct.lparen.chars ++ (args.toList ++ (Punct.rparen.chars ++ r))) := by simp [Punct.chars]
  have hstop : Stops p (Punct.lparen.chars ++ (args.toList ++ (Punct.rparen.chars ++ r))) := stops_cons (by decide) _
  rw [htext, hlex _ hstop, lex_separator (by decide), halex, lex_separator (by decide)]
  simp only [Option.map_map, Function.comp_def, List.cons_append, List.append_assoc, List.nil_append]

theorem new {ty : Ty} (hty : ty.WellNamed) (hitems : RendersList .rbrace args items) :
    Renders BindingLevel.unary.rank false ("new " ++ ty.render ++ "\x7b" ++ args ++ "\x7d") (.new ty items) := by
  obtain ⟨us, htread, htlex⟩ := lexesType hty 0
  obtain ⟨vs, hlex, hread⟩ := hitems
  refine ⟨_, ?_, Phrase.new htread hread,
    startsOperand_append (startsOperand_append (startsOperand_append (startsOperand_append (by decide))))⟩
  intro r _
  have htext : ("new " ++ ty.render ++ "\x7b" ++ args ++ "\x7d").toList ++ r = "new".toList ++ (' ' ::
      (ty.render.toList ++ (List.replicate 0 '>' ++ (Punct.lbrace.chars ++ (args.toList ++ (Punct.rbrace.chars ++ r)))))) := by
    simp [Punct.chars]
  have hblank : EndsWord (' ' :: (ty.render.toList ++ (List.replicate 0 '>' ++
      (Punct.lbrace.chars ++ (args.toList ++ (Punct.rbrace.chars ++ r)))))) := endsWord_cons (by decide) _
  have hend : EndsType (Punct.lbrace.chars ++ (args.toList ++ (Punct.rbrace.chars ++ r))) := endsType_cons (by decide) _
  rw [htext, lex_word (by decide) hblank.spec, String.ofList_toList, lex_space, htlex _ hend, lex_separator (by decide), hlex,
    lex_separator (by decide)]
  simp only [Option.map_map, Function.comp_def, List.cons_append, List.append_assoc, List.nil_append]

end Renders

/-! ## Expressions -/

/-- The text of an expression is the tokens of its tree, for wherever an operand that binds as tightly has room. -/
def Rendered (e : Expr) : Prop := Renders e.level.rank e.acceptsPoint e.render e.tree

/-- The text of an expression is read as its tree. -/
theorem Rendered.read_render {e : Expr} (h : Rendered e) (hscoped : e.tree.Scoped) : read e.render = some e.tree :=
  Renders.read_eq h hscoped

/-- With a keyword next to `::` in a name, it is not read at all. -/
theorem Rendered.read_render_eq_none {e : Expr} (h : Rendered e) (hscoped : ¬e.tree.Scoped) : read e.render = none :=
  Renders.read_eq_none h hscoped

/-- With every qualified name taken for one word, it is read as its tree in both cases. -/
theorem Rendered.readJoined_render {e : Expr} (h : Rendered e) : readJoined e.render = some e.tree := Renders.readJoined_eq h

/-- The text of an expression is read as its tree, wherever an operand that binds as tightly has room. -/
structure Written (e : Expr) : Prop where
  rendered : Rendered e
  namesScoped : e.tree.Scoped

theorem Written.read_render {e : Expr} (h : Written e) : read e.render = some e.tree := h.rendered.read_render h.namesScoped

/-- An operand stands in parentheses where it would bind too loosely. -/
theorem Rendered.operand {e : Expr} (h : Rendered e) (k : Nat) :
    Renders k (e.looserThan k || e.acceptsPoint) (group (e.looserThan k) e.render) e.tree := by
  refine Renders.group _ ?_ h
  intro hloose
  rw [Expr.looserThan, decide_eq_false_iff_not] at hloose
  omega

/-- Tokens are the items of a list before its closing bracket, and begin with one. -/
def ReadsItems (close : Punct) (items : List Tree) (ts : List Token) : Prop :=
  (∃ k hd tl t, ts = hd ++ tl ∧ Reads k hd t) ∧ ∀ r, readItems close (ts ++ .punct close :: r) = some (items, r)

/-- The items of a list that has some. -/
theorem renders_items {close : Punct} (hclose : closesList close = true) (e : Expr) (es : List Expr)
    (h : ∀ x ∈ e :: es, Rendered x) :
    ∃ ts, (∀ r, lex ((Expr.renderList (e :: es)).toList ++ (close.chars ++ r)) = (lex (close.chars ++ r)).map (ts ++ ·)) ∧
      Spelling (ReadsItems close (Expr.trees (e :: es))) (Tree.AllScoped (Expr.trees (e :: es))) ts := by
  induction es generalizing e with
  | nil =>
    obtain ⟨ts, hlex, hphrase, -⟩ := h e List.mem_cons_self
    refine ⟨ts, ?_, (Spelling.map hphrase fun ts hts => ⟨?_, ?_⟩).congr (and_iff_left trivial).symm⟩
    · intro r
      rw [Expr.renderList]
      exact hlex _ (closesList_spec hclose _ r).2.2.2
    · exact ⟨_, ts, [], _, (List.append_nil ts).symm, hts⟩
    · exact readItems_last (closesList_spec hclose false []).1 hts
  | cons e' es ih =>
    obtain ⟨ts, hlex, hphrase, -⟩ := h e List.mem_cons_self
    obtain ⟨us, hulex, hitems⟩ := ih e' fun x hx => h x (List.mem_cons_of_mem e hx)
    refine ⟨ts ++ .punct .comma :: us, ?_, Spelling.between rfl hphrase hitems fun ts us hts hus => ⟨?_, ?_⟩⟩
    · intro r
      have htext : (Expr.renderList (e :: e' :: es)).toList ++ (close.chars ++ r) = e.render.toList ++
          (Punct.comma.chars ++ (' ' :: ((Expr.renderList (e' :: es)).toList ++ (close.chars ++ r)))) := by
        rw [Expr.renderList]
        · simp [Punct.chars]
        · exact List.cons_ne_nil e' es
      have hstop : Stops e.acceptsPoint
          (Punct.comma.chars ++ (' ' :: ((Expr.renderList (e' :: es)).toList ++ (close.chars ++ r)))) := stops_cons (by decide) _
      rw [htext, hlex _ hstop, lex_separator (by decide), lex_space, hulex]
      simp only [Option.map_map, Function.comp_def, List.cons_append, List.append_assoc]
    · exact ⟨_, ts, _, _, rfl, hts⟩
    · intro r
      rw [List.append_assoc, List.cons_append]
      exact readItems_cons (closesList_spec hclose false []).2.1 hts (hus.2 r)

/-- A list of expressions is written with commas between the texts of the expressions. -/
theorem rendersList {close : Punct} (hclose : closesList close = true) {es : List Expr} (h : ∀ x ∈ es, Rendered x) :
    RendersList close (Expr.renderList es) (Expr.trees es) := by
  cases es with
  | nil => exact ⟨[], fun r => by simp [Expr.renderList], Spelling.nil (readList_nil close)⟩
  | cons e es =>
    obtain ⟨ts, hlex, hitems⟩ := renders_items hclose e es h
    refine ⟨ts, hlex, hitems.map ?_⟩
    rintro _ ⟨⟨k, hd, tl, t, rfl, hread⟩, hitems⟩ r
    have hlist := readList_eq_readItems (closesList_spec hclose false []).1 hread (tl ++ .punct close :: r)
    rw [← List.append_assoc, hitems r] at hlist
    exact hlist

/-- The literals that a point would extend. -/
def Expr.isNumber : Expr → Bool
  | .int _ _ | .float _ => true
  | _ => false

/-- A point may follow the text of every other operand of an access. -/
theorem acceptsPoint_of_not_isNumber {e : Expr} (h : e.isNumber = false) :
    (e.looserThan BindingLevel.access.rank || e.acceptsPoint) = true := by
  cases e with
  | int n s => cases h
  | float d => cases h
  | binary op l r =>
    have hlt := rank_lt_unary op
    have hle : BindingLevel.unary.rank ≤ BindingLevel.access.rank := by decide
    have hloose : (Expr.binary op l r).looserThan BindingLevel.access.rank = true := by
      rw [Expr.looserThan, Expr.level, decide_eq_true_eq]
      omega
    rw [hloose, Bool.true_or]
  | _ => rfl

section

variable {e e' e'' : Expr} {es : List Expr} {m : String} {t : Ty}

theorem rendered_int (n : Nat) (s : IntSuffix) : Rendered (.int n s) := Renders.int n s

theorem rendered_float (d : Decimal) : Rendered (.float d) := Renders.float d

theorem rendered_bool (b : Bool) : Rendered (.bool b) := Renders.bool b

theorem rendered_string (style : Escape.Style) (bytes : List UInt8) : Rendered (.string style bytes) := Renders.string style bytes

theorem rendered_name {n : String} (hn : IsValueName n) : Rendered (.name n) := Renders.name hn

/-- The values without digits that the library gives. -/
theorem rendered_limits (hm : IsIdentifier m) : Rendered (.name ("std::numeric_limits<double>::" ++ m)) := by
  have hdouble : Ty.WellNamed (.named "double") := ⟨["double"], by decide, by decide, by decide, rfl⟩
  have htext : joinWords ["std", "numeric_limits"] ++ "<" ++ Ty.render (.named "double") ++ ">::" =
      "std::numeric_limits<double>::" := by decide
  have hname := Renders.templateMember (k := BindingLevel.primary.rank) ["std", "numeric_limits"] (by decide) nofun (by decide)
    hm hdouble
  rw [htext] at hname
  exact hname

theorem rendered_paren (h : Rendered e) : Rendered (.paren e) := Renders.paren h

/-- A call reads back if its function and its arguments do. -/
theorem rendered_call (hf : Rendered e) (hargs : ∀ x ∈ es, Rendered x) : Rendered (.call e es) :=
  Renders.call (hf.operand _) (rendersList (by decide) hargs)

theorem rendered_arrow (hm : IsIdentifier m) (h : Rendered e) : Rendered (.arrow e m) := Renders.arrow hm (h.operand _)

/-- A member of an object reads back unless the object is a number. -/
theorem rendered_dot (hm : IsIdentifier m) (hnumber : e.isNumber = false) (h : Rendered e) : Rendered (.dot e m) := by
  have hobject := h.operand BindingLevel.access.rank
  rw [acceptsPoint_of_not_isNumber hnumber] at hobject
  exact Renders.dot hm hobject

theorem rendered_index (h : Rendered e) (hi : Rendered e') : Rendered (.index e e') := Renders.index (h.operand _) hi

theorem rendered_staticCast (ht : t.WellNamed) (h : Rendered e) : Rendered (.staticCast t e) := Renders.staticCast ht h

/-- A new object reads back if its type is well-named and its items read back. -/
theorem rendered_new (ht : t.WellNamed) (h : ∀ x ∈ es, Rendered x) : Rendered (.new t es) :=
  Renders.new ht (rendersList (by decide) h)

/-- A call of a template on one argument. -/
theorem renders_templateCall {k : Nat} (ws : List String) (hws : AreWords ws) (halone : ws.length = 1 → ∀ w ∈ ws, w ∉ keywords)
    (htemplate : joinWords ws ∈ callableTemplates) (ht : t.WellNamed) (h : Rendered e) :
    Renders k true (joinWords ws ++ "<" ++ t.render ++ ">" ++ "(" ++ e.render ++ ")")
      (.call (.template (joinWords ws) t) [e.tree]) := by
  have hargs : RendersList .rparen (Expr.renderList [e]) (Expr.trees [e]) := by
    apply rendersList (by decide)
    intro x hx
    rwa [List.mem_singleton.1 hx]
  exact Renders.call (Renders.template ws hws halone htemplate ht) hargs

/-- A cast between shared pointers is the call of a template. -/
theorem rendered_staticPointerCast (ht : t.WellNamed) (h : Rendered e) : Rendered (.staticPointerCast t e) := by
  have hname : joinWords ["std", "static_pointer_cast"] = "std::static_pointer_cast" := by decide
  have hcall := renders_templateCall (k := BindingLevel.access.rank) ["std", "static_pointer_cast"] (by decide) nofun (by decide) ht h
  have htext : "std::static_pointer_cast<" ++ t.render ++ ">(" ++ e.render ++ ")" =
      "std::static_pointer_cast" ++ "<" ++ t.render ++ ">" ++ "(" ++ e.render ++ ")" := by
    rw [← String.toList_inj]
    simp
  rw [hname, ← htext] at hcall
  exact hcall

/-- So is an owning pointer. -/
theorem rendered_own (ht : t.WellNamed) (h : Rendered e) : Rendered (.own t e) := by
  have hname : joinWords ["std", "unique_ptr"] = "std::unique_ptr" := by decide
  have hcall := renders_templateCall (k := BindingLevel.unary.rank) ["std", "unique_ptr"] (by decide) nofun (by decide) ht h
  have htext : (Ty.unique t).render ++ "(" ++ e.render ++ ")" =
      "std::unique_ptr" ++ "<" ++ t.render ++ ">" ++ "(" ++ e.render ++ ")" := by
    change "std::unique_ptr<" ++ t.render ++ ">" ++ "(" ++ e.render ++ ")" = _
    rw [← String.toList_inj]
    simp
  rw [hname, ← htext] at hcall
  exact hcall.beforeNoPoint

/-- A minus before an operand that begins with one is kept apart from it by parentheses. -/
theorem rendered_unary (op : PrefixOp) (h : Rendered e) : Rendered (.unary op e) := by
  have hoperand := h.operand BindingLevel.unary.rank
  have htext : (Expr.unary op e).render = Expr.unaryText op (group (e.looserThan BindingLevel.unary.rank) e.render) := rfl
  generalize group (e.looserThan BindingLevel.unary.rank) e.render = s at hoperand htext
  rw [Expr.unaryText] at htext
  generalize hwanted : (op == .operator .neg && s.toList.head? == some '-') = wanted at htext
  have hgrouped := Renders.group wanted (fun _ => Nat.le_refl BindingLevel.unary.rank) hoperand
  have hminus : op = .operator .neg → (group wanted s).toList.head? ≠ some '-' := by
    rintro rfl
    cases wanted with
    | true => simp [group]
    | false => simpa [group] using hwanted
  have hprefixed := (hgrouped.prefixed hminus).beforeNoPoint
  rw [← htext] at hprefixed
  exact hprefixed

/-- A binary operator reads back, with the parentheses that the printer puts around its operands. -/
theorem rendered_binary (op : BinaryOp) (hl : Rendered e) (hr : Rendered e') : Rendered (.binary op e e') :=
  Renders.between (hl.operand _) (hr.operand _)

/-- A conditional reads back if its condition is none itself. -/
theorem rendered_conditional (hcond : BindingLevel.logicalOr.rank ≤ e.level.rank) (hc : Rendered e) (ht : Rendered e')
    (hf : Rendered e'') : Rendered (.conditional e e' e'') :=
  Renders.conditional hcond hc ht hf

end

end ExprToCpp.Cpp
