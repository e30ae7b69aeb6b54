import ExprToCpp.Proofs.Cpp.Phrase

/-!
# The text of names and types

A qualified name is words with `::` between them; a type ends in the brackets that close its template arguments, which come
out as fewer tokens where two stand in a row. Main statements: `lex_joinWords` and `lexesType`.
-/

namespace ExprToCpp.Cpp

/-! ## Names -/

/-- The text of words, each of letters, digits and underscores. -/
def AreWords (ws : List String) : Prop := ws ≠ [] ∧ ∀ w ∈ ws, Lexer.isWord w.toList = true

instance (ws : List String) : Decidable (AreWords ws) := inferInstanceAs (Decidable (_ ∧ _))

/-- The name of a value or a function: a word that is no keyword, or a qualified name, no template among them. -/
def IsValueName (n : String) : Prop :=
  ∃ ws, AreWords ws ∧ (ws.length = 1 → ∀ w ∈ ws, w ∉ keywords) ∧ Reader.joinWords ws ∉ Reader.callableTemplates ∧ n = Reader.joinWords ws

/-- The name of a type: a word that is one or no keyword, or a qualified name, no template among them. -/
def IsTypeName (n : String) : Prop :=
  ∃ ws, AreWords ws ∧ (ws.length = 1 → ∀ w ∈ ws, w ∉ reservedWords) ∧ Reader.classTemplate? (Reader.joinWords ws) = none ∧
    n = Reader.joinWords ws

/-- A word that is no keyword. -/
def IsIdentifier (m : String) : Prop := Lexer.isWord m.toList = true ∧ m ∉ keywords

/-- A type in which every name is the name of a type. -/
def Ty.WellNamed : Ty → Prop
  | .named n => IsTypeName n
  | .vector t | .pointer t | .shared t | .unique t => t.WellNamed

namespace Lexer

open Reader

/-- Whether a word ends before a character. -/
def endsWord (c : Char) : Bool := !isWordChar c && c != '"'

/-- Nothing follows, or what ends a word. -/
def EndsWord (r : List Char) : Prop := ∀ d, r.head? = some d → endsWord d = true

/-- What ends a word is no character of words, and opens no literal. -/
theorem EndsWord.spec {r : List Char} (h : EndsWord r) : ∀ d, r.head? = some d → isWordChar d = false ∧ d ≠ '"' := by
  intro d hd
  have hend := h d hd
  rw [endsWord, Bool.and_eq_true, Bool.not_eq_true', bne_iff_ne] at hend
  exact hend

theorem endsWord_cons {c : Char} (hc : endsWord c = true) (r : List Char) : EndsWord (c :: r) := by
  intro d hd
  obtain rfl : c = d := by simpa using hd
  exact hc

theorem isWordStart_head {w : List Char} (hw : isWord w = true) (r : List Char) : (w ++ r).head?.any isWordStart = true := by
  cases w with
  | nil => cases hw
  | cons c w =>
    rw [isWord, Bool.and_eq_true] at hw
    exact hw.1

/-- The text of a qualified name, word by word. -/
theorem toList_joinWords_cons (w v : String) (ws : List String) :
    (joinWords (w :: v :: ws)).toList = w.toList ++ (Punct.scope.chars ++ (joinWords (v :: ws)).toList) := by
  rw [joinWords, String.intercalate_cons_cons, String.toList_append, String.toList_append, List.append_assoc]
  rfl

/-- A qualified name is its words with the scope operator between them. -/
theorem lex_joinWords {ws : List String} (hws : AreWords ws) {r : List Char} (hr : EndsWord r) :
    lex ((joinWords ws).toList ++ r) = (lex r).map (wordTokens ws ++ ·) := by
  obtain ⟨hne, hwords⟩ := hws
  induction ws with
  | nil => exact absurd rfl hne
  | cons w ws ih =>
    have hw := hwords w List.mem_cons_self
    cases ws with
    | nil =>
      have hlex := lex_word hw hr.spec
      rw [String.ofList_toList] at hlex
      rw [joinWords, String.intercalate_singleton]
      exact hlex
    | cons v ws =>
      have hscope : EndsWord (Punct.scope.chars ++ ((joinWords (v :: ws)).toList ++ r)) := endsWord_cons (by decide) _
      have htail := ih (List.cons_ne_nil v ws) fun x hx => hwords x (List.mem_cons_of_mem w hx)
      rw [toList_joinWords_cons, List.append_assoc, List.append_assoc, lex_word hw hscope.spec, String.ofList_toList,
        lex_separator (by decide), htail]
      simp only [Option.map_map, Function.comp_def, wordTokens, List.cons_append]

/-- A qualified name is the tokens of its words. -/
theorem lex_name {ws : List String} (hws : AreWords ws) : lex (joinWords ws).toList = some (wordTokens ws) := by
  have hlex := lex_joinWords hws (r := []) nofun
  simpa [lex_nil] using hlex

/-- An identifier is one token. -/
theorem lex_identifier {m : String} (hm : IsIdentifier m) : lex m.toList = some [.word m] := by
  have hwords : AreWords [m] := ⟨List.cons_ne_nil m [], by simpa using hm.1⟩
  have hlex := lex_name hwords
  simpa [joinWords, wordTokens] using hlex

/-- A qualified name has a `::` next to each of its words. -/
theorem scopedName_joinWords {ws : List String} (hws : AreWords ws) :
    ScopedName (joinWords ws) ↔ ws.length = 1 ∨ ∀ w ∈ ws, w ∉ keywords :=
  (scopedName_iff (lex_name hws)).trans (scoped_wordTokens_iff hws.1)

/-- A qualified name begins like a word. -/
theorem isWordStart_head_joinWords {ws : List String} (hws : AreWords ws) (r : List Char) :
    ((joinWords ws).toList ++ r).head?.any isWordStart = true := by
  obtain ⟨hne, hwords⟩ := hws
  cases ws with
  | nil => exact absurd rfl hne
  | cons w ws =>
    have hw := hwords w List.mem_cons_self
    cases ws with
    | nil =>
      rw [joinWords, String.intercalate_singleton]
      exact isWordStart_head hw r
    | cons v ws =>
      rw [toList_joinWords_cons, List.append_assoc]
      exact isWordStart_head hw _

/-! ## Types -/

/-- Nothing follows, or what ends a type: it ends a word and is drawn into no closing bracket. -/
def EndsType (r : List Char) : Prop := ∀ d, r.head? = some d → endsWord d = true ∧ d ≠ '>' ∧ d ≠ '='

theorem EndsType.endsWord {r : List Char} (h : EndsType r) : EndsWord r := fun d hd => (h d hd).1

theorem endsType_cons {c : Char} (hc : Lexer.endsWord c = true ∧ c ≠ '>' ∧ c ≠ '=') (r : List Char) : EndsType (c :: r) := by
  intro d hd
  obtain rfl : c = d := by simpa using hd
  exact hc

/-- An operator that only an equals sign could extend ends before closing brackets and what ends a type. -/
theorem joins_before_closers {op : BinaryOp} (hext : extenders (.op op) = ['=']) (hdiv : op ≠ .div) (n : Nat) {r : List Char}
    (hr : EndsType r) : ∀ c, (List.replicate n '>' ++ r).head? = some c → joins (.op op) c = false := by
  intro c hc
  refine joins_eq_false ?_ nofun (by simpa using hdiv)
  rw [hext, List.mem_singleton]
  rintro rfl
  cases n with
  | zero => exact (hr _ hc).2.2 rfl
  | succ n => cases hc

/-- The brackets that close template arguments, two of them in one token where they can be. -/
theorem exists_closers (n : Nat) :
    ∃ cs, Closers n cs ∧ ∀ r, EndsType r → lex (List.replicate n '>' ++ r) = (lex r).map (cs ++ ·) := by
  match n with
  | 0 => exact ⟨[], Closers.nil, by simp⟩
  | 1 =>
    refine ⟨[.punct (.op .gt)], Closers.nil.one, ?_⟩
    intro r hr
    apply lex_punct (op_mem_all .gt)
    intro c hc
    have hext : ∀ d ∈ extenders (.op .gt), d = '>' ∨ d = '=' := by decide +kernel
    refine joins_eq_false (fun hmem => ?_) (by decide) (by decide)
    rcases hext c hmem with rfl | rfl
    · exact (hr _ hc).2.1 rfl
    · exact (hr _ hc).2.2 rfl
  | n + 2 =>
    obtain ⟨cs, hcs, hlex⟩ := exists_closers n
    refine ⟨.punct (.op .shr) :: cs, hcs.two, ?_⟩
    intro r hr
    have hpunct := lex_punct (op_mem_all .shr) (joins_before_closers (by decide +kernel) (by decide) n hr)
    rw [hlex r hr, Option.map_map] at hpunct
    exact hpunct

theorem render_pointer (t : Ty) : (Ty.pointer t).render = t.render ++ "*" := rfl

/-- The text of a type begins with a word. -/
theorem isWordStart_head_render {t : Ty} (ht : t.WellNamed) (r : List Char) : (t.render.toList ++ r).head?.any isWordStart = true := by
  induction t generalizing r with
  | named n =>
    obtain ⟨ws, hws, -, -, rfl⟩ := ht
    exact isWordStart_head_joinWords hws r
  | pointer t ih =>
    rw [render_pointer, String.toList_append, List.append_assoc]
    exact ih ht _
  | vector t =>
    change (("std::vector<" ++ t.render ++ ">").toList ++ r).head?.any isWordStart = true
    rw [String.append_assoc, String.toList_append, List.append_assoc]
    rfl
  | shared t =>
    change (("std::shared_ptr<" ++ t.render ++ ">").toList ++ r).head?.any isWordStart = true
    rw [String.append_assoc, String.toList_append, List.append_assoc]
    rfl
  | unique t =>
    change (("std::unique_ptr<" ++ t.render ++ ">").toList ++ r).head?.any isWordStart = true
    rw [String.append_assoc, String.toList_append, List.append_assoc]
    rfl

/-- The text of a type with `n` brackets after it is the tokens of the type, with the brackets left to close. -/
def LexesType (n : Nat) (t : Ty) : Prop :=
  ∃ ts, TypePhrase n ts t ∧
    ∀ r, EndsType r → lex (t.render.toList ++ (List.replicate n '>' ++ r)) = (lex r).map (ts ++ ·)

/-- A class template is written before its argument in brackets. -/
theorem LexesType.instantiated (ws : List String) {n : Nat} {t : Ty} {make : Ty → Ty} (hws : AreWords ws)
    (halone : ws.length = 1 → ∀ w ∈ ws, w ∉ reservedWords) (hscoped : ScopedName (joinWords ws))
    (hmake : classTemplate? (joinWords ws) = some make) (hsame : (make t).Scoped ↔ t.Scoped)
    (hrender : (make t).render = joinWords ws ++ "<" ++ t.render ++ ">") (ht : t.WellNamed) (h : LexesType (n + 1) t) : LexesType n (make t) := by
  obtain ⟨ts, hts, hlex⟩ := h
  refine ⟨wordTokens ws ++ .punct (.op .lt) :: ts, hts.instantiated hws.1 (lex_name hws) halone hscoped hmake hsame, ?_⟩
  intro r hr
  have htext : (make t).render.toList ++ (List.replicate n '>' ++ r) =
      (joinWords ws).toList ++ ((Punct.op .lt).chars ++ (t.render.toList ++ (List.replicate (n + 1) '>' ++ r))) := by
    rw [hrender]
    simp [List.replicate_succ, Punct.chars, BinaryOp.symbol]
  have hbracket : EndsWord ((Punct.op .lt).chars ++ (t.render.toList ++ (List.replicate (n + 1) '>' ++ r))) :=
    endsWord_cons (by decide) _
  rw [htext, lex_joinWords hws hbracket, lex_punct_wordStart (op_mem_all .lt) (isWordStart_head_render ht _), hlex r hr]
  simp only [Option.map_map, Function.comp_def, List.append_assoc, List.cons_append]

/-- The text of a well-named type is its tokens, whatever is left to close. -/
theorem lexesType {t : Ty} (ht : t.WellNamed) (n : Nat) : LexesType n t := by
  induction t generalizing n with
  | named m =>
    obtain ⟨ws, hws, halone, htemplate, rfl⟩ := ht
    obtain ⟨cs, hcs, hlex⟩ := exists_closers n
    refine ⟨_, TypePhrase.named hws.1 (lex_name hws) halone htemplate hcs, ?_⟩
    intro r hr
    have hends : EndsWord (List.replicate n '>' ++ r) := by
      cases n with
      | zero => exact hr.endsWord
      | succ n => exact endsWord_cons (by decide) _
    refine (lex_joinWords hws hends).trans ?_
    rw [hlex r hr]
    simp only [Option.map_map, Function.comp_def, List.append_assoc]
  | pointer t ih =>
    obtain ⟨cs, hcs, hlex⟩ := exists_closers n
    obtain ⟨ts, hts, htlex⟩ := ih ht 0
    refine ⟨_, hts.pointer hcs, ?_⟩
    intro r hr
    have hstar : EndsType ((Punct.op .mul).chars ++ (List.replicate n '>' ++ r)) := endsType_cons (by decide) _
    have hpointee := htlex _ hstar
    rw [List.replicate_zero, List.nil_append,
      lex_punct (op_mem_all .mul) (joins_before_closers (by decide +kernel) (by decide) n hr), hlex r hr] at hpointee
    rw [render_pointer, String.toList_append, List.append_assoc]
    refine hpointee.trans ?_
    simp only [Option.map_map, Function.comp_def, List.append_assoc, List.cons_append]
  | vector t ih =>
    exact LexesType.instantiated ["std", "vector"] (by decide) nofun (by decide +kernel) rfl Iff.rfl rfl ht (ih ht (n + 1))
  | shared t ih =>
    exact LexesType.instantiated ["std", "shared_ptr"] (by decide) nofun (by decide +kernel) rfl Iff.rfl rfl ht (ih ht (n + 1))
  | unique t ih =>
    exact LexesType.instantiated ["std", "unique_ptr"] (by decide) nofun (by decide +kernel) rfl Iff.rfl rfl ht (ih ht (n + 1))

end Lexer

end ExprToCpp.Cpp
