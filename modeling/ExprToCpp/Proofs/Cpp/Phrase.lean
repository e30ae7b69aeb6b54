import ExprToCpp.Proofs.Cpp.Scopes

/-!
# The tokens of a tree

`Phrase rank ts t` says that tokens are those of a tree: they are read as the tree if no keyword stands next to `::` in its names,
and else one stands there in the tokens; with every qualified name taken for one word they are read as the tree in both cases. There
is one statement for each form of expression, about tokens of its parts. How the names are spelled is the same matter for all forms,
and `Spelling` deals with it once.
-/

namespace ExprToCpp.Cpp

open Reader

/-! ## Names, types and trees -/

/-- No keyword stands next to `::` in a name. -/
def ScopedName (n : String) : Prop := ∀ ts ∈ Lexer.lex n.toList, Scoped ts

instance (n : String) : Decidable (ScopedName n) := inferInstanceAs (Decidable (∀ ts ∈ Lexer.lex n.toList, Scoped ts))

/-- Whether a keyword stands next to `::` in a name is seen from its tokens. -/
theorem scopedName_iff {n : String} {ts : List Token} (h : Lexer.lex n.toList = some ts) : ScopedName n ↔ Scoped ts := by
  refine ⟨fun hn => hn ts h, fun hts us hus => ?_⟩
  obtain rfl := Option.some.inj (h.symm.trans hus)
  exact hts

/-- No keyword stands next to `::` in the names of a type. -/
def Ty.Scoped : Ty → Prop
  | .named n => ScopedName n
  | .vector t | .pointer t | .shared t | .unique t => t.Scoped

namespace Tree

mutual

/-- No keyword stands next to `::` in the names of a tree. -/
def Scoped : Tree → Prop
  | .int _ _ | .float _ | .bool _ | .string _ => True
  | .name n => ScopedName n
  | .template n t => ScopedName n ∧ t.Scoped
  | .call f args => f.Scoped ∧ AllScoped args
  | .arrow e m | .dot e m => e.Scoped ∧ ScopedName m
  | .unary _ e => e.Scoped
  | .index e i => e.Scoped ∧ i.Scoped
  | .staticCast t e => t.Scoped ∧ e.Scoped
  | .new t items => t.Scoped ∧ AllScoped items
  | .binary _ l r => l.Scoped ∧ r.Scoped
  | .conditional c t f => c.Scoped ∧ t.Scoped ∧ f.Scoped

/-- None stands there in the names of all trees of a list. -/
def AllScoped : List Tree → Prop
  | [] => True
  | t :: ts => t.Scoped ∧ AllScoped ts

end

end Tree

/-! ## Spellings -/

namespace Reader

/-- Tokens are read in some way if `A` holds, and if it does not, a keyword stands next to `::` in them. With every qualified name
taken for one word they are read this way in both cases. -/
structure Spelling (P : List Token → Prop) (A : Prop) (ts : List Token) : Prop where
  scoped_iff : Scoped ts ↔ A
  reads : A → P ts
  joined : P (joinNames ts)

/-- The brackets that close template arguments come after every name. -/
theorem scoped_append_closers {n : Nat} {ts cs : List Token} (hcs : Closers n cs) : Scoped (ts ++ cs) ↔ Scoped ts := by
  have hclosers : Scoped cs := by
    induction hcs with
    | nil => exact scoped_nil
    | one _ ih | two _ ih => exact (scoped_cons_of_isApart rfl).2 ih
  cases hcs with
  | nil => rw [List.append_nil]
  | one | two =>
    rw [scoped_append_cons rfl]
    exact and_iff_left ((scoped_cons_of_isApart rfl).1 hclosers)

/-- Nor does a bracket that closes an argument belong to a name. -/
theorem joinNames_append_closers {n : Nat} {cs : List Token} (hcs : Closers n cs) (ts : List Token) :
    joinNames (ts ++ cs) = joinNames ts ++ cs := by
  have hclosers : joinNames cs = cs := by
    induction hcs with
    | nil => rfl
    | one _ ih | two _ ih => rw [joinNames_cons_of_isApart rfl, ih]
  cases hcs with
  | nil => rw [List.append_nil, List.append_nil]
  | one | two =>
    rw [joinNames_cons_of_isApart rfl] at hclosers
    rw [joinNames_append_cons rfl, (List.cons.inj hclosers).2]

/-- Brackets that close something end in a token of another kind than names have. -/
theorem Closers.exists_last {n : Nat} {cs : List Token} (h : Closers n cs) (hn : 0 < n) :
    ∃ us x, isApart x = true ∧ cs = us ++ [x] := by
  induction h with
  | nil => cases hn
  | @one n cs h ih =>
    rcases Nat.eq_zero_or_pos n with rfl | hpos
    · exact ⟨[], _, rfl, by rw [h.eq_nil]; rfl⟩
    · obtain ⟨us, x, hx, rfl⟩ := ih hpos
      exact ⟨_ :: us, x, hx, rfl⟩
  | @two n cs h ih =>
    rcases Nat.eq_zero_or_pos n with rfl | hpos
    · exact ⟨[], _, rfl, by rw [h.eq_nil]; rfl⟩
    · obtain ⟨us, x, hx, rfl⟩ := ih hpos
      exact ⟨_ :: us, x, hx, rfl⟩

namespace Spelling

variable {P Q R : List Token → Prop} {A B : Prop} {x y : Token} {ts us cs : List Token} {n : Nat}

/-- What is read in one way is read in another that follows from it. -/
theorem map (h : Spelling P A ts) (hread : ∀ ts, P ts → R ts) : Spelling R A ts :=
  ⟨h.scoped_iff, fun hA => hread _ (h.reads hA), hread _ h.joined⟩

theorem congr (h : Spelling P A ts) (hAB : A ↔ B) : Spelling P B ts :=
  ⟨h.scoped_iff.trans hAB, fun hB => h.reads (hAB.2 hB), h.joined⟩

theorem nil (h : P []) : Spelling P True [] := ⟨iff_of_true scoped_nil trivial, fun _ => h, h⟩

/-- A token that stands alone is next to no other. -/
theorem token (h : P [x]) : Spelling P True [x] := by
  refine ⟨iff_of_true (scoped_singleton x) trivial, fun _ => h, ?_⟩
  rwa [joinNames_cons (by simp), joinNames]

/-- Two pieces with a token of another kind between them. -/
theorem between (hx : isApart x = true) (h : Spelling P A ts) (h' : Spelling Q B us)
    (hread : ∀ ts us, P ts → Q us → R (ts ++ x :: us)) : Spelling R (A ∧ B) (ts ++ x :: us) where
  scoped_iff := by rw [scoped_append_cons hx, h.scoped_iff, h'.scoped_iff]
  reads := fun hAB => hread _ _ (h.reads hAB.1) (h'.reads hAB.2)
  joined := by
    rw [joinNames_append_cons hx]
    exact hread _ _ h.joined h'.joined

/-- Two pieces, the second one in brackets. -/
theorem around (hx : isApart x = true) (hy : isApart y = true) (h : Spelling P A ts) (h' : Spelling Q B us)
    (hread : ∀ ts us, P ts → Q us → R (ts ++ x :: (us ++ [y]))) : Spelling R (A ∧ B) (ts ++ x :: (us ++ [y])) where
  scoped_iff := by
    rw [scoped_append_cons hx, scoped_append_cons hy, h.scoped_iff, h'.scoped_iff, and_iff_left scoped_nil]
  reads := fun hAB => hread _ _ (h.reads hAB.1) (h'.reads hAB.2)
  joined := by
    rw [joinNames_append_cons hx, joinNames_append_cons hy]
    exact hread _ _ h.joined h'.joined

/-- A piece after a token of another kind. -/
theorem after (hx : isApart x = true) (h : Spelling P A ts) (hread : ∀ ts, P ts → R (x :: ts)) : Spelling R A (x :: ts) where
  scoped_iff := (scoped_cons_of_isApart hx).trans h.scoped_iff
  reads := fun hA => hread _ (h.reads hA)
  joined := by
    rw [joinNames_cons_of_isApart hx]
    exact hread _ h.joined

/-- A piece after a word, which is not a scope of it. -/
theorem word (w : String) (hts : ts.head? ≠ some (.punct .scope)) (h : Spelling P A ts) (hread : ∀ ts, P ts → R (.word w :: ts)) :
    Spelling R A (.word w :: ts) where
  scoped_iff := (scoped_cons_of_head_ne (x := .word w) nofun hts).trans h.scoped_iff
  reads := fun hA => hread _ (h.reads hA)
  joined := by
    rw [joinNames_cons fun _ _ => hts]
    exact hread _ h.joined

/-- A piece before closing brackets. -/
theorem closers (hcs : Closers n cs) (h : Spelling P A ts) (hread : ∀ ts, P ts → R (ts ++ cs)) : Spelling R A (ts ++ cs) where
  scoped_iff := (scoped_append_closers hcs).trans h.scoped_iff
  reads := fun hA => hread _ (h.reads hA)
  joined := by
    rw [joinNames_append_closers hcs]
    exact hread _ h.joined

/-- A piece that ends in a token of another kind, before a member of what it is. -/
theorem member {m : String} (hm : m ∉ keywords) (hts : ∃ us x, isApart x = true ∧ ts = us ++ [x]) (h : Spelling P A ts)
    (hread : ∀ ts, P ts → R (ts ++ [.punct .scope, .word m])) : Spelling R A (ts ++ [.punct .scope, .word m]) := by
  obtain ⟨us, x, hx, rfl⟩ := hts
  have hmember : Scoped [.punct .scope, .word m] := by simpa [scoped_cons, adjoins] using hm
  refine ⟨?_, fun hA => hread _ (h.reads hA), ?_⟩
  · rw [← h.scoped_iff, List.append_assoc, List.singleton_append, scoped_append_cons hx, scoped_append_cons hx,
      and_iff_left hmember, and_iff_left scoped_nil]
  · have hjoined := hread _ h.joined
    rw [joinNames_append_cons hx, List.append_assoc] at hjoined
    rw [List.append_assoc, List.singleton_append, joinNames_append_cons hx]
    exact hjoined

end Spelling

/-- Closing brackets are spelled in one way. -/
theorem spelling_closers {n : Nat} {cs : List Token} (hcs : Closers n cs) : Spelling (· = cs) True cs := by
  refine (Spelling.nil rfl).closers hcs ?_
  rintro _ rfl
  rfl

/-! ## Names -/

/-- A qualified name has a `::` next to each of its words. -/
theorem scoped_wordTokens_cons {w v : String} {ws : List String} :
    Scoped (wordTokens (w :: v :: ws)) ↔ ∀ x ∈ w :: v :: ws, x ∉ keywords := by
  induction ws generalizing w v with
  | nil => simp [wordTokens, scoped_cons, adjoins]
  | cons u ws ih =>
    have hhead : (wordTokens (v :: u :: ws)).head? = some (.word v) := rfl
    rw [wordTokens, scoped_cons, scoped_cons, ih, hhead]
    simp [adjoins]

/-- A word alone stands next to no `::`, whatever it is. -/
theorem scoped_wordTokens_iff {ws : List String} (hne : ws ≠ []) :
    Scoped (wordTokens ws) ↔ ws.length = 1 ∨ ∀ w ∈ ws, w ∉ keywords := by
  cases ws with
  | nil => exact absurd rfl hne
  | cons w ws =>
    cases ws with
    | nil => exact iff_of_true (scoped_singleton _) (Or.inl rfl)
    | cons v ws => simpa using scoped_wordTokens_cons

/-- A name that is no keyword, or a qualified one, names a value unless a keyword stands next to `::`. -/
theorem namesValue_of_wordTokens {ws : List String} (hne : ws ≠ []) (halone : ws.length = 1 → ∀ w ∈ ws, w ∉ keywords)
    (h : Scoped (wordTokens ws)) : namesValue ws = true :=
  namesValue_iff.2 (((scoped_wordTokens_iff hne).1 h).elim halone id)

/-- So it names a type, which may also be a keyword that names one. -/
theorem namesType_of_wordTokens {ws : List String} (hne : ws ≠ []) (halone : ws.length = 1 → ∀ w ∈ ws, w ∉ reservedWords)
    (h : Scoped (wordTokens ws)) : namesType ws = true := by
  rcases (scoped_wordTokens_iff hne).1 h with hlen | hwords
  · obtain ⟨w, rfl⟩ := List.length_eq_one_iff.1 hlen
    simpa [namesType] using halone hlen
  · exact namesType_of_namesValue (namesValue_iff.2 hwords)

/-- A qualified name taken for one word is no keyword, as it has a `::` in it. -/
theorem joinWords_not_mem {ws l : List String} (hne : ws ≠ []) (hl : l ⊆ keywords)
    (halone : ws.length = 1 → ∀ w ∈ ws, w ∉ l) : joinWords ws ∉ l := by
  have hcolon : ∀ k ∈ keywords, ':' ∉ k.toList := by decide +kernel
  cases ws with
  | nil => exact absurd rfl hne
  | cons w ws =>
    cases ws with
    | nil =>
      rw [joinWords_singleton]
      exact halone rfl w List.mem_cons_self
    | cons v ws =>
      intro hmem
      refine hcolon _ (hl hmem) ?_
      rw [joinWords_cons_cons]
      simp

/-- Tokens are a name, and its words pass a test. -/
def IsName (test : List String → Bool) (n : String) (ts : List Token) : Prop :=
  ∃ w ws, ts = wordTokens (w :: ws) ∧ test (w :: ws) = true ∧ joinWords (w :: ws) = n

/-- A name taken for one word, if that passes the test. -/
theorem isName_joinNames {test : List String → Bool} {ws : List String} (hne : ws ≠ []) (htest : test [joinWords ws] = true) :
    IsName test (joinWords ws) (joinNames (wordTokens ws)) :=
  ⟨joinWords ws, [], joinNames_wordTokens hne, htest, joinWords_singleton _⟩

/-- The name of a value is one if no keyword stands next to `::`, and anyway if it is taken for one word. -/
theorem spelling_valueName {ws : List String} (hne : ws ≠ []) (hlex : Lexer.lex (joinWords ws).toList = some (wordTokens ws))
    (halone : ws.length = 1 → ∀ w ∈ ws, w ∉ keywords) :
    Spelling (IsName namesValue (joinWords ws)) (ScopedName (joinWords ws)) (wordTokens ws) := by
  refine ⟨(scopedName_iff hlex).symm, fun h => ?_, isName_joinNames hne ?_⟩
  · have hname := namesValue_of_wordTokens hne halone ((scopedName_iff hlex).1 h)
    obtain ⟨w, ws, rfl⟩ := List.exists_cons_of_ne_nil hne
    exact ⟨w, ws, rfl, hname, rfl⟩
  · have hword := joinWords_not_mem hne (List.Subset.refl keywords) halone
    simpa [namesValue] using hword

/-- The name of a type too, where a keyword that names a type may stand alone. -/
theorem spelling_typeName {ws : List String} (hne : ws ≠ []) (hlex : Lexer.lex (joinWords ws).toList = some (wordTokens ws))
    (halone : ws.length = 1 → ∀ w ∈ ws, w ∉ reservedWords) :
    Spelling (IsName namesType (joinWords ws)) (ScopedName (joinWords ws)) (wordTokens ws) := by
  refine ⟨(scopedName_iff hlex).symm, fun h => ?_, isName_joinNames hne ?_⟩
  · have hname := namesType_of_wordTokens hne halone ((scopedName_iff hlex).1 h)
    obtain ⟨w, ws, rfl⟩ := List.exists_cons_of_ne_nil hne
    exact ⟨w, ws, rfl, hname, rfl⟩
  · have hword := joinWords_not_mem hne (List.subset_append_right typeKeywords reservedWords) halone
    simpa [namesType] using hword

/-- A word alone is spelled in one way. -/
theorem spelling_identifier {m : String} (hlex : Lexer.lex m.toList = some [.word m]) :
    Spelling (· = [.word m]) (ScopedName m) [.word m] :=
  ⟨(scopedName_iff hlex).symm, fun _ => rfl, joinNames_cons (by simp)⟩

/-! ## Types -/

/-- Tokens are those of a type, with `n` template arguments around it left to be closed. -/
structure TypePhrase (n : Nat) (ts : List Token) (t : Ty) : Prop where
  head_ne : ts.head? ≠ some (.punct .scope)
  exists_last : 0 < n → ∃ us x, isApart x = true ∧ ts = us ++ [x]
  spelling : Spelling (ReadsType n · t) t.Scoped ts

/-- A qualified name begins with a word. -/
theorem head?_wordTokens {ws : List String} (hws : ws ≠ []) (r : List Token) :
    (wordTokens ws ++ r).head? ≠ some (.punct .scope) := by
  obtain ⟨w, ws, rfl⟩ := List.exists_cons_of_ne_nil hws
  obtain ⟨ts, hts⟩ := wordTokens_cons w ws
  rw [hts]
  nofun

/-- What follows does not change how tokens begin, as long as it begins with no `::`. -/
theorem head?_append_ne {ts : List Token} {x : Token} (hts : ts.head? ≠ some (.punct .scope)) (hx : x ≠ .punct .scope)
    (r : List Token) : (ts ++ x :: r).head? ≠ some (.punct .scope) := by
  cases ts with
  | nil => simpa using hx
  | cons y ts => exact hts

/-- Tokens are a template argument after its opening bracket, with the bracket that closes it. -/
def ReadsArgument (ty : Ty) (ts : List Token) : Prop := ∀ r, readArgument (.punct (.op .lt) :: (ts ++ r)) = some (ty, r)

namespace TypePhrase

variable {n : Nat} {ts cs : List Token} {t : Ty} {ws : List String}

/-- A named type before closing brackets. -/
theorem named (hws : ws ≠ []) (hlex : Lexer.lex (joinWords ws).toList = some (wordTokens ws))
    (halone : ws.length = 1 → ∀ w ∈ ws, w ∉ reservedWords) (htemplate : classTemplate? (joinWords ws) = none)
    (hcs : Closers n cs) : TypePhrase n (wordTokens ws ++ cs) (.named (joinWords ws)) where
  head_ne := head?_wordTokens hws cs
  exists_last := by
    intro hn
    obtain ⟨us, x, hx, rfl⟩ := hcs.exists_last hn
    exact ⟨_, x, hx, (List.append_assoc _ _ _).symm⟩
  spelling := by
    refine (spelling_typeName hws hlex halone).closers hcs ?_
    rintro _ ⟨v, vs, rfl, hname, hjoin⟩
    rw [← hjoin] at htemplate ⊢
    exact ReadsType.named (List.cons_ne_nil v vs) hname htemplate hcs

/-- A class template before its argument; the brackets to be closed are those of the argument. -/
theorem instantiated {make : Ty → Ty} (hws : ws ≠ []) (hlex : Lexer.lex (joinWords ws).toList = some (wordTokens ws))
    (halone : ws.length = 1 → ∀ w ∈ ws, w ∉ reservedWords) (hscoped : ScopedName (joinWords ws))
    (htemplate : classTemplate? (joinWords ws) = some make) (hmake : (make t).Scoped ↔ t.Scoped) (h : TypePhrase (n + 1) ts t) :
    TypePhrase n (wordTokens ws ++ .punct (.op .lt) :: ts) (make t) where
  head_ne := head?_wordTokens hws _
  exists_last := by
    intro _
    obtain ⟨us, x, hx, rfl⟩ := h.exists_last (Nat.succ_pos n)
    exact ⟨wordTokens ws ++ .punct (.op .lt) :: us, x, hx, by simp⟩
  spelling := by
    refine ((spelling_typeName hws hlex halone).between rfl h.spelling ?_).congr ((and_iff_right hscoped).trans hmake.symm)
    rintro _ us ⟨v, vs, rfl, hname, hjoin⟩ hus
    rw [← hjoin] at htemplate
    exact hus.instantiated (List.cons_ne_nil v vs) hname htemplate

/-- A pointer is a type before a star. -/
theorem pointer (h : TypePhrase 0 ts t) (hcs : Closers n cs) : TypePhrase n (ts ++ .punct (.op .mul) :: cs) (.pointer t) where
  head_ne := head?_append_ne h.head_ne (by simp) cs
  exists_last := by
    intro hn
    obtain ⟨us, x, hx, rfl⟩ := hcs.exists_last hn
    exact ⟨ts ++ .punct (.op .mul) :: us, x, hx, by simp⟩
  spelling := by
    refine (h.spelling.between rfl (spelling_closers hcs) ?_).congr (and_iff_left trivial)
    rintro ts _ hts rfl
    exact hts.pointer hcs

/-- A type in the brackets of a template. -/
theorem argument (h : TypePhrase 1 ts t) : Spelling (ReadsArgument t) t.Scoped ts := h.spelling.map fun _ => ReadsType.argument

end TypePhrase

/-! ## Expressions -/

/-- Tokens are those of a tree: they are read as the tree, unless a keyword stands next to `::`. -/
def Phrase (rank : Nat) (ts : List Token) (t : Tree) : Prop := Spelling (Reads rank · t) t.Scoped ts

/-- Tokens are a list before its closing bracket. -/
def ReadsList (close : Punct) (items : List Tree) (ts : List Token) : Prop :=
  ∀ r, readList close (ts ++ .punct close :: r) = some (items, r)

namespace Phrase

variable {k l n : Nat} {ts us vs : List Token} {t u v : Tree} {ty : Ty} {items : List Tree}

theorem mono (hkl : k ≤ l) (h : Phrase l ts t) : Phrase k ts t := Spelling.map h fun _ => Reads.mono hkl

/-- A token that is a tree without names. -/
theorem literal {x : Token} (ht : t.Scoped) (h : Reads k [x] t) : Phrase k [x] t :=
  (Spelling.token h).congr (iff_of_true trivial ht)

/-- A tree in parentheses has room everywhere. -/
theorem paren (h : Phrase k ts t) : Phrase l (.punct .lparen :: (ts ++ [.punct .rparen])) t := by
  refine ((Spelling.nil rfl).around rfl rfl h ?_).congr (and_iff_right trivial)
  rintro _ ts rfl hts
  exact hts.paren

theorem name {ws : List String} (hws : ws ≠ []) (hlex : Lexer.lex (joinWords ws).toList = some (wordTokens ws))
    (halone : ws.length = 1 → ∀ w ∈ ws, w ∉ keywords) (htemplate : joinWords ws ∉ callableTemplates) :
    Phrase k (wordTokens ws) (.name (joinWords ws)) := by
  refine (spelling_valueName hws hlex halone).map ?_
  rintro _ ⟨v, vs, rfl, hname, hjoin⟩
  rw [← hjoin] at htemplate ⊢
  exact Reads.name (List.cons_ne_nil v vs) hname htemplate

/-- A template that is called, with its argument. -/
theorem template {ws : List String} (hws : ws ≠ []) (hlex : Lexer.lex (joinWords ws).toList = some (wordTokens ws))
    (halone : ws.length = 1 → ∀ w ∈ ws, w ∉ keywords) (htemplate : joinWords ws ∈ callableTemplates)
    (harg : Spelling (ReadsArgument ty) ty.Scoped us) :
    Phrase k (wordTokens ws ++ .punct (.op .lt) :: us) (.template (joinWords ws) ty) := by
  refine (spelling_valueName hws hlex halone).between rfl harg ?_
  rintro _ us ⟨v, vs, rfl, hname, hjoin⟩ hus
  rw [← hjoin] at htemplate ⊢
  exact Reads.template hname htemplate hus

/-- A member of such a template. -/
theorem templateMember {ws : List String} {m : String} (hws : ws ≠ [])
    (hlexName : Lexer.lex (joinWords ws).toList = some (wordTokens ws))
    (hlex : Lexer.lex (joinWords ws ++ "<" ++ ty.render ++ ">::" ++ m).toList =
      some (wordTokens ws ++ .punct (.op .lt) :: (us ++ [.punct .scope, .word m])))
    (halone : ws.length = 1 → ∀ w ∈ ws, w ∉ keywords) (htemplate : joinWords ws ∈ callableTemplates) (hm : m ∉ keywords)
    (harg : TypePhrase 1 us ty) :
    Phrase k (wordTokens ws ++ .punct (.op .lt) :: (us ++ [.punct .scope, .word m]))
      (.name (joinWords ws ++ "<" ++ ty.render ++ ">::" ++ m)) := by
  have hmember : Spelling (fun vs => ∃ us, vs = us ++ [.punct .scope, .word m] ∧ ReadsArgument ty us) ty.Scoped
      (us ++ [.punct .scope, .word m]) :=
    harg.argument.member hm (harg.exists_last Nat.one_pos) fun us hus => ⟨us, rfl, hus⟩
  have hname : Spelling (Reads k · (.name (joinWords ws ++ "<" ++ ty.render ++ ">::" ++ m))) (ScopedName (joinWords ws) ∧ ty.Scoped)
      (wordTokens ws ++ .punct (.op .lt) :: (us ++ [.punct .scope, .word m])) := by
    refine (spelling_valueName hws hlexName halone).between rfl hmember ?_
    rintro _ _ ⟨v, vs, rfl, hname, hjoin⟩ ⟨us, rfl, hus⟩
    rw [← hjoin] at htemplate ⊢
    exact Reads.templateMember hname htemplate hm hus
  exact hname.congr (hname.scoped_iff.symm.trans (scopedName_iff hlex).symm)

theorem call (hf : Phrase BindingLevel.access.rank ts t) (hargs : Spelling (ReadsList .rparen items) (Tree.AllScoped items) us) :
    Phrase k (ts ++ .punct .lparen :: (us ++ [.punct .rparen])) (.call t items) :=
  Spelling.around rfl rfl hf hargs fun _ _ => Reads.call

theorem arrow {m : String} (hlex : Lexer.lex m.toList = some [.word m]) (hm : m ∉ keywords)
    (h : Phrase BindingLevel.access.rank ts t) : Phrase k (ts ++ [.punct .arrow, .word m]) (.arrow t m) := by
  refine Spelling.between rfl h (spelling_identifier hlex) ?_
  rintro ts _ hts rfl
  exact hts.arrow hm

theorem dot {m : String} (hlex : Lexer.lex m.toList = some [.word m]) (hm : m ∉ keywords)
    (h : Phrase BindingLevel.access.rank ts t) : Phrase k (ts ++ [.punct .dot, .word m]) (.dot t m) := by
  refine Spelling.between rfl h (spelling_identifier hlex) ?_
  rintro ts _ hts rfl
  exact hts.dot hm

theorem index (h : Phrase BindingLevel.access.rank ts t) (hi : Phrase l us u) :
    Phrase k (ts ++ .punct .lbracket :: (us ++ [.punct .rbracket])) (.index t u) :=
  Spelling.around rfl rfl h hi fun _ _ => Reads.index

theorem staticCast (harg : Spelling (ReadsArgument ty) ty.Scoped us) (h : Phrase l ts t) :
    Phrase k (.word "static_cast" :: .punct (.op .lt) :: (us ++ .punct .lparen :: (ts ++ [.punct .rparen])))
      (.staticCast ty t) := by
  have hvalue : Spelling (fun vs => ∃ us ts, vs = .punct (.op .lt) :: (us ++ .punct .lparen :: (ts ++ [.punct .rparen])) ∧
      ReadsArgument ty us ∧ Reads l ts t) (ty.Scoped ∧ t.Scoped) _ :=
    (Spelling.around (R := fun vs => ∃ us ts, vs = us ++ .punct .lparen :: (ts ++ [.punct .rparen]) ∧ ReadsArgument ty us ∧
      Reads l ts t) rfl rfl harg h fun us ts hus hts => ⟨us, ts, rfl, hus, hts⟩).after rfl
      fun _ ⟨us, ts, hvs, hus, hts⟩ => ⟨us, ts, congrArg _ hvs, hus, hts⟩
  refine hvalue.word "static_cast" nofun ?_
  rintro _ ⟨us, ts, rfl, hus, hts⟩
  exact Reads.staticCast hus hts

/-- A new object of a type, with its items. -/
theorem new (hty : TypePhrase 0 us ty) (hitems : Spelling (ReadsList .rbrace items) (Tree.AllScoped items) vs) :
    Phrase BindingLevel.unary.rank (.word "new" :: (us ++ .punct .lbrace :: (vs ++ [.punct .rbrace]))) (.new ty items) := by
  have hobject : Spelling (fun ws => ∃ us vs, ws = us ++ .punct .lbrace :: (vs ++ [.punct .rbrace]) ∧ ReadsType 0 us ty ∧
      ReadsList .rbrace items vs) (ty.Scoped ∧ Tree.AllScoped items) _ :=
    Spelling.around rfl rfl hty.spelling hitems fun us vs hus hvs => ⟨us, vs, rfl, hus, hvs⟩
  refine hobject.word "new" (head?_append_ne (x := .punct .lbrace) hty.head_ne nofun _) ?_
  rintro _ ⟨us, vs, rfl, hus, hvs⟩
  exact Reads.new hus.beforeItems hvs

theorem prefixed {p : Punct} {op : PrefixOp} (hop : prefixOp? p = some op) (h : Phrase BindingLevel.unary.rank ts t) :
    Phrase BindingLevel.unary.rank (.punct p :: ts) (.unary op t) := by
  have hp : isApart (.punct p) = true := by
    unfold isApart
    split <;> simp_all [prefixOp?]
  exact Spelling.after hp h fun _ => Reads.prefixed hop

/-- An operator between its operands, of which the right one binds tighter. -/
theorem between {op : BinaryOp} (hl : Phrase op.level.rank ts t) (hr : Phrase (op.level.rank + 1) us u) :
    Phrase op.level.rank (ts ++ .punct (.op op) :: us) (.binary op t u) :=
  Spelling.between rfl hl hr fun _ _ => Reads.between

/-- A condition before two expressions. -/
theorem conditional (hcond : BindingLevel.logicalOr.rank ≤ k) (hc : Phrase k ts t) (ht : Phrase l us u) (hf : Phrase n vs v) :
    Phrase BindingLevel.conditional.rank (ts ++ .punct .question :: (us ++ .punct .colon :: vs)) (.conditional t u v) := by
  have hbranches : Spelling (fun ws => ∃ us vs, ws = us ++ .punct .colon :: vs ∧ Reads l us u ∧ Reads n vs v) (u.Scoped ∧ v.Scoped) _ :=
    Spelling.between rfl ht hf fun us vs hus hvs => ⟨us, vs, rfl, hus, hvs⟩
  refine Spelling.between rfl hc hbranches ?_
  rintro ts _ hts ⟨us, vs, rfl, hus, hvs⟩
  exact Reads.conditional hcond hts hus hvs

end Phrase

end Reader

end ExprToCpp.Cpp
