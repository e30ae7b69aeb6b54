import ExprToCpp.Proofs.Cpp.Nesting
import ExprToCpp.Proofs.Cpp.RoundTrip

/-!
# The marks that a text adds

A text adds its marks before whatever follows it, at the depth where it stands; in parentheses it adds them one deeper. So the
profile of a text can be had piece by piece, also where the whole is not read at all. Main statements: `Adds.append`,
`Adds.enclosed` and `Adds.prefixed`, and one statement for each piece of text that a form has of its own.
-/

namespace ExprToCpp.Cpp

open Lexer Reader

/-- The marks of one text after those of another. -/
def andThen (F G : Nat → Option (List Nat)) (d : Nat) : Option (List Nat) := (F d).bind fun as => (G d).map (as ++ ·)

/-- A text adds marks before whatever may follow it, or makes it unreadable. -/
def Adds (Q : List Char → Prop) (s : String) (F : Nat → Option (List Nat)) : Prop :=
  ∀ r, Q r → ∀ d, profile d (s.toList ++ r) = (F d).bind fun ds => (profile d r).map (ds ++ ·)

/-- So many marks at the depth of the text. -/
def flat (n d : Nat) : Option (List Nat) := some (List.replicate n d)

/-- A token adds its marks at the depth it stands at. -/
theorem profile_cons {t : Token} (ht : t.isFlat = true) {cs r : List Char} (hlex : lex cs = (lex r).map (t :: ·)) (d : Nat) :
    profile d cs = (profile d r).map (List.replicate t.marks d ++ ·) := by
  rw [profile, profile, hlex]
  cases lex r with
  | none => rfl
  | some us => exact depths_cons ht d us

/-- Two minuses in a row are another operator. -/
theorem profile_minus_minus (r : List Char) (d : Nat) : profile d ('-' :: '-' :: r) = none := by
  have hjoins : ∀ c, r.head? = some c → joins (.foreign ['-', '-']) c = false := by
    intro c _
    exact joins_eq_false (by rw [show extenders (.foreign ['-', '-']) = [] by decide +kernel]; exact List.not_mem_nil) nofun nofun
  have hlex : lex ('-' :: '-' :: r) = (lex r).map (.punct (.foreign ['-', '-']) :: ·) := lex_punct (by decide) hjoins
  rw [profile, hlex]
  cases lex r <;> rfl

namespace Adds

variable {Q Q' : List Char → Prop} {s s' : String} {F G : Nat → Option (List Nat)}

/-- A text after another adds its marks after those of the other. -/
theorem append (h : Adds Q s F) (h' : Adds Q' s' G) (hQ : ∀ r, Q' r → Q (s'.toList ++ r)) : Adds Q' (s ++ s') (andThen F G) := by
  intro r hr d
  rw [String.toList_append, List.append_assoc, h _ (hQ r hr) d, h' r hr d, andThen]
  cases F d with
  | none => rfl
  | some as =>
    cases G d with
    | none => rfl
    | some bs => simp [Function.comp_def, List.append_assoc]

theorem mono (h : Adds Q s F) (hQ : ∀ r, Q' r → Q r) : Adds Q' s F := fun r hr d => h r (hQ r hr) d

/-- A text in parentheses stands one deeper. -/
theorem enclosed (h : Adds Q s F) (hQ : ∀ r, Q (')' :: r)) : Adds Q' ("(" ++ s ++ ")") fun d => F (d + 1) := by
  intro r _ d
  have hopen : ∀ r, profile d ('(' :: r) = profile (d + 1) r := by
    intro r
    have hlex : lex ('(' :: r) = (lex r).map (.punct .lparen :: ·) := lex_separator (p := .lparen) (by decide) r
    rw [profile, profile, hlex]
    cases lex r <;> rfl
  have hclose : profile (d + 1) (')' :: r) = profile d r := by
    have hlex : lex (')' :: r) = (lex r).map (.punct .rparen :: ·) := lex_separator (p := .rparen) (by decide) r
    rw [profile, profile, hlex]
    cases lex r <;> rfl
  have htext : ("(" ++ s ++ ")").toList ++ r = '(' :: (s.toList ++ ')' :: r) := by simp
  rw [htext, hopen, h _ (hQ r) (d + 1), hclose]

/-- A text that is tokens with so many marks of their own. -/
theorem of_tokens {ts : List Token} {n : Nat} (hlex : ∀ r, Q r → lex (s.toList ++ r) = (lex r).map (ts ++ ·))
    (hts : ∀ us, Yields (.marks n) (ts ++ us) us) : Adds Q s (flat n) := by
  intro r hr d
  rw [profile, profile, hlex r hr]
  cases lex r with
  | none => rfl
  | some us =>
    obtain ⟨_, rfl, hdepths⟩ := hts us d
    exact hdepths

/-- A text that is one token adds the marks of the token. -/
theorem of_token {t : Token} (ht : t.isFlat = true) (hlex : ∀ r, Q r → lex (s.toList ++ r) = (lex r).map (t :: ·)) :
    Adds Q s (flat t.marks) := by
  have hyields : ∀ us, Yields (.marks t.marks) ([t] ++ us) us := fun us => Yields.token ht us
  exact of_tokens hlex hyields

/-- A prefix operator adds its mark, unless it is a minus that runs together with another. -/
theorem prefixed {p : Bool} (op : PrefixOp) (hstart : startsOperand s = true) (h : Adds (Stops p) s F) :
    Adds (Stops p) (op.symbol ++ s) fun d =>
      if op = .operator .neg ∧ s.toList.head? = some '-' then none else andThen (flat 1) F d := by
  intro r hr d
  split
  · next hminus =>
    obtain ⟨rfl, hhead⟩ := hminus
    obtain ⟨cs, hcs⟩ : ∃ cs, s.toList = '-' :: cs := List.head?_eq_some_iff.1 hhead
    have htext : ((PrefixOp.operator .neg).symbol ++ s).toList ++ r = '-' :: '-' :: (cs ++ r) := by
      rw [String.toList_append, hcs]
      rfl
    rw [htext, profile_minus_minus]
    rfl
  · next hminus =>
    have happart : op = .operator .neg → s.toList.head? ≠ some '-' := fun hop hhead => hminus ⟨hop, hhead⟩
    have hlex := Renders.lex_prefixed happart hstart r
    obtain ⟨hflat, hmarks⟩ := prefixOp?_spec (Renders.prefixOp?_prefixPunct op)
    rw [profile_cons hflat hlex, hmarks, h r hr d]
    cases hF : F d with
    | none => simp [andThen, flat, hF]
    | some ds => simp [andThen, flat, hF, Function.comp_def]

end Adds

theorem andThen_flat (m n : Nat) : andThen (flat m) (flat n) = flat (m + n) := by
  funext d
  simp [andThen, flat, List.replicate_append_replicate]

/-! ## The texts of the forms themselves -/

section

variable {Q : List Char → Prop}

/-- A separator adds as many marks as it has characters. -/
theorem adds_separator {p : Punct} {s : String} (hs : s.toList = p.chars) (hp : p ∈ separators)
    (hflat : (Token.punct p).isFlat = true) : Adds Q s (flat p.chars.length) := by
  refine Adds.of_token (t := .punct p) hflat fun r _ => ?_
  rw [hs]
  exact lex_separator hp r

/-- An operator between blanks adds the marks of its symbol. -/
theorem adds_op (op : BinaryOp) : Adds Q (" " ++ op.symbol ++ " ") (flat op.symbol.toList.length) := by
  refine Adds.of_token (t := .punct (.op op)) rfl fun r _ => ?_
  have htext : (" " ++ op.symbol ++ " ").toList ++ r = ' ' :: (op.symbol.toList ++ ' ' :: r) := by simp
  rw [htext]
  exact lex_op_space op r

theorem adds_comma : Adds Q ", " (flat 1) := by
  refine Adds.of_token (t := .punct .comma) rfl fun r _ => ?_
  have hlex : lex (',' :: ' ' :: r) = (lex (' ' :: r)).map (.punct .comma :: ·) := lex_separator (p := .comma) (by decide) _
  rw [lex_space] at hlex
  exact hlex

theorem adds_question : Adds Q " ? " (flat 1) := by
  refine Adds.of_token (t := .punct .question) rfl fun r _ => ?_
  have hlex : lex ('?' :: ' ' :: r) = (lex (' ' :: r)).map (.punct .question :: ·) := lex_separator (p := .question) (by decide) _
  rw [lex_space, ← lex_space ('?' :: ' ' :: r)] at hlex
  exact hlex

theorem adds_colon : Adds Q " : " (flat 1) :=
  Adds.of_token (t := .punct .colon) rfl fun r _ => Renders.lex_colon_space r

/-- The operator of an access stands before a word. -/
def BeginsWord (r : List Char) : Prop := r.head?.any isWordStart = true

theorem adds_arrow : Adds BeginsWord "->" (flat 2) :=
  Adds.of_token (t := .punct .arrow) rfl fun _ hr => lex_punct_wordStart (p := .arrow) (by decide) hr

theorem adds_dot : Adds BeginsWord "." (flat 1) :=
  Adds.of_token (t := .punct .dot) rfl fun _ hr => lex_punct_wordStart (p := .dot) (by decide) hr

/-- A word is one token, and adds what marks the token has. -/
theorem adds_word {w : String} (hw : isWord w.toList = true) : Adds EndsWord w (flat (marksIn w)) := by
  refine Adds.of_token (t := .word w) rfl fun r hr => ?_
  have hlex := lex_word hw hr.spec
  rwa [String.ofList_toList] at hlex

/-- The tokens of a qualified name have the marks of the name. -/
theorem yields_wordTokens {ws : List String} (hws : ws ≠ []) (us : List Token) :
    Yields (.marks (marksIn (joinWords ws))) (wordTokens ws ++ us) us := by
  induction ws with
  | nil => exact absurd rfl hws
  | cons w ws ih =>
    cases ws with
    | nil =>
      rw [joinWords, String.intercalate_singleton]
      exact Yields.token (t := .word w) rfl us
    | cons v ws =>
      rw [marksIn_joinWords_cons]
      exact (Yields.token (t := .word w) rfl _).marks_add
        ((Yields.token (t := .punct .scope) rfl _).marks_add (ih (List.cons_ne_nil v ws)))

/-- A qualified name adds the marks of its `::`. -/
theorem adds_name {ws : List String} (hws : AreWords ws) : Adds EndsWord (joinWords ws) (flat (marksIn (joinWords ws))) :=
  Adds.of_tokens (fun _ hr => lex_joinWords hws hr) (yields_wordTokens hws.1)

/-- The bracket that opens an argument stands before the type. -/
theorem adds_open : Adds BeginsWord "<" (flat 1) :=
  Adds.of_token (t := .punct (.op .lt)) rfl fun _ hr => lex_punct_wordStart (op_mem_all .lt) hr

/-- Closing brackets have a mark each, whether two are one token or not. -/
theorem yields_closers {n : Nat} {cs : List Token} (h : Closers n cs) (us : List Token) : Yields (.marks n) (cs ++ us) us := by
  induction h with
  | nil => exact Yields.nothing us
  | one _ ih =>
    rw [Nat.add_comm]
    exact (Yields.token (t := .punct (.op .gt)) rfl _).marks_add ih
  | two _ ih =>
    rw [Nat.add_comm]
    exact (Yields.token (t := .punct (.op .shr)) rfl _).marks_add ih

/-- Closing brackets, however they come out as tokens. -/
theorem adds_closers (n : Nat) : Adds EndsType (String.ofList (List.replicate n '>')) (flat n) := by
  obtain ⟨cs, hcs, hlex⟩ := exists_closers n
  refine Adds.of_tokens (fun r hr => ?_) (yields_closers hcs)
  rw [String.toList_ofList]
  exact hlex r hr

/-- A word ends before closing brackets and what ends a type. -/
theorem endsWord_closers (n : Nat) {r : List Char} (hr : EndsType r) :
    EndsWord ((String.ofList (List.replicate n '>')).toList ++ r) := by
  rw [String.toList_ofList]
  cases n with
  | zero => exact hr.endsWord
  | succ n => exact endsWord_cons (by decide) _

/-- A class template leaves its own bracket to its argument, because one token may close both. -/
theorem adds_instance (ws : List String) {t : Ty} {n : Nat} (hws : AreWords ws) (ht : t.WellNamed)
    (h : Adds EndsType (t.render ++ String.ofList (List.replicate (n + 1) '>')) (flat (marksIn t.render + (n + 1)))) :
    Adds EndsType (joinWords ws ++ "<" ++ t.render ++ ">" ++ String.ofList (List.replicate n '>'))
      (flat (marksIn (joinWords ws ++ "<" ++ t.render ++ ">") + n)) := by
  have hargument := adds_open.append h fun r _ => by
    rw [BeginsWord, String.toList_append, List.append_assoc]
    exact isWordStart_head_render ht _
  have hadds := (adds_name hws).append hargument fun r _ => by
    rw [String.toList_append, List.append_assoc]
    exact endsWord_cons (by decide) _
  have htext : joinWords ws ++ ("<" ++ (t.render ++ String.ofList (List.replicate (n + 1) '>'))) =
      joinWords ws ++ "<" ++ t.render ++ ">" ++ String.ofList (List.replicate n '>') := by
    rw [← String.toList_inj]
    simp [List.replicate_succ]
  have hmarks : marksIn (joinWords ws) + (1 + (marksIn t.render + (n + 1))) =
      marksIn (joinWords ws ++ "<" ++ t.render ++ ">") + n := by
    rw [marksIn_argument]
    omega
  rwa [andThen_flat, andThen_flat, htext, hmarks] at hadds

/-- A star before closing brackets. -/
theorem adds_star (n : Nat) : Adds EndsType ("*" ++ String.ofList (List.replicate n '>')) (flat (1 + n)) := by
  have hstar : Adds (fun r => ∃ r', EndsType r' ∧ r = List.replicate n '>' ++ r') "*" (flat 1) := by
    refine Adds.of_token (t := .punct (.op .mul)) rfl ?_
    rintro _ ⟨r, hr, rfl⟩
    exact lex_punct (op_mem_all .mul) (joins_before_closers (by decide +kernel) (by decide) n hr)
  rw [← andThen_flat]
  exact hstar.append (adds_closers n) fun r hr => ⟨r, hr, by rw [String.toList_ofList]⟩

/-- The text of a type with `n` brackets after it. -/
theorem adds_type {t : Ty} (ht : t.WellNamed) (n : Nat) :
    Adds EndsType (t.render ++ String.ofList (List.replicate n '>')) (flat (marksIn t.render + n)) := by
  induction t generalizing n with
  | named m =>
    obtain ⟨ws, hws, -, -, rfl⟩ := ht
    have hadds := (adds_name hws).append (adds_closers n) fun r hr => endsWord_closers n hr
    rwa [andThen_flat] at hadds
  | pointer t ih =>
    have hadds := (ih ht 0).append (adds_star n) fun r _ => by
      rw [String.toList_append, List.append_assoc]
      exact endsType_cons (by decide) _
    have hmarks : marksIn (t.pointer).render = marksIn t.render + 1 := marksIn_append t.render "*"
    rw [hmarks, Nat.add_assoc, ← andThen_flat, render_pointer, String.append_assoc]
    simpa using hadds
  | vector t ih => exact adds_instance ["std", "vector"] (by decide) ht (ih ht (n + 1))
  | shared t ih => exact adds_instance ["std", "shared_ptr"] (by decide) ht (ih ht (n + 1))
  | unique t ih => exact adds_instance ["std", "unique_ptr"] (by decide) ht (ih ht (n + 1))

/-- A template argument adds the marks of its type and of the brackets around it. -/
theorem adds_argument {t : Ty} (ht : t.WellNamed) :
    Adds EndsType ("<" ++ t.render ++ ">") (flat (1 + (marksIn t.render + 1))) := by
  have hadds := adds_open.append (adds_type ht 1) fun r _ => by
    rw [BeginsWord, String.toList_append, List.append_assoc]
    exact isWordStart_head_render ht _
  rwa [andThen_flat, ← String.append_assoc] at hadds

/-- A template adds those and the marks of its name. -/
theorem adds_template (ws : List String) {t : Ty} (hws : AreWords ws) (ht : t.WellNamed) :
    Adds EndsType (joinWords ws ++ "<" ++ t.render ++ ">") (flat (marksIn (joinWords ws) + (1 + (marksIn t.render + 1)))) := by
  have hends : ∀ r, EndsType r → EndsWord (("<" ++ t.render ++ ">").toList ++ r) := by
    intro r _
    rw [String.append_assoc, String.toList_append, List.append_assoc]
    exact endsWord_cons (by decide) _
  have hadds := (adds_name hws).append (adds_argument ht) hends
  rw [andThen_flat, ← String.append_assoc, ← String.append_assoc] at hadds
  exact hadds

/-- A type before the items of a new object. -/
theorem adds_new {t : Ty} (ht : t.WellNamed) : Adds Q ("new " ++ t.render ++ "\x7b") (flat (marksIn t.render + 1)) := by
  have hnew : Adds (fun _ => True) "new " (flat 0) := by
    refine Adds.of_token (t := .word "new") rfl fun r _ => ?_
    have hblank : EndsWord (' ' :: r) := endsWord_cons (by decide) _
    have hlex := lex_word (w := "new".toList) (by decide) hblank.spec
    rwa [lex_space, String.ofList_toList] at hlex
  have hbrace : Adds Q "\x7b" (flat 1) := adds_separator (p := .lbrace) rfl (by decide) rfl
  have htype := (adds_type ht 0).append hbrace fun r _ => endsType_cons (by decide) _
  have hadds := hnew.append htype fun _ _ => trivial
  rw [andThen_flat, andThen_flat] at hadds
  simpa [String.append_assoc] using hadds

/-- The values without digits that the library gives. -/
theorem adds_limit {m : String} (hm : IsIdentifier m) :
    Adds EndsWord ("std::numeric_limits<double>::" ++ m) (flat (marksIn ("std::numeric_limits<double>::" ++ m))) := by
  have hdouble : Ty.WellNamed (.named "double") := ⟨["double"], by decide, by decide, by decide, rfl⟩
  have htext : joinWords ["std", "numeric_limits"] ++ "<" ++ Ty.render (.named "double") ++ ">" =
      "std::numeric_limits<double>" := by decide
  have hcount : marksIn (joinWords ["std", "numeric_limits"]) + (1 + (marksIn (Ty.render (.named "double")) + 1)) = 4 := by decide
  have htemplate := adds_template ["std", "numeric_limits"] (by decide) hdouble
  rw [htext, hcount] at htemplate
  have hscope : Adds EndsWord ("::" ++ m) (flat (2 + marksIn m)) := by
    rw [← andThen_flat]
    exact (adds_separator (Q := fun _ => True) (p := .scope) rfl (by decide) rfl).append (adds_word hm.1) fun _ _ => trivial
  have hadds := htemplate.append hscope fun r _ => by
    rw [String.toList_append, List.append_assoc]
    exact endsType_cons (by decide) _
  rw [andThen_flat, ← String.append_assoc] at hadds
  have hmarks : marksIn ("std::numeric_limits<double>::" ++ m) = 4 + (2 + marksIn m) := by
    rw [marksIn_append, ← Nat.add_assoc]
    rfl
  rw [hmarks]
  exact hadds

end

end ExprToCpp.Cpp
