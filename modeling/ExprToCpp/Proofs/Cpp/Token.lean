import ExprToCpp.Cpp.Expr
import ExprToCpp.Proofs.Cpp.StringLiteral

/-!
# Tokens

The tokens of C++ text by maximal munch: each token takes as many characters as it can. A number is a preprocessing number, so
it also takes letters, points and the sign of an exponent; a punctuator is the longest one of the language. Main statements:
`lex_word`, `lex_number`, `lex_string` and `lex_punct`, each says what must not follow a token for it to end where it does.
-/

namespace ExprToCpp.Cpp

/-- What holds of each character of a list is decided along the list, and not by going through all characters there are. -/
instance (priority := 2000) decidableForallMemChar (p : Char → Prop) [DecidablePred p] (cs : List Char) :
    Decidable (∀ c ∈ cs, p c) :=
  List.decidableBAll p cs

/-- Operators and punctuation. Prefix operators, template brackets and the star of a pointer are told from the operators
between two operands only by their place. -/
inductive Punct where
  | op (op : BinaryOp)
  | bang | tilde
  | lparen | rparen | lbracket | rbracket | lbrace | rbrace
  | comma | question | colon | scope | arrow | dot
  /-- A punctuator that stands in no expression of the fragment. -/
  | foreign (chars : List Char)
  deriving DecidableEq, Repr

namespace Punct

/-- The characters of a punctuator. -/
def chars : Punct → List Char
  | .op o => o.symbol.toList
  | .bang => ['!']
  | .tilde => ['~']
  | .lparen => ['(']
  | .rparen => [')']
  | .lbracket => ['[']
  | .rbracket => [']']
  | .lbrace => ['\x7b']
  | .rbrace => ['\x7d']
  | .comma => [',']
  | .question => ['?']
  | .colon => [':']
  | .scope => [':', ':']
  | .arrow => ['-', '>']
  | .dot => ['.']
  | .foreign cs => cs

/-- The punctuators of the language, the longer ones first. -/
def all : List Punct :=
  [.foreign ['%', ':', '%', ':'],
    .foreign ['.', '.', '.'], .foreign ['-', '>', '*'], .foreign ['<', '<', '='], .foreign ['>', '>', '='],
    .foreign ['<', '=', '>'],
    .op .shl, .op .shr, .op .eq, .op .ne, .op .le, .op .ge, .op .and, .op .or, .scope, .arrow,
    .foreign ['.', '*'], .foreign ['+', '+'], .foreign ['-', '-'], .foreign ['+', '='], .foreign ['-', '='],
    .foreign ['*', '='], .foreign ['/', '='], .foreign ['%', '='], .foreign ['^', '='], .foreign ['&', '='],
    .foreign ['|', '='], .foreign ['#', '#'], .foreign ['<', '%'], .foreign ['%', '>'], .foreign ['<', ':'],
    .foreign [':', '>'], .foreign ['%', ':'],
    .op .add, .op .sub, .op .mul, .op .div, .op .mod, .op .bitAnd, .op .bitOr, .op .bitXor, .op .lt, .op .gt,
    .bang, .tilde, .lparen, .rparen, .lbracket, .rbracket, .lbrace, .rbrace, .comma, .question, .colon, .dot,
    .foreign ['='], .foreign [';'], .foreign ['#']]

/-- Whether a character after a punctuator makes it the beginning of a longer one. -/
def extendedBy (p : Punct) (c : Char) : Bool := all.any fun q => (p.chars ++ [c]).isPrefixOf q.chars

end Punct

/-- A token. Words are identifiers and keywords; a literal is given by its bytes. -/
inductive Token where
  | word (text : String)
  | number (text : String)
  | string (bytes : List UInt8)
  | punct (p : Punct)
  deriving DecidableEq, Repr

namespace Lexer

/-- Whether a word may begin with a character. -/
def isWordStart (c : Char) : Bool := c.isAlpha || c == '_'

/-- Whether a word may go on with a character. -/
def isWordChar (c : Char) : Bool := c.isAlphanum || c == '_'

/-- The characters of a number: those of a word, and the point. -/
def isNumberChar (c : Char) : Bool := isWordChar c || c == '.'

/-- The letters after which a number takes a sign. -/
def isExponentMark (c : Char) : Bool := c == 'e' || c == 'E' || c == 'p' || c == 'P'

/-- The characters of a number, and what follows it. -/
def scanNumber : List Char → List Char × List Char
  | [] => ([], [])
  | [c] => if isNumberChar c then ([c], []) else ([], [c])
  | c :: d :: r =>
    if isExponentMark c && (d == '+' || d == '-') then Prod.map (c :: d :: ·) id (scanNumber r)
    else if isNumberChar c then Prod.map (c :: ·) id (scanNumber (d :: r))
    else ([], c :: d :: r)

/-- The longest punctuator at the beginning of a text, and what follows it. -/
def munch (cs : List Char) : Option (Punct × List Char) :=
  (Punct.all.find? fun p => p.chars.isPrefixOf cs).map fun p => (p, cs.drop p.chars.length)

/-- Whether a number begins here. -/
def startsNumber (c : Char) (r : List Char) : Bool := c.isDigit || c == '.' && r.head?.any Char.isDigit

/-- Whether a comment begins here. -/
def startsComment (c : Char) (r : List Char) : Bool := c == '/' && (r.head? == some '/' || r.head? == some '*')

/-- The token at the beginning of a text, and what follows it. A literal with a prefix or a suffix is none of these tokens, and
neither is a comment. -/
def next? : List Char → Option (Token × List Char)
  | [] => none
  | c :: r =>
    if isWordStart c then
      let rest := r.dropWhile isWordChar
      if rest.head? = some '"' then none else some (.word (String.ofList (c :: r.takeWhile isWordChar)), rest)
    else if startsNumber c r then
      some (.number (String.ofList (scanNumber (c :: r)).1), (scanNumber (c :: r)).2)
    else if c = '"' then
      match Escape.readLiteral r with
      | some (bytes, rest) => if rest.head?.any isWordStart then none else some (.string bytes, rest)
      | none => none
    else if startsComment c r then none
    else (munch (c :: r)).map (Prod.map .punct id)

/-- The tokens of a text; blanks only separate them. -/
def lex (cs : List Char) : Option (List Token) :=
  match cs with
  | [] => some []
  | c :: r =>
    if c.isWhitespace then lex r
    else
      match next? (c :: r) with
      -- every token takes a character, which the guard only makes plain
      | some (t, rest) => if rest.length < r.length + 1 then (lex rest).map (t :: ·) else none
      | none => none
termination_by cs.length

theorem lex_nil : lex [] = some [] := by
  rw [lex]

theorem lex_space (r : List Char) : lex (' ' :: r) = lex r := by
  rw [lex, if_pos (by decide)]

/-- The first token of a text is taken off, the others follow. -/
theorem lex_of_next? {c : Char} {r rest : List Char} {t : Token} (hc : c.isWhitespace = false)
    (h : next? (c :: r) = some (t, rest)) (hlen : rest.length < r.length + 1) : lex (c :: r) = (lex rest).map (t :: ·) := by
  rw [lex, if_neg (by rw [hc]; decide), h]
  simp only [hlen, if_true]

/-! ## Words -/

/-- A letter or an underscore, then letters, digits and underscores. -/
def isWord : List Char → Bool
  | [] => false
  | c :: cs => isWordStart c && cs.all isWordChar

theorem isWhitespace_of_isWordStart {c : Char} (h : isWordStart c = true) : c.isWhitespace = false := by
  rw [Bool.eq_false_iff]
  intro hw
  simp only [Char.isWhitespace, Bool.or_eq_true, decide_eq_true_eq] at hw
  rcases hw with ((rfl | rfl) | rfl) | rfl <;> exact absurd h (by decide)

/-- A word ends where no character of a word follows. -/
theorem lex_word {w r : List Char} (hw : isWord w = true)
    (hr : ∀ d, r.head? = some d → isWordChar d = false ∧ d ≠ '"') :
    lex (w ++ r) = (lex r).map (.word (String.ofList w) :: ·) := by
  cases w with
  | nil => simp [isWord] at hw
  | cons c t =>
    simp only [isWord, Bool.and_eq_true, List.all_eq_true] at hw
    obtain ⟨hc, ht⟩ := hw
    have htake : r.takeWhile isWordChar = [] := by
      cases r with
      | nil => rfl
      | cons d r => rw [List.takeWhile_cons_of_neg (by simp [(hr d rfl).1])]
    have hdrop : r.dropWhile isWordChar = r := by
      cases r with
      | nil => rfl
      | cons d r => rw [List.dropWhile_cons_of_neg (by simp [(hr d rfl).1])]
    have hquote : r.head? ≠ some '"' := fun h => (hr _ h).2 rfl
    rw [List.cons_append]
    apply lex_of_next? (isWhitespace_of_isWordStart hc)
    · simp only [next?, hc, if_true]
      rw [List.takeWhile_append_of_pos ht, List.dropWhile_append_of_pos ht, htake, hdrop, List.append_nil, if_neg hquote]
    · rw [List.length_append]
      omega

/-! ## Numbers -/

/-- The texts that a number takes whole: a letter that marks an exponent is followed by a digit or by a sign. -/
inductive NumberText : List Char → Prop where
  | nil : NumberText []
  | char {c : Char} {t : List Char} : isNumberChar c = true → isExponentMark c = false → NumberText t → NumberText (c :: t)
  | exponent {c d : Char} {t : List Char} : isExponentMark c = true → d.isDigit = true → NumberText (d :: t) →
      NumberText (c :: d :: t)
  | signedExponent {c d : Char} {t : List Char} : isExponentMark c = true → d = '+' ∨ d = '-' → NumberText t →
      NumberText (c :: d :: t)

/-- An exponent mark is a character of numbers. -/
theorem isNumberChar_of_isExponentMark {c : Char} (h : isExponentMark c = true) : isNumberChar c = true := by
  simp only [isExponentMark, Bool.or_eq_true, beq_iff_eq] at h
  rcases h with ((rfl | rfl) | rfl) | rfl <;> decide

theorem ne_sign_of_isDigit {d : Char} (h : d.isDigit = true) : (d == '+' || d == '-') = false := by
  rw [Bool.eq_false_iff]
  intro hd
  simp only [Bool.or_eq_true, beq_iff_eq] at hd
  rcases hd with rfl | rfl <;> exact absurd h (by decide)

/-- A number ends where no character of numbers follows. -/
theorem scanNumber_stop {r : List Char} (hr : ∀ d, r.head? = some d → isNumberChar d = false) : scanNumber r = ([], r) := by
  match r with
  | [] => rfl
  | [d] => simp [scanNumber, hr d rfl]
  | d :: d' :: r =>
    have hd := hr d rfl
    have he : isExponentMark d = false := by
      rw [Bool.eq_false_iff]
      intro he
      rw [isNumberChar_of_isExponentMark he] at hd
      cases hd
    simp [scanNumber, hd, he]

/-- A number takes its text whole, and ends where no character of a number follows. -/
theorem scanNumber_append {w r : List Char} (hw : NumberText w) (hr : ∀ d, r.head? = some d → isNumberChar d = false) :
    scanNumber (w ++ r) = (w, r) := by
  induction hw with
  | nil => exact scanNumber_stop hr
  | @char c t hc he _ ih =>
    rw [List.cons_append]
    cases htr : t ++ r with
    | nil =>
      obtain ⟨rfl, rfl⟩ := List.append_eq_nil_iff.1 htr
      simp [scanNumber, hc]
    | cons d s =>
      rw [htr] at ih
      simp [scanNumber, hc, he, ih]
  | @exponent c d t hc hd _ ih =>
    rw [List.cons_append] at ih
    simp [scanNumber, hc, ne_sign_of_isDigit hd, isNumberChar_of_isExponentMark hc, ih]
  | signedExponent hc hd _ ih =>
    rcases hd with rfl | rfl <;> simp [scanNumber, hc, ih]

theorem not_isWordStart_of_isDigit {c : Char} (h : c.isDigit = true) : isWordStart c = false := by
  simp only [Char.isDigit, Bool.and_eq_true, decide_eq_true_eq, UInt32.le_iff_toNat_le, ge_iff_le] at h
  have halpha : c.isAlpha = (decide (c.val ≥ 'A'.val ∧ c.val ≤ 'Z'.val) ||
      decide (c.val ≥ 'a'.val) && decide (c.val ≤ 'z'.val)) := rfl
  have h9 : '9'.val.toNat = 57 := rfl
  have hA : 'A'.val.toNat = 65 := rfl
  have ha : 'a'.val.toNat = 97 := rfl
  rw [Bool.eq_false_iff]
  intro hw
  simp only [isWordStart, halpha, Bool.or_eq_true, Bool.and_eq_true, decide_eq_true_eq, UInt32.le_iff_toNat_le,
    ge_iff_le, beq_iff_eq] at hw
  rcases hw with (hw | hw) | rfl
  · omega
  · omega
  · exact absurd h.2 (by decide)

/-- A number is one token, up to what no number has. -/
theorem lex_number {c : Char} {w r : List Char} (hc : c.isDigit = true) (hw : NumberText w)
    (hr : ∀ d, r.head? = some d → isNumberChar d = false) :
    lex (c :: w ++ r) = (lex r).map (.number (String.ofList (c :: w)) :: ·) := by
  have hword := not_isWordStart_of_isDigit hc
  have hnum : NumberText (c :: w) := by
    apply NumberText.char _ _ hw
    · simp [isNumberChar, isWordChar, Char.isAlphanum, hc]
    · rw [Bool.eq_false_iff]
      intro he
      simp only [isExponentMark, Bool.or_eq_true, beq_iff_eq] at he
      rcases he with ((rfl | rfl) | rfl) | rfl <;> exact absurd hc (by decide)
  have hscan := scanNumber_append hnum hr
  have hblank : c.isWhitespace = false := by
    rw [Bool.eq_false_iff]
    intro hb
    simp only [Char.isWhitespace, Bool.or_eq_true, decide_eq_true_eq] at hb
    rcases hb with ((rfl | rfl) | rfl) | rfl <;> exact absurd hc (by decide)
  rw [List.cons_append] at hscan ⊢
  apply lex_of_next? hblank
  · simp [next?, hword, startsNumber, hc, hscan]
  · rw [List.length_append]
    omega

/-! ## Literals and punctuators -/

/-- A string literal is one token with the bytes it was written for, if no suffix follows. -/
theorem lex_string (style : Escape.Style) (bs : List UInt8) {r : List Char}
    (hr : ∀ d, r.head? = some d → isWordStart d = false) :
    lex ('"' :: (Escape.body style bs).toList ++ '"' :: r) = (lex r).map (.string bs :: ·) := by
  have hsuffix : r.head?.any isWordStart = false := by
    cases r with
    | nil => rfl
    | cons d r => simpa using hr d rfl
  rw [List.cons_append]
  apply lex_of_next? (by decide)
  · have hw : isWordStart '"' = false := by decide
    have hn : startsNumber '"' ((Escape.body style bs).toList ++ '"' :: r) = false := by simp [startsNumber]
    simp only [next?, hw, hn, Bool.false_eq_true, if_false, if_true, Escape.readLiteral_body, hsuffix]
  · rw [List.length_append, List.length_cons]
    omega

/-- Whether a character right after a punctuator would be drawn into one token with it. -/
def joins (p : Punct) (c : Char) : Bool :=
  p.extendedBy c || p == .dot && c.isDigit || p == .op .div && (c == '/' || c == '*')

/-- The table lists longer punctuators first, so none is hidden by one of its beginnings. -/
theorem pairwise_all : Punct.all.Pairwise fun p q => ¬ p.chars <+: q.chars := by
  decide +kernel

/-- The longest punctuator is taken, which is the one that was written unless what follows extends it. -/
theorem munch_chars {p : Punct} {r : List Char} (hp : p ∈ Punct.all) (hr : ∀ c, r.head? = some c → p.extendedBy c = false) :
    munch (p.chars ++ r) = some (p, r) := by
  obtain ⟨before, after, hsplit⟩ := List.append_of_mem hp
  have hpair := pairwise_all
  have hfind : Punct.all.find? (fun q => q.chars.isPrefixOf (p.chars ++ r)) = some p := by
    rw [List.find?_eq_some_iff_append]
    refine ⟨by simp, before, after, hsplit, ?_⟩
    intro q hq
    rw [hsplit, List.pairwise_append] at hpair
    have hqp : ¬ q.chars <+: p.chars := hpair.2.2 q hq p (by simp)
    rw [Bool.not_eq_true', Bool.eq_false_iff]
    intro hpre
    rw [List.isPrefixOf_iff_prefix] at hpre
    -- a longer punctuator would begin with `p` and go on with the next character
    rcases List.prefix_or_prefix_of_prefix hpre (List.prefix_append _ _) with h | ⟨t, ht⟩
    · exact hqp h
    · rw [← ht, List.prefix_append_right_inj] at hpre
      cases t with
      | nil =>
        rw [List.append_nil] at ht
        exact hqp (ht ▸ List.prefix_refl _)
      | cons c t =>
        obtain ⟨s, hs⟩ := hpre
        have hc := hr c (by rw [← hs]; rfl)
        rw [Punct.extendedBy, List.any_eq_false] at hc
        apply hc q (by rw [hsplit]; simp [hq])
        rw [List.isPrefixOf_iff_prefix, ← ht]
        exact ⟨t, by simp⟩
  rw [munch, hfind]
  simp

/-- Whether no other kind of token begins with a character. -/
def startsPunct (c : Char) : Bool := !c.isWhitespace && !isWordStart c && !c.isDigit && c != '"'

/-- Every punctuator begins with a character that begins punctuators. -/
theorem head_chars : ∀ p ∈ Punct.all, p.chars.head?.any startsPunct = true := by
  decide

/-- Only the point itself could begin a number. -/
theorem head_chars_dot : ∀ p ∈ Punct.all, p.chars.head? = some '.' → p = .dot ∨ p.chars.tail.head?.any (!·.isDigit) = true := by
  decide

/-- Only the slash itself could begin a comment. -/
theorem head_chars_slash : ∀ p ∈ Punct.all, p.chars.head? = some '/' → p = .op .div ∨ p.chars.tail.head? = some '=' := by
  decide

/-- A punctuator ends where nothing follows that would be drawn into it. -/
theorem lex_punct {p : Punct} {r : List Char} (hp : p ∈ Punct.all) (hr : ∀ c, r.head? = some c → joins p c = false) :
    lex (p.chars ++ r) = (lex r).map (.punct p :: ·) := by
  have hext : ∀ c, r.head? = some c → p.extendedBy c = false := by
    intro c hc
    have := hr c hc
    simp only [joins, Bool.or_eq_false_iff] at this
    exact this.1.1
  have hmunch := munch_chars hp hext
  have hhead := head_chars p hp
  have hdot := head_chars_dot p hp
  have hslash := head_chars_slash p hp
  cases hcs : p.chars with
  | nil => simp [hcs] at hhead
  | cons c t =>
    rw [hcs, List.head?_cons] at hhead hdot hslash
    simp only [Option.any_some, startsPunct, Bool.and_eq_true, Bool.not_eq_true', bne_iff_ne] at hhead
    obtain ⟨⟨⟨hblank, hword⟩, hdigit⟩, hquote⟩ := hhead
    have hnum : startsNumber c (t ++ r) = false := by
      rw [startsNumber, hdigit, Bool.false_or, Bool.and_eq_false_iff]
      by_cases hc : c = '.'
      · right
        rcases hdot (by rw [hc]) with rfl | ht
        · obtain ⟨-, rfl⟩ := List.cons.inj (hcs.symm.trans (rfl : Punct.dot.chars = ['.']))
          cases r with
          | nil => rfl
          | cons d r =>
            have hd := hr d rfl
            simp only [joins, Bool.or_eq_false_iff] at hd
            simpa using hd.1.2
        · cases t with
          | nil => simp at ht
          | cons d t => simpa using ht
      · exact Or.inl (by simp [hc])
    have hcom : startsComment c (t ++ r) = false := by
      rw [startsComment, Bool.and_eq_false_iff]
      by_cases hc : c = '/'
      · right
        rcases hslash (by rw [hc]) with rfl | ht
        · obtain ⟨-, rfl⟩ := List.cons.inj (hcs.symm.trans (rfl : (Punct.op .div).chars = ['/']))
          cases r with
          | nil => rfl
          | cons d r =>
            have hd := hr d rfl
            simp only [joins, Bool.or_eq_false_iff] at hd
            simpa using hd.2
        · cases t with
          | nil => simp at ht
          | cons d t =>
            simp only [List.tail_cons, List.head?_cons, Option.some.injEq] at ht
            subst ht
            simp
      · exact Or.inl (by simp [hc])
    rw [hcs, List.cons_append] at hmunch
    rw [List.cons_append]
    apply lex_of_next? hblank
    · simp only [next?, hword, hnum, hquote, hcom, Bool.false_eq_true, if_false, hmunch, Option.map_some, Prod.map, id]
    · rw [List.length_append]
      omega

/-! ## What follows a punctuator -/

/-- The characters that make a punctuator the beginning of a longer one. -/
def extenders (p : Punct) : List Char :=
  Punct.all.filterMap fun q => if p.chars.isPrefixOf q.chars then (q.chars.drop p.chars.length).head? else none

/-- A character that extends a punctuator is among its extenders. -/
theorem mem_extenders {p : Punct} {c : Char} (h : p.extendedBy c = true) : c ∈ extenders p := by
  rw [Punct.extendedBy, List.any_eq_true] at h
  obtain ⟨q, hq, hpre⟩ := h
  rw [List.isPrefixOf_iff_prefix] at hpre
  obtain ⟨t, ht⟩ := hpre
  refine List.mem_filterMap.2 ⟨q, hq, ?_⟩
  rw [← ht, List.append_assoc, if_pos (by simp), List.drop_left]
  rfl

/-- Only extenders join a punctuator, apart from a point and a slash. -/
theorem joins_eq_false {p : Punct} {c : Char} (h : c ∉ extenders p) (hdot : p ≠ .dot) (hdiv : p ≠ .op .div) :
    joins p c = false := by
  have hext : p.extendedBy c = false := by
    rw [Bool.eq_false_iff]
    exact fun hc => h (mem_extenders hc)
  simp [joins, hext, hdot, hdiv]

/-- No word begins with a character that extends a punctuator. -/
theorem not_isWordStart_extenders : ∀ p ∈ Punct.all, ∀ c ∈ extenders p, isWordStart c = false := by
  decide +kernel

/-- A punctuator before a word is a token of its own. -/
theorem lex_punct_wordStart {p : Punct} (hp : p ∈ Punct.all) {r : List Char} (hr : r.head?.any isWordStart = true) :
    lex (p.chars ++ r) = (lex r).map (.punct p :: ·) := by
  apply lex_punct hp
  intro c hc
  rw [hc, Option.any_some] at hr
  have hext : p.extendedBy c = false := by
    rw [Bool.eq_false_iff]
    intro hcp
    rw [not_isWordStart_extenders p hp c (mem_extenders hcp)] at hr
    cases hr
  have hdigit : c.isDigit = false := by
    rw [Bool.eq_false_iff]
    intro hd
    rw [not_isWordStart_of_isDigit hd] at hr
    cases hr
  have hslash : (c == '/' || c == '*') = false := by
    rw [Bool.eq_false_iff]
    intro hcs
    simp only [Bool.or_eq_true, beq_iff_eq] at hcs
    rcases hcs with rfl | rfl <;> exact absurd hr (by decide)
  simp [joins, hext, hdigit, hslash]

/-- The punctuators that are drawn into no longer one. -/
def separators : List Punct :=
  [.lparen, .rparen, .lbracket, .rbracket, .lbrace, .rbrace, .comma, .question, .tilde, .scope]

/-- Nothing extends a separator. -/
theorem separators_spec : ∀ p ∈ separators, p ∈ Punct.all ∧ extenders p = [] ∧ p ≠ .dot ∧ p ≠ .op .div := by
  decide +kernel

/-- Whatever follows a separator, it ends there. -/
theorem lex_separator {p : Punct} (hp : p ∈ separators) (r : List Char) :
    lex (p.chars ++ r) = (lex r).map (.punct p :: ·) := by
  obtain ⟨hall, hext, hdot, hdiv⟩ := separators_spec p hp
  apply lex_punct hall
  intro c _
  exact joins_eq_false (by rw [hext]; exact List.not_mem_nil) hdot hdiv

theorem op_mem_all (op : BinaryOp) : Punct.op op ∈ Punct.all := by
  cases op <;> decide

/-- A blank extends no operator. -/
theorem joins_op_space (op : BinaryOp) : joins (.op op) ' ' = false := by
  cases op <;> decide +kernel

/-- An operator between blanks. -/
theorem lex_op_space (op : BinaryOp) (r : List Char) :
    lex (' ' :: (op.symbol.toList ++ ' ' :: r)) = (lex r).map (.punct (.op op) :: ·) := by
  have hjoins : ∀ c, (' ' :: r).head? = some c → joins (.op op) c = false := by
    intro c hc
    obtain rfl : ' ' = c := by simpa using hc
    exact joins_op_space op
  have hlex := lex_punct (op_mem_all op) hjoins
  rw [lex_space] at hlex
  rw [lex_space]
  exact hlex

end Lexer

end ExprToCpp.Cpp
