import Mathlib.Data.List.Chain
import ExprToCpp.Proofs.Effect
import ExprToCpp.Proofs.WrittenNames

/-!
# Lexical safety of emitted text

The text of an expression is put into a source file as it is, so no byte of a string, a byte sequence or the name of an encoding
may reach it unescaped, and no two question marks may come to stand side by side, inside a literal or where two pieces of text
meet: they could start a trigraph. Pieces that keep to this and do not begin with a question mark (`IsSafe`) keep to it when they
are joined, and every piece of an emitted text is one. Main statement: `emit_lexically_safe`.
-/

namespace ExprToCpp

open Cpp

/-! ## Safe pieces of text -/

/-- The characters of printable ASCII. -/
def IsPrintable (c : Char) : Prop := 0x20 ≤ c.toNat ∧ c.toNat ≤ 0x7e

instance : DecidablePred IsPrintable := fun c => inferInstanceAs (Decidable (0x20 ≤ c.toNat ∧ c.toNat ≤ 0x7e))

/-- A text that is safe next to any other: printable, with no two question marks in a row and none in front. -/
structure IsSafe (s : String) : Prop where
  printable : AllChars IsPrintable s
  apart : s.toList.IsChain fun a b => ¬ (a = '?' ∧ b = '?')
  start : s.toList.head? ≠ some '?'

/-- Safety as three conditions that can be decided. -/
theorem isSafe_iff {s : String} : IsSafe s ↔ AllChars IsPrintable s ∧
    (s.toList.IsChain fun a b => ¬ (a = '?' ∧ b = '?')) ∧ s.toList.head? ≠ some '?' :=
  ⟨fun h => ⟨h.printable, h.apart, h.start⟩, fun h => ⟨h.1, h.2.1, h.2.2⟩⟩

instance (s : String) : Decidable (IsSafe s) := decidable_of_iff _ isSafe_iff.symm

namespace IsSafe

variable {s t : String}

/-- Where two safe texts meet, the second does not begin with a question mark. -/
theorem append (hs : IsSafe s) (ht : IsSafe t) : IsSafe (s ++ t) where
  printable := allChars_append.2 ⟨hs.printable, ht.printable⟩
  apart := by
    rw [String.toList_append, List.isChain_append]
    refine ⟨hs.apart, ht.apart, fun a _ b hb hab => ht.start ?_⟩
    rw [Option.mem_def.1 hb, hab.2]
  start := by
    rw [String.toList_append, List.head?_append]
    have hstart := hs.start
    cases h : s.toList.head? with
    | none => exact ht.start
    | some c => rwa [h] at hstart

/-- A printable text without question marks is safe. -/
theorem of_ne_question (h : ∀ c ∈ s.toList, IsPrintable c ∧ c ≠ '?') : IsSafe s where
  printable c hc := (h c hc).1
  apart := by
    have hne : ∀ cs : List Char, (∀ c ∈ cs, c ≠ '?') → cs.IsChain fun a b => ¬ (a = '?' ∧ b = '?') := by
      intro cs hcs
      induction cs with
      | nil => exact .nil
      | cons a cs ih =>
        have htail := ih fun c hc => hcs c (List.mem_cons_of_mem a hc)
        exact List.isChain_cons.2 ⟨fun b _ hab => hcs a List.mem_cons_self hab.1, htail⟩
    exact hne _ fun c hc => (h c hc).2
  start hstart := (h '?' (List.mem_of_mem_head? hstart)).2 rfl

theorem paren (h : IsSafe s) : IsSafe ("(" ++ s ++ ")") :=
  (IsSafe.append (by decide) h).append (by decide)

theorem group (wanted : Bool) (h : IsSafe s) : IsSafe (Cpp.group wanted s) := by
  cases wanted with
  | false => exact h
  | true => exact h.paren

theorem call (hs : IsSafe s) (ht : IsSafe t) : IsSafe (s ++ "(" ++ t ++ ")") :=
  ((hs.append (by decide)).append ht).append (by decide)

/-- No two question marks are next to each other anywhere in a safe text. -/
theorem not_infix (h : IsSafe s) : ¬ ['?', '?'] <:+: s.toList := by
  intro hinfix
  have hpair := h.apart.infix hinfix
  simp at hpair

end IsSafe

/-! ## Names, numbers and literals -/

/-- The characters of words are printable, and none is a question mark. -/
theorem printable_of_isWordChar {c : Char} (h : Lexer.isWordChar c = true) : IsPrintable c ∧ c ≠ '?' := by
  refine ⟨?_, fun hquestion => absurd (hquestion ▸ h) (by decide)⟩
  rcases isWordChar_iff.1 h with hrange | hrange | hrange | rfl
  · exact ⟨Nat.le_trans (by decide) hrange.1, Nat.le_trans hrange.2 (by decide)⟩
  · exact ⟨Nat.le_trans (by decide) hrange.1, Nat.le_trans hrange.2 (by decide)⟩
  · exact ⟨Nat.le_trans (by decide) hrange.1, Nat.le_trans hrange.2 (by decide)⟩
  · decide

/-- Texts with the characters of types are safe. -/
theorem isSafe_of_typeChars {n : String} (h : AllChars IsTypeChar n) : IsSafe n := by
  have hmarks : ∀ c ∈ [':', '<', '>', '*'], IsPrintable c ∧ c ≠ '?' := by decide
  refine .of_ne_question fun c hc => ?_
  rcases h c hc with hword | hmark
  · exact printable_of_isWordChar hword
  · exact hmarks c hmark

theorem isSafe_of_numeralChars {s : String} (h : ∀ c ∈ s.toList, Reader.IsNumeralChar c) : IsSafe s := by
  refine .of_ne_question fun c hc => ?_
  rcases h c hc with hnumber | rfl | rfl
  · rcases Bool.or_eq_true_iff.1 hnumber with hword | hpoint
    · exact printable_of_isWordChar hword
    · obtain rfl := eq_of_beq hpoint
      decide
  · decide
  · decide

/-- Digits in every base are characters of words. -/
theorem isWordChar_of_isDigitOf {base : Nat} {c : Char} (h : Escape.isDigitOf base c = true) :
    Lexer.isWordChar c = true := by
  rw [isWordChar_iff]
  unfold Escape.isDigitOf Escape.digitValue? at h
  split_ifs at h with hdecimal hlower hupper
  · exact Or.inr (Or.inr (Or.inl hdecimal))
  · exact Or.inr (Or.inl ⟨hlower.1, Nat.le_trans hlower.2 (by decide)⟩)
  · exact Or.inl ⟨hupper.1, Nat.le_trans hupper.2 (by decide)⟩
  · cases h

/-- A backslash and what has no question mark. -/
theorem isSafe_numericEscape {ds : List Char} (h : ∀ c ∈ ds, Lexer.isWordChar c = true) :
    IsSafe (String.ofList ('\\' :: ds)) := by
  refine .of_ne_question ?_
  rw [String.toList_ofList, List.forall_mem_cons]
  exact ⟨by decide, fun c hc => printable_of_isWordChar (h c hc)⟩

/-- An escape begins with a backslash, and a byte that stands for itself is no question mark. -/
theorem isSafe_textByte (b : UInt8) : IsSafe (String.ofList (Escape.textByte b)) := by
  unfold Escape.textByte
  cases hl : Escape.letter? b with
  | some esc =>
    obtain ⟨c, rfl, hc⟩ := Escape.simpleEscapes_of_letter? hl
    have hall : ∀ p ∈ Escape.simpleEscapes, IsSafe (String.ofList ['\\', p.1]) := by decide
    obtain ⟨l, r, hmem, -⟩ := List.lookup_eq_some_iff.1 hc
    exact hall (c, b) (by rw [hmem]; simp)
  | none =>
    by_cases hp : Escape.isPrintable b = true
    · obtain ⟨hplain, hbyte⟩ := Escape.isPlain_of_isPrintable hp hl
      simp only [hp, if_true]
      refine .of_ne_question ?_
      rw [String.toList_ofList, List.forall_mem_singleton]
      refine ⟨?_, fun hquestion => ?_⟩
      · simp only [Escape.isPlain, Bool.and_eq_true, decide_eq_true_eq] at hplain
        exact ⟨hplain.1.1.1, Nat.le_of_lt_succ hplain.1.1.2⟩
      · rw [hquestion] at hbyte
        rw [← hbyte] at hl
        exact absurd hl (by decide)
    · simp only [hp, Bool.false_eq_true, if_false]
      exact isSafe_numericEscape fun c hc =>
        isWordChar_of_isDigitOf (Escape.isDigitOf_digits 8 (by decide) (by decide) 3 b.toNat c hc)

theorem isSafe_rawByte (b : UInt8) : IsSafe (String.ofList (Escape.rawByte b)) := by
  refine isSafe_numericEscape (List.forall_mem_cons.2 ⟨by decide, fun c hc => ?_⟩)
  exact isWordChar_of_isDigitOf (Escape.isDigitOf_digits 16 (by decide) (by decide) 2 b.toNat c hc)

/-- The body of a literal is safe in both styles, as a question mark in it is escaped. -/
theorem isSafe_body (style : Escape.Style) (bytes : List UInt8) : IsSafe (Escape.body style bytes) := by
  unfold Escape.body
  induction bytes with
  | nil => exact (by decide : IsSafe "")
  | cons b bytes ih =>
    rw [List.flatMap_cons, String.ofList_append]
    refine IsSafe.append ?_ ih
    cases style with
    | text => exact isSafe_textByte b
    | raw => exact isSafe_rawByte b

/-! ## The text of an expression -/

theorem isSafe_renderList {cs : List Cpp.Expr} (h : ∀ c ∈ cs, IsSafe c.render) : IsSafe (Cpp.Expr.renderList cs) := by
  induction cs with
  | nil => exact (by decide : IsSafe "")
  | cons c cs ih =>
    have hc := h c List.mem_cons_self
    have hcs := ih fun d hd => h d (List.mem_cons_of_mem c hd)
    cases cs with
    | nil => exact hc
    | cons d cs => exact (hc.append (by decide)).append hcs

/-- A prefix operator before a safe text is safe. -/
theorem isSafe_unaryText (op : PrefixOp) {s : String} (h : IsSafe s) : IsSafe (Cpp.Expr.unaryText op s) := by
  refine IsSafe.append ?_ (h.group _)
  rcases op with (_ | _ | _) | _ <;> decide

/-- A type is safe if the names in it are. -/
theorem isSafe_type {t : Ty} (h : ∀ n ∈ t.names, IsSafe n) : IsSafe t.render := by
  induction t with
  | named n => exact h n List.mem_cons_self
  | pointer t ih => exact (ih h).append (by decide)
  | vector t ih | shared t ih | unique t ih =>
    have ht := ih fun n hn => h n (List.mem_cons_of_mem _ hn)
    exact (IsSafe.append (by decide) ht).append (by decide)

/-- An expression whose names are safe has a safe text. -/
theorem isSafe_render {c : Cpp.Expr} (h : ∀ n ∈ c.names, IsSafe n) : IsSafe c.render := by
  induction c with
  | int n s => exact isSafe_of_numeralChars (Reader.isNumeralChar_int n s)
  | float d => exact isSafe_of_numeralChars (Reader.isNumeralChar_float d)
  | bool b =>
    cases b with
    | false => exact (by decide : IsSafe "false")
    | true => exact (by decide : IsSafe "true")
  | string style bytes => exact (IsSafe.append (by decide) (isSafe_body style bytes)).append (by decide)
  | name n => exact h n List.mem_cons_self
  | paren c ih => exact (ih h).paren
  | call f args ihf ihargs =>
    obtain ⟨hf, hargs⟩ := List.forall_mem_append.1 h
    exact ((ihf hf).group _).call (isSafe_renderList fun a ha => ihargs a ha fun n hn =>
      hargs n (Cpp.Expr.mem_namesOfAll.2 ⟨a, ha, hn⟩))
  | arrow c m ih | dot c m ih =>
    obtain ⟨hc, hm⟩ := List.forall_mem_append.1 h
    exact (((ih hc).group _).append (by decide)).append (hm m List.mem_cons_self)
  | index c i ihc ihi =>
    obtain ⟨hc, hi⟩ := List.forall_mem_append.1 h
    exact ((((ihc hc).group _).append (by decide)).append (ihi hi)).append (by decide)
  | staticCast t c ih =>
    obtain ⟨ht, hc⟩ := List.forall_mem_append.1 h
    exact (((IsSafe.append (by decide) (isSafe_type ht)).append (by decide)).append (ih hc)).append (by decide)
  | staticPointerCast t c ih =>
    obtain ⟨-, h⟩ := List.forall_mem_cons.1 h
    obtain ⟨ht, hc⟩ := List.forall_mem_append.1 h
    exact (((IsSafe.append (by decide) (isSafe_type ht)).append (by decide)).append (ih hc)).append (by decide)
  | new t items ih =>
    obtain ⟨ht, hitems⟩ := List.forall_mem_append.1 h
    have hlist := isSafe_renderList fun a ha => ih a ha fun n hn => hitems n (Cpp.Expr.mem_namesOfAll.2 ⟨a, ha, hn⟩)
    exact (((IsSafe.append (by decide) (isSafe_type ht)).append (by decide)).append hlist).append (by decide)
  | own t c ih =>
    obtain ⟨ht, hc⟩ := List.forall_mem_append.1 h
    exact (isSafe_type ht).call (ih hc)
  | unary op c ih => exact isSafe_unaryText op ((ih h).group _)
  | binary op l r ihl ihr =>
    obtain ⟨hl, hr⟩ := List.forall_mem_append.1 h
    have hsymbol : IsSafe op.symbol := by cases op <;> decide
    exact (((((ihl hl).group _).append (by decide)).append hsymbol).append (by decide)).append ((ihr hr).group _)
  | conditional c t f ihc iht ihf =>
    obtain ⟨h, hf⟩ := List.forall_mem_append.1 h
    obtain ⟨hc, ht⟩ := List.forall_mem_append.1 h
    -- the question mark of the operator stands between blanks
    exact ((((ihc hc).append (by decide)).append (iht ht)).append (by decide)).append (ihf hf)

/-- Whatever the strings, byte sequences and encodings of an expression are, its text is printable ASCII and has no two question
marks side by side, as long as its names are plain. -/
theorem emit_lexically_safe {Γ : Context} {e : Expr} {text : String} (hplain : Γ.Plain e)
    (h : (e.emit Γ).outcome = .ok text) :
    (∀ c ∈ text.toList, 0x20 ≤ c.toNat ∧ c.toNat ≤ 0x7e) ∧ ¬ ['?', '?'] <:+: text.toList := by
  obtain ⟨c, hlowers, rfl⟩ := emit_ok_iff_lowers.1 h
  have hsafe : IsSafe c.render :=
    isSafe_render fun n hn => isSafe_of_typeChars (hplain.typeChars (namesOnly_of_lowers hlowers n hn))
  exact ⟨hsafe.printable, hsafe.not_infix⟩

/-- Question marks, a line break, a letter that is not ASCII and bytes that are no text, in both branches of a conditional. -/
theorem emit_lexically_safe_conditional :
    let Γ : Context := ⟨({} : TypeTable).toTyping, .conservative⟩
    let e : Expr := .conditional (.name "flag") (.str "??/é\n") (.method (.bytes [63, 63, 255]) .toStr [.str "??"])
    let text := "((flag()) ? (std::string(\"\\?\\?/\\303\\251\\n\")) : " ++
      "(kaitai::kstream::bytes_to_str(std::string(\"\\x3f\\x3f\\xff\", 3), \"\\?\\?\")))"
    Γ.Plain e ∧ (e.emit Γ).outcome = .ok text ∧
      (∀ c ∈ text.toList, 0x20 ≤ c.toNat ∧ c.toNat ≤ 0x7e) ∧ ¬ ['?', '?'] <:+: text.toList := by
  intro Γ e text
  have hemit : (e.emit Γ).outcome = .ok text := rfl
  have hsupport : ∀ c ∈ Γ.config.supportClass.toList, Lexer.isWordChar c = true ∨ c = ':' := by decide
  -- none of the types is a record or an enumeration
  have hplain_of : ∀ x : Expr, (∀ n ∈ x.names, IsPlainName n) → (∀ t, Γ.types.typeOf x = some t → t.names = []) →
      (∀ y ∈ x.children, Γ.Plain y) → Γ.Plain x :=
    fun x hnames htype hparts => Context.plain_iff.2 ⟨hsupport, hnames, fun t ht => by simp [htype t ht], hparts⟩
  have hstr : ∀ s, Γ.Plain (.str s) := fun s => hplain_of _ (by simp [Expr.names]) (fun t ht => by cases ht; rfl) (by simp)
  have hflag : Γ.Plain (.name "flag") := hplain_of _ (by decide) (fun t ht => by cases ht) (by simp)
  have hbytes : Γ.Plain (.bytes [63, 63, 255]) :=
    hplain_of _ (by simp [Expr.names]) (fun t ht => by cases ht; rfl) (by simp)
  have hdecoded : Γ.Plain (.method (.bytes [63, 63, 255]) .toStr [.str "??"]) :=
    hplain_of _ (by simp [Expr.names]) (fun t ht => by cases ht; rfl) (by simpa using ⟨hbytes, hstr _⟩)
  have hplain : Γ.Plain e :=
    hplain_of _ (by simp [e, Expr.names]) (fun t ht => by cases ht; rfl) (by simpa [e] using ⟨hflag, hstr _, hdecoded⟩)
  exact ⟨hplain, hemit, emit_lexically_safe hplain hemit⟩

end ExprToCpp
