import Mathlib.Tactic.Ring
import Mathlib.Tactic.FieldSimp
import ExprToCpp.Proofs.Cpp.Grammar

/-!
# Numeric literals

The text of an integer or of a decimal is one token and is read as its value. A decimal has three texts: all digits in place with
the point after, among or before them, or one digit with the others after a point and an exponent. The digits are always those
of the coefficient, filled up with zeros, so each text comes down to where the point stands.
-/

namespace ExprToCpp

/-- The number that a decimal is. -/
def Decimal.value (d : Decimal) : ℚ := d.coefficient * (10 : ℚ) ^ d.exponent

namespace Cpp.Reader

/-! ## Digits -/

/-- All characters are decimal digits. -/
def AllDigits (w : List Char) : Prop := ∀ c ∈ w, c.isDigit = true

theorem AllDigits.append {v w : List Char} (hv : AllDigits v) (hw : AllDigits w) : AllDigits (v ++ w) := by
  intro c hc
  rcases List.mem_append.1 hc with hc | hc
  · exact hv c hc
  · exact hw c hc

theorem allDigits_zeros (n : Nat) : AllDigits (List.replicate n '0') := by
  intro c hc
  rw [List.eq_of_mem_replicate hc]
  decide

/-- A natural number is written with digits. -/
theorem allDigits_toDigits (n : Nat) : AllDigits (Nat.toDigits 10 n) := by
  intro c hc
  exact Nat.isDigit_of_mem_toDigits (by decide) (by decide) hc

/-- Only zero begins with the digit zero. -/
theorem eq_zero_of_head_toDigits (n : Nat) (h : (Nat.toDigits 10 n).head? = some '0') : n = 0 := by
  induction n using Nat.strongRecOn with
  | ind n ih =>
    by_cases hn : n < 10
    · rw [Nat.toDigits_of_lt_base hn] at h
      have hdigit : ∀ m < 10, Nat.digitChar m = '0' → m = 0 := by decide
      exact hdigit n hn (by simpa using h)
    · have hlead : (Nat.toDigits 10 (n / 10)).head? = some '0' := by
        rw [Nat.toDigits_of_base_le (by decide) (by omega)] at h
        obtain ⟨c, cs, hcs⟩ := List.exists_cons_of_ne_nil (Nat.toDigits_ne_nil (n := n / 10) (b := 10))
        rw [hcs] at h ⊢
        exact h
      have hzero := ih (n / 10) (by omega) hlead
      omega

/-- Digits are taken up to what is none. -/
theorem takeWhile_digits {w r : List Char} (hw : AllDigits w) (hr : ∀ c, r.head? = some c → c.isDigit = false) :
    (w ++ r).takeWhile Char.isDigit = w ∧ (w ++ r).dropWhile Char.isDigit = r := by
  rw [List.takeWhile_append_of_pos hw, List.dropWhile_append_of_pos hw]
  cases r with
  | nil => exact ⟨List.append_nil w, rfl⟩
  | cons c r =>
    have hc : ¬ c.isDigit = true := by rw [hr c rfl]; decide
    rw [List.takeWhile_cons_of_neg hc, List.dropWhile_cons_of_neg hc, List.append_nil]
    exact ⟨rfl, rfl⟩

/-- Digits are read as the number they stand for. -/
theorem readDigits_eq {ds : List Char} (hne : ds ≠ []) (hds : AllDigits ds) :
    readDigits ds = some (Nat.ofDigitChars 10 ds 0) := by
  rw [readDigits, if_pos ⟨hne, List.all_eq_true.2 hds⟩]

/-! ## Reading -/

/-- The text of a suffix is read as the suffix. -/
theorem suffix?_text (s : IntSuffix) : suffix? s.text.toList = some s := by
  cases s <;> decide

/-- An integer is read as its value. -/
theorem readNumber_int (n : Nat) (s : IntSuffix) : readNumber (Nat.toDigits 10 n ++ s.text.toList) = some (.int n s) := by
  have hsuffix : ∀ c, s.text.toList.head? = some c → c.isDigit = false := by
    cases s <;> simp [IntSuffix.text]
  obtain ⟨htake, hdrop⟩ := takeWhile_digits (allDigits_toDigits n) hsuffix
  have hoctal : ¬ ((Nat.toDigits 10 n).head? = some '0' ∧ Nat.toDigits 10 n ≠ ['0']) := by
    rintro ⟨hhead, hne⟩
    rw [eq_zero_of_head_toDigits n hhead] at hne
    exact hne rfl
  rw [readNumber, htake, hdrop, suffix?_text]
  simp only [hoctal, if_false, Nat.ofDigitChars_ten_toDigits]

/-- A point or an exponent is no suffix. -/
theorem suffix?_eq_none {c : Char} {r : List Char} (h : c = '.' ∨ c = 'e') : suffix? (c :: r) = none := by
  rcases h with rfl | rfl <;> simp [suffix?, IntSuffix.text]

/-- A literal with a point: the digits on both sides together, and the point moves by those after it. -/
theorem readNumber_point {w f x : List Char} (hw : AllDigits w) (hf : AllDigits f)
    (hx : ∀ c, x.head? = some c → c.isDigit = false) :
    readNumber (w ++ '.' :: (f ++ x)) =
      (readExponent x).map fun e => .float (Nat.ofDigitChars 10 (w ++ f) 0 * (10 : ℚ) ^ (e - (f.length : Int))) := by
  have hpoint : ∀ c, ('.' :: (f ++ x)).head? = some c → c.isDigit = false := by
    intro c hc
    obtain rfl : '.' = c := by simpa using hc
    decide
  obtain ⟨htake, hdrop⟩ := takeWhile_digits hw hpoint
  obtain ⟨hftake, hfdrop⟩ := takeWhile_digits hf hx
  rw [readNumber, htake, hdrop, suffix?_eq_none (Or.inl rfl)]
  simp only [readFloat, readFraction, hftake, hfdrop]

/-- A literal with an exponent and no point. -/
theorem readNumber_exponent {w x : List Char} (hw : AllDigits w) :
    readNumber (w ++ 'e' :: x) =
      (readExponent ('e' :: x)).map fun e => .float (Nat.ofDigitChars 10 w 0 * (10 : ℚ) ^ e) := by
  have hmark : ∀ c, ('e' :: x).head? = some c → c.isDigit = false := by
    intro c hc
    obtain rfl : 'e' = c := by simpa using hc
    decide
  obtain ⟨htake, hdrop⟩ := takeWhile_digits hw hmark
  rw [readNumber, htake, hdrop, suffix?_eq_none (Or.inr rfl)]
  simp [readFloat, readFraction]

/-- The text of an integer is that of its magnitude, after a minus if it is negative. -/
theorem toList_toString_int (i : Int) :
    (toString i).toList = (if i < 0 then ['-'] else []) ++ Nat.toDigits 10 i.natAbs := by
  cases i with
  | ofNat n =>
    change (toString n).toList = _
    rw [if_neg (by simp)]
    simp
  | negSucc n =>
    change ("-" ++ toString (n + 1)).toList = _
    rw [if_pos (Int.negSucc_lt_zero n)]
    simp

/-- An exponent is read as the number it was written for. -/
theorem readExponent_toString (i : Int) : readExponent ('e' :: (toString i).toList) = some i := by
  have hdigits := readDigits_eq Nat.toDigits_ne_nil (allDigits_toDigits i.natAbs)
  rw [Nat.ofDigitChars_ten_toDigits] at hdigits
  rw [toList_toString_int]
  by_cases hi : i < 0
  · rw [if_pos hi, List.singleton_append, readExponent, if_pos (Or.inl rfl), hdigits, Option.map_some]
    congr
    omega
  · rw [if_neg hi, List.nil_append, readExponent, if_pos (Or.inl rfl), hdigits, Option.map_some, Int.ofNat_eq_natCast]
    · congr
      omega
    -- digits begin with no sign
    · intro ds heq
      exact absurd (allDigits_toDigits _ '-' (heq ▸ List.mem_cons_self)) (by decide)
    · intro ds heq
      exact absurd (allDigits_toDigits _ '+' (heq ▸ List.mem_cons_self)) (by decide)

/-! ## Decimals -/

/-- The digits of a decimal are those of its coefficient. -/
theorem ofDigitChars_digits (d : Decimal) : Nat.ofDigitChars 10 d.digits 0 = d.coefficient :=
  Nat.ofDigitChars_ten_toDigits

theorem allDigits_digits (d : Decimal) : AllDigits d.digits := allDigits_toDigits d.coefficient

theorem length_digits_pos (d : Decimal) : 0 < d.digits.length := List.length_pos_iff.2 Nat.toDigits_ne_nil

/-- The digits on both sides of a point are worth what they are with the point moved behind them. -/
theorem readNumber_fraction {w f : List Char} (hw : AllDigits w) (hf : AllDigits f) :
    readNumber (w ++ '.' :: f) = some (.float (Nat.ofDigitChars 10 (w ++ f) 0 * (10 : ℚ) ^ (-(f.length : Int)))) := by
  have hread := readNumber_point (x := []) hw hf nofun
  rw [List.append_nil] at hread
  rw [hread, readExponent, Option.map_some, zero_sub]

/-- A whole number: zeros up to the point and one after it. -/
theorem readNumber_whole {d : Decimal} (h : 0 ≤ d.exponent) :
    readNumber (d.digits ++ List.replicate d.exponent.toNat '0' ++ ['.', '0']) = some (.float d.value) := by
  have hzero : AllDigits ['0'] := allDigits_zeros 1
  obtain ⟨k, hk⟩ := Int.eq_ofNat_of_zero_le h
  rw [readNumber_fraction ((allDigits_digits d).append (allDigits_zeros _)) hzero, Decimal.value, hk, Int.toNat_natCast]
  have hdigits : Nat.ofDigitChars 10 (d.digits ++ List.replicate k '0' ++ ['0']) 0 = 10 * (10 ^ k * d.coefficient) := by
    rw [Nat.ofDigitChars_append, Nat.ofDigitChars_append, ofDigitChars_digits, Nat.ofDigitChars_replicate_zero]
    rfl
  rw [hdigits]
  congr 2
  push_cast
  rw [zpow_natCast, List.length_singleton, Nat.cast_one, zpow_neg, zpow_one]
  field_simp

/-- A fraction: the point among the digits, or before them with zeros between. -/
theorem readNumber_places {d : Decimal} {places : Nat} (h : d.exponent = -(places : Int)) {w f : List Char} (hw : AllDigits w)
    (hf : AllDigits f) (hlen : f.length = places) (hdigits : Nat.ofDigitChars 10 (w ++ f) 0 = d.coefficient) :
    readNumber (w ++ '.' :: f) = some (.float d.value) := by
  rw [readNumber_fraction hw hf, hdigits, hlen, ← h, Decimal.value]

/-- The digits of a coefficient all in place. -/
theorem readNumber_positional (d : Decimal) : readNumber (d.positional true) = some (.float d.value) := by
  rw [Decimal.positional]
  by_cases he : 0 ≤ d.exponent
  · rw [if_pos he, if_pos rfl]
    exact readNumber_whole he
  · rw [if_neg he]
    have hplaces : d.exponent = -(((-d.exponent).toNat : Nat) : Int) := by omega
    generalize (-d.exponent).toNat = places at hplaces ⊢
    have hsub : ∀ l : List Char, l ⊆ d.digits → AllDigits l := fun l hl c hc => allDigits_digits d c (hl hc)
    by_cases hlen : places < d.digits.length
    · simp only [hlen, if_true]
      apply readNumber_places hplaces (hsub _ (List.take_subset _ _)) (hsub _ (List.drop_subset _ _))
      · rw [List.length_drop]
        omega
      · rw [List.take_append_drop, ofDigitChars_digits]
    · simp only [hlen, if_false]
      apply readNumber_places (w := ['0']) hplaces (allDigits_zeros 1) ((allDigits_zeros _).append (allDigits_digits d))
      · rw [List.length_append, List.length_replicate]
        omega
      · rw [Nat.ofDigitChars_append, Nat.ofDigitChars_append, Nat.ofDigitChars_replicate_zero]
        exact ofDigitChars_digits d

/-- One digit before the point, if there are others, and the exponent of the first. -/
theorem readNumber_scientific (d : Decimal) : readNumber d.scientific = some (.float d.value) := by
  obtain ⟨c, cs, hcs⟩ := List.exists_cons_of_ne_nil (Nat.toDigits_ne_nil (n := d.coefficient) (b := 10))
  have hdigits : d.digits = c :: cs := hcs
  have hvalue := ofDigitChars_digits d
  have hall := allDigits_digits d
  have hlead : d.leadingExponent = d.exponent + (cs.length : Int) := by
    rw [Decimal.leadingExponent, hdigits, List.length_cons]
    push_cast
    omega
  rw [hdigits] at hvalue hall
  have hc : AllDigits [c] := fun x hx => hall x (List.mem_cons.2 (Or.inl (List.mem_singleton.1 hx)))
  rw [Decimal.scientific, hdigits]
  simp only [List.take_succ_cons, List.take_zero, List.drop_succ_cons, List.drop_zero]
  cases cs with
  | nil =>
    rw [List.isEmpty_nil, if_pos rfl, List.append_nil, readNumber_exponent hc, readExponent_toString, Option.map_some, hvalue,
      hlead, Decimal.value]
    simp
  | cons b bs =>
    have hmark : ∀ x, ('e' :: (toString d.leadingExponent).toList).head? = some x → x.isDigit = false := by
      intro x hx
      obtain rfl : 'e' = x := by simpa using hx
      decide
    have hread := readNumber_point hc (fun x hx => hall x (List.mem_cons_of_mem c hx)) hmark
    rw [readExponent_toString, Option.map_some, List.singleton_append, List.singleton_append, hvalue, hlead, add_sub_cancel_right] at hread
    rw [List.isEmpty_cons, if_neg (by decide), List.append_assoc, hlead, Decimal.value, ← hread]
    rfl

/-- The text of a floating literal is read as its value. -/
theorem readNumber_float (d : Decimal) : readNumber (d.text floatLayout).toList = some (.float d.value) := by
  rw [Decimal.text, String.toList_ofList]
  split
  · exact readNumber_positional d
  · exact readNumber_scientific d

/-! ## Tokens -/

open Lexer

/-- Digits before the text of a number are part of it. -/
theorem numberText_append {w t : List Char} (hw : AllDigits w) (ht : NumberText t) : NumberText (w ++ t) := by
  induction w with
  | nil => exact ht
  | cons c w ih =>
    have hc : c.isDigit = true := hw c List.mem_cons_self
    apply NumberText.char
    · simp [isNumberChar, isWordChar, Char.isAlphanum, hc]
    · rw [Bool.eq_false_iff]
      intro he
      simp only [isExponentMark, Bool.or_eq_true, beq_iff_eq] at he
      rcases he with ((rfl | rfl) | rfl) | rfl <;> exact absurd hc (by decide)
    · exact ih fun x hx => hw x (List.mem_cons_of_mem c hx)

/-- Digits alone are the text of a number. -/
theorem numberText_digits {w : List Char} (hw : AllDigits w) : NumberText w := by
  have htext := numberText_append hw NumberText.nil
  rwa [List.append_nil] at htext

/-- So are digits after a point. -/
theorem numberText_point {t : List Char} (ht : NumberText t) : NumberText ('.' :: t) :=
  NumberText.char (by decide) (by decide) ht

/-- The sign of an exponent belongs to the number. -/
theorem numberText_exponent (i : Int) : NumberText ('e' :: (toString i).toList) := by
  have hdigits := allDigits_toDigits i.natAbs
  obtain ⟨c, cs, hcs⟩ := List.exists_cons_of_ne_nil (Nat.toDigits_ne_nil (n := i.natAbs) (b := 10))
  rw [toList_toString_int]
  rw [hcs] at hdigits ⊢
  by_cases hi : i < 0
  · rw [if_pos hi, List.singleton_append]
    exact NumberText.signedExponent (by decide) (Or.inr rfl) (numberText_digits hdigits)
  · rw [if_neg hi, List.nil_append]
    exact NumberText.exponent (by decide) (hdigits c List.mem_cons_self) (numberText_digits hdigits)

/-- A text that begins with digits and goes on as a number is one token. -/
theorem lex_digits {w t r : List Char} (hne : w ≠ []) (hw : AllDigits w) (ht : NumberText t)
    (hr : ∀ d, r.head? = some d → isNumberChar d = false) :
    lex (w ++ t ++ r) = (lex r).map (.number (String.ofList (w ++ t)) :: ·) := by
  obtain ⟨c, cs, rfl⟩ := List.exists_cons_of_ne_nil hne
  rw [List.cons_append]
  exact lex_number (hw c List.mem_cons_self) (numberText_append (fun x hx => hw x (List.mem_cons_of_mem c hx)) ht) hr

/-- An integer literal is one token. -/
theorem lex_int (n : Nat) (s : IntSuffix) {r : List Char} (hr : ∀ d, r.head? = some d → isNumberChar d = false) :
    lex ((toString n ++ s.text).toList ++ r) = (lex r).map (.number (toString n ++ s.text) :: ·) := by
  have hsuffix : NumberText s.text.toList := by
    cases s with
    | plain => exact NumberText.nil
    | ul => exact .char (by decide) (by decide) (.char (by decide) (by decide) .nil)
    | ll => exact .char (by decide) (by decide) (.char (by decide) (by decide) .nil)
    | ull => exact .char (by decide) (by decide) (.char (by decide) (by decide) (.char (by decide) (by decide) .nil))
  have hlex := lex_digits Nat.toDigits_ne_nil (allDigits_toDigits n) hsuffix hr
  have htext : (toString n ++ s.text).toList = Nat.toDigits 10 n ++ s.text.toList := by simp
  rw [← htext, String.ofList_toList] at hlex
  exact hlex

/-- A decimal begins with a digit and goes on as a number. -/
theorem exists_digits_float (d : Decimal) :
    ∃ w t, (d.text floatLayout).toList = w ++ t ∧ w ≠ [] ∧ AllDigits w ∧ Lexer.NumberText t := by
  have hdigits := allDigits_digits d
  have hne : d.digits ≠ [] := Nat.toDigits_ne_nil
  have hsub : ∀ l : List Char, l ⊆ d.digits → AllDigits l := fun l hl c hc => hdigits c (hl hc)
  have hpos := length_digits_pos d
  have hzero : AllDigits ['0'] := allDigits_zeros 1
  rw [Decimal.text, String.toList_ofList]
  split
  · rw [Decimal.positional]
    split
    · refine ⟨_, _, List.append_assoc _ _ _, hne, hdigits, ?_⟩
      exact numberText_append (allDigits_zeros _) (numberText_point (numberText_digits hzero))
    · by_cases hlen : (-d.exponent).toNat < d.digits.length
      · simp only [hlen, if_true]
        refine ⟨_, _, rfl, ?_, hsub _ (List.take_subset _ _), numberText_point (numberText_digits (hsub _ (List.drop_subset _ _)))⟩
        rw [← List.length_pos_iff, List.length_take]
        omega
      · simp only [hlen, if_false]
        exact ⟨['0'], _, rfl, by simp, hzero, numberText_point (numberText_digits ((allDigits_zeros _).append hdigits))⟩
  · have hone : d.digits.take 1 ≠ [] := by
      rw [← List.length_pos_iff, List.length_take]
      omega
    rw [Decimal.scientific]
    refine ⟨_, _, List.append_assoc _ _ _, hone, hsub _ (List.take_subset _ _), ?_⟩
    split
    · exact numberText_exponent _
    · exact numberText_point (numberText_append (hsub _ (List.drop_subset _ _)) (numberText_exponent _))

/-- The characters of numbers, with the signs of their exponents. -/
def IsNumeralChar (c : Char) : Prop := isNumberChar c = true ∨ c = '+' ∨ c = '-'

/-- A character that no number has is none of a numeral. -/
theorem IsNumeralChar.ne {c d : Char} (h : IsNumeralChar c) (hd : isNumberChar d = false ∧ d ≠ '+' ∧ d ≠ '-') : c ≠ d := by
  rintro rfl
  rcases h with h | h | h
  · rw [hd.1] at h
    cases h
  · exact hd.2.1 h
  · exact hd.2.2 h

/-- The text of a number has only characters of numerals. -/
theorem isNumeralChar_of_numberText {t : List Char} (ht : NumberText t) : ∀ c ∈ t, IsNumeralChar c := by
  have hmark : ∀ {c}, isExponentMark c = true → IsNumeralChar c := fun h => Or.inl (isNumberChar_of_isExponentMark h)
  induction ht with
  | nil => simp
  | char hc _ _ ih => exact List.forall_mem_cons.2 ⟨Or.inl hc, ih⟩
  | exponent hc _ _ ih => exact List.forall_mem_cons.2 ⟨hmark hc, ih⟩
  | signedExponent hc hd _ ih => exact List.forall_mem_cons.2 ⟨hmark hc, List.forall_mem_cons.2 ⟨Or.inr hd, ih⟩⟩

theorem isNumeralChar_int (n : Nat) (s : IntSuffix) : ∀ c ∈ (toString n ++ s.text).toList, IsNumeralChar c := by
  have htext : (toString n ++ s.text).toList = Nat.toDigits 10 n ++ s.text.toList := by simp
  have hsuffix : ∀ c ∈ s.text.toList, isNumberChar c = true := by cases s <;> decide
  rw [htext, List.forall_mem_append]
  exact ⟨isNumeralChar_of_numberText (numberText_digits (allDigits_toDigits n)), fun c hc => Or.inl (hsuffix c hc)⟩

theorem isNumeralChar_float (d : Decimal) : ∀ c ∈ (d.text floatLayout).toList, IsNumeralChar c := by
  obtain ⟨w, t, htext, -, hw, ht⟩ := exists_digits_float d
  rw [htext]
  exact isNumeralChar_of_numberText (numberText_append hw ht)

/-- A float literal is one token. -/
theorem lex_float (d : Decimal) {r : List Char} (hr : ∀ d, r.head? = some d → isNumberChar d = false) :
    lex ((d.text floatLayout).toList ++ r) = (lex r).map (.number (d.text floatLayout) :: ·) := by
  obtain ⟨w, t, htext, hne, hw, ht⟩ := exists_digits_float d
  have hlex := lex_digits hne hw ht hr
  rw [← htext, String.ofList_toList] at hlex
  exact hlex

end Cpp.Reader

end ExprToCpp
