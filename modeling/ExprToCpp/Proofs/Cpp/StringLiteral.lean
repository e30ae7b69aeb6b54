import ExprToCpp.Cpp.Escape

/-!
# Reading string literals

How C++ reads what stands between the quotes of a string literal: escapes of one letter, octal escapes of up to three digits,
hexadecimal escapes of all the digits there are, and printable characters as they are. Main statements: `readLiteral_text` and
`readLiteral_raw`, a body written byte by byte reads back as its bytes and ends at the closing quote.
-/

namespace ExprToCpp.Cpp.Escape

/-- The value of a digit, up to hexadecimal. -/
def digitValue? (c : Char) : Option Nat :=
  if '0' ≤ c ∧ c ≤ '9' then some (c.toNat - '0'.toNat)
  else if 'a' ≤ c ∧ c ≤ 'f' then some (c.toNat - 'a'.toNat + 10)
  else if 'A' ≤ c ∧ c ≤ 'F' then some (c.toNat - 'A'.toNat + 10)
  else none

/-- Whether a character is a digit of a base up to sixteen. -/
def isDigitOf (base : Nat) (c : Char) : Bool := (digitValue? c).any (· < base)

/-- The number that digits write in a base. -/
def numberOf (base : Nat) (ds : List Char) : Nat := ds.foldl (fun n c => n * base + (digitValue? c).getD 0) 0

/-- The escapes of one letter, and their bytes. -/
def simpleEscapes : List (Char × UInt8) :=
  [('\'', 39), ('"', 34), ('?', 63), ('\\', 92), ('a', 7), ('b', 8), ('f', 12), ('n', 10), ('r', 13), ('t', 9), ('v', 11)]

/-- A number that fits a byte. -/
def byte? (n : Nat) : Option UInt8 := if n < 256 then some (UInt8.ofNat n) else none

/-- The byte of an escape, read after its backslash, and what follows the escape. Each kind of number takes as many digits as
it can: at most three if octal, all that follow if hexadecimal. -/
def readEscape : List Char → Option (UInt8 × List Char)
  | [] => none
  | c :: r =>
    match simpleEscapes.lookup c with
    | some b => some (b, r)
    | none =>
      if isDigitOf 8 c then
        let ds := ((c :: r).takeWhile (isDigitOf 8)).take 3
        (byte? (numberOf 8 ds)).map (·, (c :: r).drop ds.length)
      else if c = 'x' ∧ r.takeWhile (isDigitOf 16) ≠ [] then
        (byte? (numberOf 16 (r.takeWhile (isDigitOf 16)))).map (·, r.dropWhile (isDigitOf 16))
      else none

/-- An escape takes at least one character. -/
theorem length_of_readEscape {cs rest : List Char} {b : UInt8} (h : readEscape cs = some (b, rest)) :
    rest.length < cs.length := by
  cases cs with
  | nil => simp [readEscape] at h
  | cons c r =>
    simp only [readEscape] at h
    split at h
    · simp only [Option.some.injEq, Prod.mk.injEq] at h
      obtain ⟨-, rfl⟩ := h
      simp
    · split at h
      · rename_i hc
        obtain ⟨a, -, ha⟩ := Option.map_eq_some_iff.1 h
        obtain ⟨-, rfl⟩ := Prod.mk.inj ha
        simp only [List.takeWhile_cons, hc, if_true, List.take_succ_cons, List.length_cons, List.length_drop]
        omega
      · split at h
        · obtain ⟨a, -, ha⟩ := Option.map_eq_some_iff.1 h
          obtain ⟨-, rfl⟩ := Prod.mk.inj ha
          have := (List.dropWhile_suffix (l := r) (isDigitOf 16)).length_le
          simp only [List.length_cons]
          omega
        · cases h

/-- The characters that stand for themselves: those of printable ASCII, but the quote and the backslash. -/
def isPlain (c : Char) : Bool := decide (0x20 ≤ c.toNat ∧ c.toNat < 0x7f) && c != '"' && c != '\\'

/-- The bytes of a literal, read after its opening quote, and what follows its closing quote. -/
def readLiteral (cs : List Char) : Option (List UInt8 × List Char) :=
  match cs with
  | [] => none
  | c :: r =>
    if c = '"' then some ([], r)
    else if c = '\\' then
      match h : readEscape r with
      | none => none
      | some (b, rest) =>
        have := length_of_readEscape h
        (readLiteral rest).map (Prod.map (b :: ·) id)
    else if isPlain c then (readLiteral r).map (Prod.map (UInt8.ofNat c.toNat :: ·) id)
    else none
termination_by cs.length
decreasing_by all_goals simp only [List.length_cons]; omega

/-! ## Digits -/

/-- A digit is read as its value. -/
theorem digitValue?_digitChar {k : Nat} (h : k < 16) : digitValue? (Nat.digitChar k) = some k := by
  have hall : ∀ i : Fin 16, digitValue? (Nat.digitChar i) = some i.val := by decide
  exact hall ⟨k, h⟩

/-- The digits of a base are digits of it. -/
theorem isDigitOf_digitChar {base k : Nat} (hb : base ≤ 16) (h : k < base) : isDigitOf base (Nat.digitChar k) = true := by
  simp [isDigitOf, digitValue?_digitChar (Nat.lt_of_lt_of_le h hb), h]

/-- One more digit multiplies by the base. -/
theorem numberOf_concat (base : Nat) (ds : List Char) (c : Char) :
    numberOf base (ds ++ [c]) = numberOf base ds * base + (digitValue? c).getD 0 := by
  simp [numberOf]

@[simp] theorem length_digits (base k n : Nat) : (digits base k n).length = k := by
  induction k generalizing n with
  | zero => rfl
  | succ k ih => simp [digits, ih]

/-- The digits of a base are digits of it. -/
theorem isDigitOf_digits (base : Nat) (h0 : 0 < base) (hb : base ≤ 16) (k n : Nat) :
    ∀ c ∈ digits base k n, isDigitOf base c = true := by
  induction k generalizing n with
  | zero => simp [digits]
  | succ k ih =>
    intro c hc
    rcases List.mem_append.1 hc with hc | hc
    · exact ih _ c hc
    · rw [List.mem_singleton.1 hc]
      exact isDigitOf_digitChar hb (Nat.mod_lt n h0)

/-- The last digits of a number write its remainder. -/
theorem numberOf_digits (base : Nat) (h0 : 0 < base) (hb : base ≤ 16) (k n : Nat) :
    numberOf base (digits base k n) = n % Nat.pow base k := by
  induction k generalizing n with
  | zero => exact (Nat.mod_one n).symm
  | succ k ih =>
    have hd : digitValue? (Nat.digitChar (n % base)) = some (n % base) :=
      digitValue?_digitChar (Nat.lt_of_lt_of_le (Nat.mod_lt n h0) hb)
    have hpow : Nat.pow base (k + 1) = base * Nat.pow base k := Nat.pow_succ'
    rw [digits, numberOf_concat, ih, hd, Option.getD_some, hpow, Nat.mod_mul, Nat.mul_comm, Nat.add_comm]

/-! ## Bytes written as text -/

/-- The one-letter escapes that are written are those that are read. -/
theorem simpleEscapes_of_letter? {b : UInt8} {esc : List Char} (h : letter? b = some esc) :
    ∃ c, esc = ['\\', c] ∧ simpleEscapes.lookup c = some b := by
  obtain ⟨c, hc, rfl⟩ := Option.map_eq_some_iff.1 h
  refine ⟨c, rfl, ?_⟩
  have hall : ∀ p ∈ letters, simpleEscapes.lookup p.2 = some p.1 := by decide
  obtain ⟨l, r, hl, -⟩ := List.lookup_eq_some_iff.1 hc
  exact hall (b, c) (by rw [hl]; simp)

theorem readLiteral_quote (r : List Char) : readLiteral ('"' :: r) = some ([], r) := by
  rw [readLiteral]
  rfl

/-- An escape is read as one byte, and the literal goes on after it. -/
theorem readLiteral_escape {r rest : List Char} {b : UInt8} (h : readEscape r = some (b, rest)) :
    readLiteral ('\\' :: r) = (readLiteral rest).map (Prod.map (b :: ·) id) := by
  rw [readLiteral]
  simp only [Char.reduceEq, if_false, if_true]
  split
  · rename_i h'
    rw [h] at h'
    cases h'
  · rename_i b' rest' h'
    obtain ⟨rfl, rfl⟩ := Prod.mk.inj (Option.some.inj (h.symm.trans h'))
    rfl

/-- A plain character is read as its byte. -/
theorem readLiteral_plain {c : Char} (h : isPlain c = true) (r : List Char) :
    readLiteral (c :: r) = (readLiteral r).map (Prod.map (UInt8.ofNat c.toNat :: ·) id) := by
  have hq : c ≠ '"' := by rintro rfl; exact absurd h (by decide)
  have hb : c ≠ '\\' := by rintro rfl; exact absurd h (by decide)
  rw [readLiteral]
  simp only [hq, hb, h, if_false, if_true]

/-- Three octal digits are read as one byte, whatever follows them. -/
theorem readEscape_octal (b : UInt8) (r : List Char) : readEscape (digits 8 3 b.toNat ++ r) = some (b, r) := by
  have hlt := b.toNat_lt
  have hall := isDigitOf_digits 8 (by decide) (by decide) 3 b.toNat
  have hnum : numberOf 8 (digits 8 3 b.toNat) = b.toNat % 512 := numberOf_digits 8 (by decide) (by decide) 3 b.toNat
  have hlen := length_digits 8 3 b.toNat
  generalize hds : digits 8 3 b.toNat = ds at hall hnum hlen
  cases ds with
  | nil => simp at hlen
  | cons c ds =>
    -- no octal digit is the letter of a simple escape
    have hc : isDigitOf 8 c = true := hall c (by simp)
    have hs : simpleEscapes.lookup c = none := by
      rw [List.lookup_eq_none_iff]
      intro p hp
      have hp8 : ∀ p ∈ simpleEscapes, isDigitOf 8 p.1 = false := by decide
      rw [bne_iff_ne]
      rintro rfl
      rw [hp8 p hp] at hc
      cases hc
    have htake : ((c :: ds ++ r).takeWhile (isDigitOf 8)).take 3 = c :: ds := by
      rw [List.takeWhile_append_of_pos hall, List.take_left' hlen]
    rw [List.cons_append] at htake ⊢
    simp only [readEscape, hs, hc, if_true, htake, hnum, hlen]
    have hdrop : List.drop 3 (c :: (ds ++ r)) = r := by
      rw [← List.cons_append, List.drop_left' hlen]
    rw [hdrop, byte?, if_pos (by omega), Nat.mod_eq_of_lt (by omega)]
    simp

/-- A printable byte without an escape of its own stands for itself. -/
theorem isPlain_of_isPrintable {b : UInt8} (h : isPrintable b = true) (hn : letter? b = none) :
    isPlain (Char.ofNat b.toNat) = true ∧ UInt8.ofNat (Char.ofNat b.toNat).toNat = b := by
  simp only [isPrintable, decide_eq_true_eq, UInt8.le_iff_toNat_le, UInt8.lt_iff_toNat_lt, UInt8.reduceToNat] at h
  have hv : (Char.ofNat b.toNat).toNat = b.toNat := by
    have hvalid : b.toNat.isValidChar := Or.inl (by omega)
    rw [Char.ofNat, dif_pos hvalid]
    rfl
  have h34 : b.toNat ≠ 34 := by
    intro hb
    rw [show b = 34 from UInt8.toNat_inj.1 hb] at hn
    exact absurd hn (by decide)
  have h92 : b.toNat ≠ 92 := by
    intro hb
    rw [show b = 92 from UInt8.toNat_inj.1 hb] at hn
    exact absurd hn (by decide)
  refine ⟨?_, by rw [hv]; simp⟩
  simp only [isPlain, hv, Bool.and_eq_true, decide_eq_true_eq, bne_iff_ne]
  refine ⟨⟨by omega, ?_⟩, ?_⟩
  · intro hc
    exact h34 (hv ▸ congrArg Char.toNat hc)
  · intro hc
    exact h92 (hv ▸ congrArg Char.toNat hc)

/-- A byte of text is read as that byte, and nothing that follows is drawn into it. -/
theorem readLiteral_textByte (b : UInt8) (r : List Char) :
    readLiteral (textByte b ++ r) = (readLiteral r).map (Prod.map (b :: ·) id) := by
  unfold textByte
  cases hl : letter? b with
  | some esc =>
    obtain ⟨c, rfl, hc⟩ := simpleEscapes_of_letter? hl
    exact readLiteral_escape (by simp [readEscape, hc])
  | none =>
    by_cases hp : isPrintable b = true
    · obtain ⟨hplain, hbyte⟩ := isPlain_of_isPrintable hp hl
      simp only [hp, if_true, List.singleton_append]
      rw [readLiteral_plain hplain, hbyte]
    · simp only [hp, Bool.false_eq_true, if_false, List.cons_append]
      exact readLiteral_escape (readEscape_octal b r)

/-- Text reads back as its bytes, up to the quote that was written after it. -/
theorem readLiteral_text (bs : List UInt8) (r : List Char) :
    readLiteral (bs.flatMap textByte ++ '"' :: r) = some (bs, r) := by
  induction bs with
  | nil => exact readLiteral_quote r
  | cons b bs ih =>
    rw [List.flatMap_cons, List.append_assoc, readLiteral_textByte, ih]
    rfl

/-! ## Raw bytes -/

/-- The two hexadecimal digits of a byte are all the digits there are, if no third one follows. -/
theorem takeWhile_hexDigits (b : UInt8) {r : List Char} (hr : r.takeWhile (isDigitOf 16) = []) :
    (digits 16 2 b.toNat ++ r).takeWhile (isDigitOf 16) = digits 16 2 b.toNat ∧
      (digits 16 2 b.toNat ++ r).dropWhile (isDigitOf 16) = r := by
  have hall := isDigitOf_digits 16 (by decide) (by decide) 2 b.toNat
  rw [List.takeWhile_append_of_pos hall, List.dropWhile_append_of_pos hall, hr, List.append_nil]
  have hsplit := List.takeWhile_append_dropWhile (p := isDigitOf 16) (l := r)
  rw [hr, List.nil_append] at hsplit
  exact ⟨rfl, hsplit⟩

theorem hexDigits_ne_nil (b : UInt8) : digits 16 2 b.toNat ≠ [] := by
  intro h
  have hlen := length_digits 16 2 b.toNat
  simp [h] at hlen

/-- Two hexadecimal digits are read as the byte they were written for. -/
theorem numberOf_hexDigits (b : UInt8) : numberOf 16 (digits 16 2 b.toNat) = b.toNat := by
  have hlt := b.toNat_lt
  have hnum : numberOf 16 (digits 16 2 b.toNat) = b.toNat % 256 := numberOf_digits 16 (by decide) (by decide) 2 b.toNat
  omega

/-- Two hexadecimal digits are read as one byte, if no third one follows. -/
theorem readEscape_hex (b : UInt8) {r : List Char} (hr : r.takeWhile (isDigitOf 16) = []) :
    readEscape ('x' :: digits 16 2 b.toNat ++ r) = some (b, r) := by
  have hlt := b.toNat_lt
  obtain ⟨htake, hdrop⟩ := takeWhile_hexDigits b hr
  have hx : simpleEscapes.lookup 'x' = none := by decide
  have hx8 : isDigitOf 8 'x' = false := by decide
  simp only [List.cons_append, readEscape, hx, hx8, htake, hdrop, numberOf_hexDigits, hexDigits_ne_nil, ne_eq, not_false_eq_true,
    and_self, if_true, Bool.false_eq_true, if_false]
  rw [byte?, if_pos (by omega)]
  simp

/-- Each escape of raw bytes is followed by a backslash or by the closing quote, and neither is a digit. -/
theorem takeWhile_raw (bs : List UInt8) (r : List Char) :
    (bs.flatMap rawByte ++ '"' :: r).takeWhile (isDigitOf 16) = [] := by
  cases bs with
  | nil => rw [List.flatMap_nil, List.nil_append, List.takeWhile_cons_of_neg (by decide)]
  | cons b bs => rw [List.flatMap_cons, rawByte, List.cons_append, List.cons_append, List.takeWhile_cons_of_neg (by decide)]

/-- Raw bytes read back as they are, up to the quote that was written after them. -/
theorem readLiteral_raw (bs : List UInt8) (r : List Char) :
    readLiteral (bs.flatMap rawByte ++ '"' :: r) = some (bs, r) := by
  induction bs with
  | nil => exact readLiteral_quote r
  | cons b bs ih =>
    rw [List.flatMap_cons, List.append_assoc, rawByte, List.cons_append, readLiteral_escape (readEscape_hex b (takeWhile_raw bs r)), ih]
    rfl

/-- The body of a literal reads back as its bytes in either style, up to the closing quote. -/
theorem readLiteral_body (style : Style) (bs : List UInt8) (r : List Char) :
    readLiteral ((body style bs).toList ++ '"' :: r) = some (bs, r) := by
  cases style with
  | text => rw [body, String.toList_ofList]; exact readLiteral_text bs r
  | raw => rw [body, String.toList_ofList]; exact readLiteral_raw bs r

end ExprToCpp.Cpp.Escape
