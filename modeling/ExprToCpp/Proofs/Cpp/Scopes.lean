import Mathlib.Data.List.Chain
import ExprToCpp.Proofs.Cpp.Reading

/-!
# Scopes are no keywords

Before `::` stands the name of a class or a namespace, and after it a name in there; a keyword is neither, also one that names a
type. So a text with a keyword next to `::` is not read at all. Where a qualified name is taken for one word there is no such
condition, and the tokens around it stay as they are. Main statements: `scoped_of_read` and `joinNames_append_cons`.
-/

namespace ExprToCpp.Cpp

namespace Reader

/-- Whether two tokens may stand in a row, as far as `::` and keywords go. -/
def adjoins : Token → Token → Bool
  | .word w, .punct .scope => !keywords.contains w
  | .punct .scope, .word w => !keywords.contains w
  | _, _ => true

/-- No keyword stands next to `::`. -/
def Scoped (ts : List Token) : Prop := ts.IsChain fun x y => adjoins x y = true

instance (ts : List Token) : Decidable (Scoped ts) := inferInstanceAs (Decidable (ts.IsChain _))

/-- Tokens that may stand next to every other. -/
def isApart : Token → Bool
  | .word _ | .punct .scope => false
  | _ => true

/-- Tokens that may follow a keyword. -/
structure Clear (ts : List Token) : Prop where
  named : Scoped ts
  head_ne : ts.head? ≠ some (.punct .scope)

variable {x : Token} {w : String} {ws : List String} {ts us r : List Token}

/-- A token of another kind may stand before every token. -/
theorem adjoins_left (hx : isApart x = true) (y : Token) : adjoins x y = true := by
  unfold isApart at hx
  unfold adjoins
  split <;> simp_all

theorem adjoins_right (hx : isApart x = true) (y : Token) : adjoins y x = true := by
  unfold isApart at hx
  unfold adjoins
  split <;> simp_all

/-- Only `::` has something against its neighbours. -/
theorem adjoins_of_ne_scope {y : Token} (hx : x ≠ .punct .scope) (hy : y ≠ .punct .scope) : adjoins x y = true := by
  unfold adjoins
  split <;> simp_all

/-- Tokens are checked one pair after another. -/
theorem scoped_cons : Scoped (x :: ts) ↔ (∀ y, ts.head? = some y → adjoins x y = true) ∧ Scoped ts := List.isChain_cons

/-- A token of another kind in front may be left out. -/
theorem scoped_cons_of_isApart (hx : isApart x = true) : Scoped (x :: ts) ↔ Scoped ts := by
  rw [scoped_cons]
  exact ⟨fun h => h.2, fun h => ⟨fun y _ => adjoins_left hx y, h⟩⟩

/-- A token of another kind keeps keywords apart from `::`. -/
theorem scoped_append_cons (hx : isApart x = true) : Scoped (ts ++ x :: us) ↔ Scoped ts ∧ Scoped us := by
  rw [Scoped, List.isChain_append, ← Scoped, ← Scoped, scoped_cons_of_isApart hx]
  refine ⟨fun h => ⟨h.1, h.2.1⟩, fun h => ⟨h.1, h.2, fun y _ z hz => ?_⟩⟩
  obtain rfl : x = z := by simpa using hz
  exact adjoins_right hx y

/-- Any token but `::` may come before what may follow a keyword. -/
theorem Clear.cons (hx : x ≠ .punct .scope) (h : Clear r) : Clear (x :: r) := by
  refine ⟨scoped_cons.2 ⟨fun y hy => adjoins_of_ne_scope hx ?_, h.named⟩, by simpa using hx⟩
  rintro rfl
  exact h.head_ne hy

/-- A token of another kind may follow a keyword. -/
theorem clear_of_isApart (hx : isApart x = true) (h : Scoped r) : Clear (x :: r) := by
  refine ⟨(scoped_cons_of_isApart hx).2 h, ?_⟩
  intro heq
  obtain rfl : x = .punct .scope := by simpa using heq
  cases hx

theorem clear_nil : Clear [] := ⟨.nil, nofun⟩

@[simp] theorem scoped_nil : Scoped [] := .nil

@[simp] theorem scoped_singleton (x : Token) : Scoped [x] := .singleton x

/-- A word in front may be left out if it is no scope. -/
theorem scoped_cons_of_head_ne (hx : x ≠ .punct .scope) (hts : ts.head? ≠ some (.punct .scope)) : Scoped (x :: ts) ↔ Scoped ts :=
  ⟨fun h => (scoped_cons.1 h).2, fun h => (Clear.cons hx ⟨h, hts⟩).named⟩

/-! ## What is read has no keyword next to `::` -/

/-- The words of a value name a type too. -/
theorem namesType_of_namesValue (h : namesValue ws = true) : namesType ws = true := by
  unfold namesType
  split
  · next w =>
    have hw : w ∉ keywords := namesValue_iff.1 h w List.mem_cons_self
    simpa using fun hmem : w ∈ reservedWords => hw (List.mem_append_right _ hmem)
  · exact h

/-- A qualified name has no keyword in it. -/
theorem namesValue_of_namesType {v : String} (h : namesType (w :: v :: ws) = true) : namesValue (w :: v :: ws) = true := h

/-- Words are read from a word on. -/
theorem head?_of_readWords (h : readWords ts = some (ws, r)) : ∃ w vs, ws = w :: vs ∧ ts.head? = some (.word w) := by
  revert h
  fun_cases readWords ts with
  | case1 w rest =>
    intro h
    obtain ⟨⟨vs, r'⟩, -, heq⟩ := Option.map_eq_some_iff.1 h
    obtain ⟨rfl, -⟩ := Prod.mk.inj heq
    exact ⟨w, vs, rfl, rfl⟩
  | case2 w rest _ =>
    intro h
    obtain ⟨rfl, -⟩ := Prod.mk.inj (Option.some.inj h)
    exact ⟨w, [], rfl, rfl⟩
  | case3 =>
    intros
    contradiction

/-- The words of a name are no keywords, or stand alone. -/
theorem clear_readWords (h : readWords ts = some (ws, r)) (hname : namesType ws = true) (hr : Clear r) : Clear ts := by
  fun_induction readWords ts generalizing ws with
  | case1 w rest ih =>
    obtain ⟨⟨vs, r'⟩, hrest, heq⟩ := Option.map_eq_some_iff.1 h
    obtain ⟨rfl, rfl⟩ := Prod.mk.inj heq
    obtain ⟨v, vs, rfl, hhead⟩ := head?_of_readWords hrest
    have hwords := namesValue_iff.1 (namesValue_of_namesType hname)
    have hvalue : namesValue (v :: vs) = true := namesValue_iff.2 fun x hx => hwords x (List.mem_cons_of_mem w hx)
    have hclear := ih hrest (namesType_of_namesValue hvalue)
    have hv : v ∉ keywords := hwords v (by simp)
    have hw : w ∉ keywords := hwords w List.mem_cons_self
    have hscope : Scoped (.punct .scope :: rest) := by
      refine scoped_cons.2 ⟨fun y hy => ?_, hclear.named⟩
      obtain rfl := Option.some.inj (hhead.symm.trans hy)
      simpa [adjoins] using hv
    refine ⟨scoped_cons.2 ⟨fun y hy => ?_, hscope⟩, nofun⟩
    obtain rfl : Token.punct .scope = y := by simpa using hy
    simpa [adjoins] using hw
  | case2 w rest _ =>
    obtain ⟨rfl, rfl⟩ := Prod.mk.inj (Option.some.inj h)
    exact hr.cons nofun
  | case3 => cases h

/-- A closing bracket may follow a keyword, and anything may follow it. -/
theorem clear_closeAngle (h : closeAngle ts = some r) (hr : Scoped r) : Clear ts := by
  fun_cases closeAngle ts with
  | case1 rest =>
    obtain rfl := Option.some.inj h
    exact clear_of_isApart rfl hr
  | case2 rest =>
    obtain rfl := Option.some.inj h
    exact clear_of_isApart rfl ((scoped_cons_of_isApart rfl).1 hr)
  | case3 => simp_all [closeAngle]

/-- Stars keep keywords and `::` apart. -/
theorem clear_readStars {t t' : Ty} (h : readStars t ts = (t', r)) (hr : Clear r) : Clear ts := by
  fun_induction readStars t ts with
  | case1 t rest ih => exact (ih h).cons nofun
  | case2 t rest _ =>
    obtain ⟨-, rfl⟩ := Prod.mk.inj h
    exact hr

/-- A type has no keyword next to `::`. -/
theorem clear_readType {t : Ty} (h : readType ts = some (t, r)) (hr : Clear r) : Clear ts := by
  fun_induction readType ts generalizing t r with
  | case2 ts ws hname make rest htemplate _ u rest' hu hwords ih =>
    obtain ⟨after, hclose, hstars⟩ := Option.map_eq_some_iff.1 h
    have hargument := ih hu (clear_closeAngle hclose (clear_readStars hstars hr).named)
    exact clear_readWords hwords hname (hargument.cons nofun)
  | case6 ts ws hname rest _ hwords => exact clear_readWords hwords hname (clear_readStars (Option.some.inj h) hr)
  | _ => cases h

/-- The bracket that closes an argument may stand before `::`. -/
theorem clear_readArgument {t : Ty} (h : readArgument ts = some (t, r)) (hr : Scoped r) : Clear ts := by
  revert h
  fun_cases readArgument ts with
  | case1 rest u rest' hu =>
    intro h
    obtain ⟨after, hclose, heq⟩ := Option.map_eq_some_iff.1 h
    obtain ⟨-, rfl⟩ := Prod.mk.inj heq
    exact (clear_readType hu (clear_closeAngle hclose hr)).cons nofun
  | _ =>
    intros
    contradiction

/-- Nor has a name. -/
theorem clear_readName {t : Tree} (h : readName ts = some (t, r)) (hr : Clear r) : Clear ts := by
  revert h
  fun_cases readName ts with
  | case4 ws rest hwords hname _ u w rest' harg hw =>
    intro h
    obtain ⟨-, rfl⟩ := Prod.mk.inj (Option.some.inj h)
    have hmember : Scoped (.punct .scope :: .word w :: rest') := by
      refine scoped_cons.2 ⟨fun y hy => ?_, (hr.cons (x := .word w) nofun).named⟩
      obtain rfl : Token.word w = y := by simpa using hy
      simpa [adjoins] using hw
    exact clear_readWords hwords (namesType_of_namesValue hname) (clear_readArgument harg hmember)
  | case5 ws rest hwords hname _ u rest' _ harg =>
    intro h
    obtain ⟨-, rfl⟩ := Prod.mk.inj (Option.some.inj h)
    exact clear_readWords hwords (namesType_of_namesValue hname) (clear_readArgument harg hr.named)
  | case6 ws rest hwords hname _ =>
    intro h
    obtain ⟨-, rfl⟩ := Prod.mk.inj (Option.some.inj h)
    exact clear_readWords hwords (namesType_of_namesValue hname) hr
  | _ =>
    intros
    contradiction

/-- Each reader takes tokens without a keyword next to `::`, and leaves none behind that it would stand next to. -/
structure ReadsClear (ts : List Token) : Prop where
  expr : ∀ {t r}, readExpr ts = some (t, r) → Clear r → Clear ts
  binary : ∀ {least t r}, readBinary least ts = some (t, r) → Clear r → Clear ts
  operators : ∀ {least l t r}, readOperators least l ts = some (t, r) → Clear r → Clear ts
  unary : ∀ {t r}, readUnary ts = some (t, r) → Clear r → Clear ts
  accesses : ∀ {e t r}, readPostfix e ts = some (t, r) → Clear r → Clear ts
  list : ∀ {close items r}, close ≠ .scope → readList close ts = some (items, r) → Clear r → Clear ts
  items : ∀ {close items r}, close ≠ .scope → readItems close ts = some (items, r) → Clear r → Clear ts

section

variable (ih : ∀ us : List Token, us.length < ts.length → ReadsClear us) {t : Tree}

include ih

/-- Nor has a primary expression. -/
theorem clear_readPrimary (h : readPrimary ts = some (t, r)) (hr : Clear r) : Clear ts := by
  revert h ih
  fun_cases readPrimary ts with
  | case1 n rest =>
    intro _ h
    obtain ⟨u, -, heq⟩ := Option.map_eq_some_iff.1 h
    obtain ⟨-, rfl⟩ := Prod.mk.inj heq
    exact hr.cons nofun
  | case2 bytes rest | case5 rest | case6 rest =>
    intro _ h
    obtain ⟨-, rfl⟩ := Prod.mk.inj (Option.some.inj h)
    exact hr.cons nofun
  | case3 rest e rest' he =>
    intro ih h
    obtain ⟨-, rfl⟩ := Prod.mk.inj (Option.some.inj h)
    exact ((ih rest (Nat.lt_succ_self _)).expr he (hr.cons nofun)).cons nofun
  | case7 rest u rest' harg hlen e rest'' he =>
    intro ih h
    obtain ⟨-, rfl⟩ := Prod.mk.inj (Option.some.inj h)
    have hvalue := ((ih rest' (Nat.lt_succ_of_lt hlen)).expr he (hr.cons nofun)).cons (x := .punct .lparen) nofun
    exact (clear_readArgument harg hvalue.named).cons nofun
  | case11 w rest => exact fun _ h => clear_readName h hr
  | _ =>
    intros
    contradiction

theorem clear_readPostfix {e : Tree} (h : readPostfix e ts = some (t, r)) (hr : Clear r) : Clear ts := by
  revert h ih
  fun_cases readPostfix e ts with
  | case1 rest args rest' hargs hlen =>
    intro ih h
    have hrest := (ih rest' (Nat.lt_succ_of_lt hlen)).accesses h hr
    exact ((ih rest (Nat.lt_succ_self _)).list (by decide) hargs hrest).cons nofun
  | case4 rest i rest' hi hlen =>
    intro ih h
    have hrest := (ih rest' (Nat.lt_succ_of_lt hlen)).accesses h hr
    exact ((ih rest (Nat.lt_succ_self _)).expr hi (hrest.cons nofun)).cons nofun
  | case8 m rest | case10 m rest =>
    intro ih h
    have hrest := (ih rest (Nat.lt_succ_of_lt (Nat.lt_succ_self _))).accesses h hr
    exact (hrest.cons (x := .word m) nofun).cons nofun
  | case11 =>
    intro _ h
    obtain ⟨-, rfl⟩ := Prod.mk.inj (Option.some.inj h)
    exact hr
  | _ =>
    intros
    contradiction

theorem clear_readAccess (h : readAccess ts = some (t, r)) (hr : Clear r) : Clear ts := by
  rw [readAccess] at h
  split at h
  · next e rest he =>
    split at h
    · next hlen => exact clear_readPrimary ih he ((ih rest hlen).accesses h hr)
    · cases h
  · cases h

theorem clear_readUnary (h : readUnary ts = some (t, r)) (hr : Clear r) : Clear ts := by
  revert h ih
  fun_cases readUnary ts with
  | case1 rest u rest' hu hlen =>
    intro ih h
    obtain ⟨⟨items, rest''⟩, hitems, heq⟩ := Option.map_eq_some_iff.1 h
    obtain ⟨-, rfl⟩ := Prod.mk.inj heq
    have hlist := (ih rest' (Nat.lt_succ_of_lt hlen)).list (by decide) hitems hr
    exact (clear_readType hu (hlist.cons nofun)).cons nofun
  | case5 p rest op hop =>
    intro ih h
    obtain ⟨⟨e, rest'⟩, he, heq⟩ := Option.map_eq_some_iff.1 h
    obtain ⟨-, rfl⟩ := Prod.mk.inj heq
    refine ((ih rest (Nat.lt_succ_self _)).unary he hr).cons ?_
    rintro ⟨⟩
    cases hop
  | case4 | case6 | case7 => exact fun ih h => clear_readAccess ih h hr
  | _ =>
    intros
    contradiction

theorem clear_readOperators {least : Nat} {l : Tree} (h : readOperators least l ts = some (t, r)) (hr : Clear r) : Clear ts := by
  revert h ih
  fun_cases readOperators least l ts with
  | case1 op rest hop right rest' hright hlen =>
    intro ih h
    have hrest := (ih rest' (Nat.lt_succ_of_lt hlen)).operators h hr
    exact ((ih rest (Nat.lt_succ_self _)).binary hright hrest).cons nofun
  | case4 | case5 =>
    intro _ h
    obtain ⟨-, rfl⟩ := Prod.mk.inj (Option.some.inj h)
    exact hr
  | _ =>
    intros
    contradiction

theorem clear_readBinary {least : Nat} (h : readBinary least ts = some (t, r)) (hr : Clear r) : Clear ts := by
  rw [readBinary] at h
  split at h
  · next l rest hl =>
    split at h
    · next hlen => exact clear_readUnary ih hl ((ih rest hlen).operators h hr)
    · cases h
  · cases h

/-- No expression has a keyword next to `::`. -/
theorem clear_readExpr (h : readExpr ts = some (t, r)) (hr : Clear r) : Clear ts := by
  revert h ih
  fun_cases readExpr ts with
  | case1 c rest hc hlen u rest' hu hlen' =>
    intro ih h
    obtain ⟨⟨f, rest''⟩, hf, heq⟩ := Option.map_eq_some_iff.1 h
    obtain ⟨-, rfl⟩ := Prod.mk.inj heq
    have hfalse := (ih rest' hlen').expr hf hr
    have htrue := (ih rest hlen).expr hu (hfalse.cons nofun)
    exact clear_readBinary ih hc (htrue.cons nofun)
  | case5 => exact fun ih h => clear_readBinary ih h hr
  | _ =>
    intros
    contradiction

theorem clear_readItems {close : Punct} {items : List Tree} (hclose : close ≠ .scope) (h : readItems close ts = some (items, r))
    (hr : Clear r) : Clear ts := by
  revert h ih
  fun_cases readItems close ts with
  | case1 e rest he =>
    intro ih h
    obtain ⟨-, rfl⟩ := Prod.mk.inj (Option.some.inj h)
    exact clear_readExpr ih he (hr.cons (by simpa using hclose))
  | case2 e p rest he _ hcomma =>
    intro ih h
    obtain ⟨⟨es, rest'⟩, hes, heq⟩ := Option.map_eq_some_iff.1 h
    obtain ⟨-, rfl⟩ := Prod.mk.inj heq
    obtain ⟨rfl, hlen⟩ := hcomma
    exact clear_readExpr ih he (((ih rest hlen).items hclose hes hr).cons nofun)
  | _ =>
    intros
    contradiction

theorem clear_readList {close : Punct} {items : List Tree} (hclose : close ≠ .scope) (h : readList close ts = some (items, r))
    (hr : Clear r) : Clear ts := by
  rw [readList] at h
  split at h
  · next hhead =>
    obtain ⟨-, rfl⟩ := Prod.mk.inj (Option.some.inj h)
    cases ts with
    | nil => cases hhead
    | cons x ts =>
      obtain rfl : x = .punct close := by simpa using hhead
      exact hr.cons (by simpa using hclose)
  · exact clear_readItems ih hclose h hr

end

/-- By induction on the number of tokens, as every reader goes on with fewer of them. -/
theorem readsClear (ts : List Token) : ReadsClear ts := by
  induction hlen : ts.length using Nat.strong_induction_on generalizing ts with
  | _ n ihn =>
    have ih : ∀ us : List Token, us.length < ts.length → ReadsClear us := fun us hus => ihn us.length (hlen ▸ hus) us rfl
    exact {
      expr := clear_readExpr ih
      binary := clear_readBinary ih
      operators := clear_readOperators ih
      unary := clear_readUnary ih
      accesses := clear_readPostfix ih
      list := clear_readList ih
      items := clear_readItems ih }

/-! ## Qualified names as one word -/

/-- Only a word before `::` is joined to what follows. -/
theorem joinNames_cons (h : ∀ w, x = .word w → ts.head? ≠ some (.punct .scope)) : joinNames (x :: ts) = x :: joinNames ts := by
  rw [joinNames]
  rintro w r rfl rfl
  exact h w rfl rfl

theorem joinNames_cons_of_isApart (hx : isApart x = true) : joinNames (x :: ts) = x :: joinNames ts := by
  refine joinNames_cons fun w hw => ?_
  rw [hw] at hx
  cases hx

/-- A token of another kind keeps names apart. -/
theorem joinNames_append_cons (hx : isApart x = true) (ts us : List Token) :
    joinNames (ts ++ x :: us) = joinNames ts ++ x :: joinNames us := by
  fun_induction joinNames ts with
  | case1 => exact joinNames_cons_of_isApart hx
  | case2 w rest v names hjoined ih =>
    rw [hjoined] at ih
    rw [List.cons_append, List.cons_append, joinNames, ih]
    rfl
  | case3 w rest hword ih =>
    rw [List.cons_append, List.cons_append, joinNames, ih]
    split
    · next v names heq =>
      cases hrest : joinNames rest with
      | nil =>
        rw [hrest, List.nil_append] at heq
        obtain ⟨rfl, -⟩ := List.cons.inj heq
        cases hx
      | cons y ys =>
        rw [hrest, List.cons_append] at heq
        obtain ⟨rfl, -⟩ := List.cons.inj heq
        exact (hword v ys hrest).elim
    · rfl
  | case4 y rest hword ih =>
    rw [List.cons_append, joinNames_cons, ih]
    · rfl
    · rintro w rfl hhead
      cases rest with
      | nil =>
        obtain rfl : x = .punct .scope := by simpa using hhead
        cases hx
      | cons z rest =>
        obtain rfl : z = .punct .scope := by simpa using hhead
        exact hword w rest rfl rfl

theorem joinWords_singleton (w : String) : joinWords [w] = w := String.intercalate_singleton

/-- A qualified name is its first word, `::` and the rest. -/
theorem joinWords_cons_cons (w v : String) (ws : List String) : joinWords (w :: v :: ws) = w ++ "::" ++ joinWords (v :: ws) :=
  String.intercalate_cons_cons

/-- The tokens of a qualified name are one word. -/
theorem joinNames_wordTokens (hws : ws ≠ []) : joinNames (wordTokens ws) = [.word (joinWords ws)] := by
  induction ws with
  | nil => exact absurd rfl hws
  | cons w ws ih =>
    cases ws with
    | nil => rw [wordTokens, joinWords_singleton, joinNames_cons (by simp), joinNames]
    | cons v ws => rw [wordTokens, joinNames, ih (List.cons_ne_nil v ws), joinWords_cons_cons]

/-- Tokens are an expression if one is read from them and none is left. -/
theorem readAll_eq_some_iff {t : Tree} : readAll ts = some t ↔ readExpr ts = some (t, []) := by
  rw [readAll, Option.bind_eq_bind]
  constructor
  · intro h
    obtain ⟨⟨u, r⟩, hread, h⟩ := Option.bind_eq_some_iff.1 h
    cases r with
    | cons x r => cases h
    | nil =>
      obtain rfl : u = t := Option.some.inj h
      exact hread
  · intro h
    rw [h]
    rfl

end Reader

open Reader

variable {text : String} {ts : List Token} {t : Tree}

/-- A text is read by its tokens. -/
theorem read_eq_some_iff (hlex : Lexer.lex text.toList = some ts) : read text = some t ↔ readExpr ts = some (t, []) := by
  rw [read, hlex, Option.bind_eq_bind, Option.bind_some, readAll_eq_some_iff]

/-- With every qualified name as one word it is read by its joined tokens. -/
theorem readJoined_eq_some_iff (hlex : Lexer.lex text.toList = some ts) :
    readJoined text = some t ↔ readExpr (joinNames ts) = some (t, []) := by
  rw [readJoined, hlex, Option.bind_eq_bind, Option.bind_some, readAll_eq_some_iff]

/-- A text that is read has no keyword next to `::`. -/
theorem scoped_of_read (hlex : Lexer.lex text.toList = some ts) (h : read text = some t) : Scoped ts :=
  ((readsClear ts).expr ((read_eq_some_iff hlex).1 h) clear_nil).named

end ExprToCpp.Cpp
