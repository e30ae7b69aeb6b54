import ExprToCpp.Proofs.Cpp.Grammar

/-!
# Reading each form of expression

`Reads rank ts t` says that tokens are read as a tree wherever the grammar has room for an operand that binds as tightly as
`rank`: in the place of any expression, of an operand, of the operand of a prefix operator, of what is accessed. There is one
statement for each form of expression, about tokens that its parts are read from; what may follow is always part of it.
-/

namespace ExprToCpp.Cpp.Reader

/-! ## What follows an expression -/

/-- Whether a token after an operand of a rank leaves the operand whole: an operator that binds tighter would take it away, and
an access would extend it. -/
def leaves (rank : Nat) : Token → Bool
  | .punct (.op op) => decide (op.level.rank ≤ rank)
  | .punct .lparen | .punct .lbracket | .punct .arrow | .punct .dot | .punct .scope => false
  | _ => true

/-- Whether an expression ends before a token, whatever it is. -/
def ends : Token → Bool
  | .punct .rparen | .punct .rbracket | .punct .rbrace | .punct .comma | .punct .colon => true
  | _ => false

/-- What follows an operand of a rank leaves it whole. -/
def Leaves (rank : Nat) (r : List Token) : Prop := ∀ t, r.head? = some t → leaves rank t = true

/-- Nothing follows, or what ends every expression. -/
def Ends (r : List Token) : Prop := ∀ t, r.head? = some t → ends t = true

theorem ends_cons {x : Token} (hx : ends x = true) (r : List Token) : Ends (x :: r) := by
  intro t ht
  obtain rfl : x = t := by simpa using ht
  exact hx

/-- What ends every expression leaves it whole. -/
theorem Ends.leaves {r : List Token} (h : Ends r) (rank : Nat) : Leaves rank r := by
  intro t ht
  have hend := h t ht
  unfold ends at hend
  split at hend <;> trivial

/-- What leaves a loose operand whole leaves a tight one whole. -/
theorem Leaves.mono {k l : Nat} {r : List Token} (hkl : k ≤ l) (h : Leaves k r) : Leaves l r := by
  intro t ht
  have hleaves := h t ht
  unfold Reader.leaves at hleaves ⊢
  split at hleaves
  · rw [decide_eq_true_eq] at hleaves ⊢
    omega
  all_goals trivial

/-- The operators between two operands bind looser than the prefix operators. -/
theorem rank_lt_unary (op : BinaryOp) : op.level.rank < BindingLevel.unary.rank := by
  cases op <;> decide

/-- No operator between two operands binds looser than the logical or. -/
theorem logicalOr_le_rank (op : BinaryOp) : BindingLevel.logicalOr.rank ≤ op.level.rank := by
  cases op <;> decide

/-- An operator leaves an operand whole that binds as tightly. -/
theorem leaves_op {op : BinaryOp} {rank : Nat} (h : op.level.rank ≤ rank) (r : List Token) :
    Leaves rank (.punct (.op op) :: r) := by
  intro t ht
  obtain rfl : Token.punct (.op op) = t := by simpa using ht
  simpa [Reader.leaves] using h

/-- Accesses stop where none follows. -/
theorem readPostfix_stop {rank : Nat} {r : List Token} (h : Leaves rank r) (e : Tree) : readPostfix e r = some (e, r) := by
  rw [readPostfix.eq_def]
  split
  · exact absurd (h _ rfl) Bool.false_ne_true
  · exact absurd (h _ rfl) Bool.false_ne_true
  · exact absurd (h _ rfl) Bool.false_ne_true
  · exact absurd (h _ rfl) Bool.false_ne_true
  · rfl

/-- Operators of a least rank stop at one that binds looser. -/
theorem readOperators_stop {least : Nat} {r : List Token}
    (h : ∀ op r', r = .punct (.op op) :: r' → op.level.rank < least) (l : Tree) : readOperators least l r = some (l, r) := by
  rw [readOperators.eq_def]
  split
  · next op r' =>
    have hlt := h op r' rfl
    rw [if_neg (by omega)]
  · rfl

theorem length_lt_append {ts : List Token} (hne : ts ≠ []) (r : List Token) : r.length < (ts ++ r).length := by
  have hpos := List.length_pos_iff.2 hne
  rw [List.length_append]
  omega

/-! ## Reading at a rank -/

/-- Tokens are read as a tree in every place that has room for their rank. -/
structure Reads (rank : Nat) (ts : List Token) (t : Tree) : Prop where
  ne_nil : ts ≠ []
  expr : ∀ r, Ends r → readExpr (ts ++ r) = some (t, r)
  binary : BindingLevel.logicalOr.rank ≤ rank → ∀ least r, least ≤ rank → Leaves rank r →
    readBinary least (ts ++ r) = readOperators least t r
  unary : BindingLevel.unary.rank ≤ rank → ∀ r, Leaves rank r → readUnary (ts ++ r) = some (t, r)
  access : BindingLevel.access.rank ≤ rank → ∀ r, r.head? ≠ some (.punct .scope) → readUnary (ts ++ r) = readPostfix t r

namespace Reads

variable {k l : Nat} {ts us : List Token} {t u : Tree}

theorem mono (hkl : k ≤ l) (h : Reads l ts t) : Reads k ts t where
  ne_nil := h.ne_nil
  expr := h.expr
  binary := fun hk least r hleast hr => h.binary (by omega) least r (by omega) (hr.mono hkl)
  unary := fun hk r hr => h.unary (by omega) r (hr.mono hkl)
  access := fun hk r hr => h.access (by omega) r hr

/-- Operands between operators are an expression where it ends. -/
theorem expr_of_binary {r : List Token} (hr : Ends r) (h : readBinary 0 (ts ++ r) = readOperators 0 t r) :
    readExpr (ts ++ r) = some (t, r) := by
  have hop : ∀ op r', r = .punct (.op op) :: r' → op.level.rank < 0 := by
    intro op r' heq
    have hend := hr (.punct (.op op)) (by rw [heq]; rfl)
    cases hend
  rw [readExpr, h, readOperators_stop hop]
  split
  · next heq =>
    obtain ⟨rfl, rfl⟩ := Prod.mk.inj (Option.some.inj heq)
    exact absurd (hr _ rfl) (by decide)
  · rfl

/-- The operand of a prefix operator is an operand of every operator. -/
theorem binary_of_unary {r : List Token} (hne : ts ≠ []) (h : readUnary (ts ++ r) = some (t, r)) (least : Nat) :
    readBinary least (ts ++ r) = readOperators least t r := by
  rw [readBinary, h]
  simp only [length_lt_append hne r, if_true]

/-- What is read as operands between operators of a rank. -/
theorem of_binary (hne : ts ≠ []) (hk : k < BindingLevel.unary.rank)
    (h : ∀ least r, least ≤ k → Leaves k r → readBinary least (ts ++ r) = readOperators least t r) : Reads k ts t where
  ne_nil := hne
  expr := fun r hr => expr_of_binary hr (h 0 r (Nat.zero_le k) (hr.leaves k))
  binary := fun _ least r hleast hr => h least r hleast hr
  unary := fun hle => by omega
  access := fun hle => by
    have hlt : BindingLevel.unary.rank < BindingLevel.access.rank := by decide
    omega

/-- What is read as the operand of a prefix operator. -/
theorem of_unary (hne : ts ≠ []) (h : ∀ r, Leaves BindingLevel.unary.rank r → readUnary (ts ++ r) = some (t, r)) :
    Reads BindingLevel.unary.rank ts t where
  ne_nil := hne
  expr := fun r hr => expr_of_binary hr (binary_of_unary hne (h r (hr.leaves _)) 0)
  binary := fun _ least r _ hr => binary_of_unary hne (h r hr) least
  unary := fun _ => h
  access := fun hle => absurd hle (by decide)

/-- What is read with whatever is accessed from it. -/
theorem of_access (hne : ts ≠ []) (h : ∀ r, r.head? ≠ some (.punct .scope) → readUnary (ts ++ r) = readPostfix t r) :
    Reads k ts t := by
  have hunary : ∀ (rank : Nat) (r : List Token), Leaves rank r → readUnary (ts ++ r) = some (t, r) := by
    intro rank r hr
    have hscope : r.head? ≠ some (.punct .scope) := fun heq => absurd (hr _ heq) Bool.false_ne_true
    rw [h r hscope, readPostfix_stop hr]
  exact {
    ne_nil := hne
    expr := fun r hr => expr_of_binary hr (binary_of_unary hne (hunary 0 r (hr.leaves 0)) 0)
    binary := fun _ least r _ hr => binary_of_unary hne (hunary k r hr) least
    unary := fun _ r hr => hunary k r hr
    access := fun _ => h }

/-! ## Primary expressions -/

/-- Whether a token is neither a prefix operator nor `new`. -/
def startsAccess : Token → Bool
  | .word w => w != "new"
  | .punct p => (prefixOp? p).isNone
  | _ => true

/-- What begins with no prefix operator is read as an access. -/
theorem readUnary_eq_readAccess {x : Token} (hx : startsAccess x = true) (r : List Token) :
    readUnary (x :: r) = readAccess (x :: r) := by
  cases x with
  | word w =>
    have hw : w ≠ "new" := by simpa [startsAccess] using hx
    rw [readUnary, if_neg hw]
  | punct p =>
    have hp : prefixOp? p = none := by simpa [startsAccess] using hx
    rw [readUnary, hp]
  | number n =>
    rw [readUnary]
    · intro _ _ h
      cases h
    · intro _ _ h
      cases h
  | string bs =>
    rw [readUnary]
    · intro _ _ h
      cases h
    · intro _ _ h
      cases h

/-- What is read as a primary expression. -/
theorem of_primary {x : Token} (hx : startsAccess x = true)
    (h : ∀ r, r.head? ≠ some (.punct .scope) → readPrimary (x :: (ts ++ r)) = some (t, r)) : Reads k (x :: ts) t := by
  apply of_access (List.cons_ne_nil x ts)
  intro r hr
  rw [List.cons_append, readUnary_eq_readAccess hx, readAccess, h r hr]
  have hlen : r.length < (x :: (ts ++ r)).length := length_lt_append (List.cons_ne_nil x ts) r
  simp only [hlen, if_true]

/-- A number is read wherever an expression is. -/
theorem number {n : String} (h : readNumber n.toList = some t) : Reads k [.number n] t := by
  apply of_primary rfl
  intro r _
  rw [List.nil_append, readPrimary, h, Option.map_some]

theorem string (bytes : List UInt8) : Reads k [.string bytes] (.string bytes) := by
  apply of_primary rfl
  intro r _
  rw [List.nil_append, readPrimary]

theorem bool (b : Bool) : Reads k [.word (if b then "true" else "false")] (.bool b) := by
  cases b with
  | true =>
    apply of_primary (by decide)
    intro r _
    rw [List.nil_append, readPrimary, if_pos rfl, if_pos rfl]
  | false =>
    apply of_primary (by decide)
    intro r _
    rw [List.nil_append, readPrimary, if_neg (by decide), if_pos (by decide)]

/-- Parentheses only group. -/
theorem paren (h : Reads k ts t) : Reads l (.punct .lparen :: (ts ++ [.punct .rparen])) t := by
  apply of_primary rfl
  intro r _
  rw [List.append_assoc, List.singleton_append, readPrimary, h.expr _ (ends_cons rfl r)]

/-! ## Names and templates -/

end Reads

/-- The tokens of a qualified name. -/
def wordTokens : List String → List Token
  | [] => []
  | [w] => [.word w]
  | w :: v :: ws => .word w :: .punct .scope :: wordTokens (v :: ws)

/-- The tokens of a qualified name are read as its words, up to what is no `::`. -/
theorem readWords_wordTokens {ws : List String} {r : List Token} (hws : ws ≠ []) (hr : r.head? ≠ some (.punct .scope)) :
    readWords (wordTokens ws ++ r) = some (ws, r) := by
  induction ws with
  | nil => exact absurd rfl hws
  | cons w ws ih =>
    cases ws with
    | nil =>
      rw [wordTokens, List.singleton_append, readWords]
      rintro r' rfl
      exact hr rfl
    | cons v ws =>
      rw [wordTokens, List.cons_append, List.cons_append, readWords, ih (List.cons_ne_nil v ws)]
      rfl

theorem wordTokens_cons (w : String) (ws : List String) : ∃ ts, wordTokens (w :: ws) = .word w :: ts := by
  cases ws with
  | nil => exact ⟨[], rfl⟩
  | cons v ws => exact ⟨.punct .scope :: wordTokens (v :: ws), rfl⟩

/-- A word that is no keyword, apart from those that name types, begins no form but a name. -/
theorem readPrimary_word {w : String} (hw : w ∉ reservedWords) (r : List Token) :
    readPrimary (.word w :: r) = readName (.word w :: r) := by
  have htrue : w ≠ "true" := fun h => hw (h ▸ by decide)
  have hfalse : w ≠ "false" := fun h => hw (h ▸ by decide)
  have hcast : w ≠ "static_cast" := fun h => hw (h ▸ by decide)
  rw [readPrimary, if_neg htrue, if_neg hfalse, if_neg hcast]

/-- No keyword is a word of the name of a value. -/
theorem namesValue_iff {ws : List String} : namesValue ws = true ↔ ∀ w ∈ ws, w ∉ keywords := by
  simp [namesValue]

/-- The first word of such a name begins no other form. -/
theorem head_not_reserved {w : String} {ws : List String} (h : namesValue (w :: ws) = true) : w ∉ reservedWords :=
  fun hmem => namesValue_iff.1 h w List.mem_cons_self (List.mem_append_right _ hmem)

namespace Reads

variable {k l : Nat} {ts us vs : List Token} {t u v : Tree} {ty : Ty}

/-- A form that begins with a qualified name is read by `readName`. -/
theorem of_name {w : String} {ws : List String} (hname : namesValue (w :: ws) = true)
    (h : ∀ r, r.head? ≠ some (.punct .scope) → readName (wordTokens (w :: ws) ++ ts ++ r) = some (t, r)) :
    Reads k (wordTokens (w :: ws) ++ ts) t := by
  have hw := head_not_reserved hname
  obtain ⟨us, hus⟩ := wordTokens_cons w ws
  rw [hus, List.cons_append]
  apply of_primary
  · have hnew : w ≠ "new" := fun heq => hw (heq ▸ by decide)
    simpa [startsAccess] using hnew
  · intro r hr
    have hread := h r hr
    rw [hus, List.cons_append, List.cons_append] at hread
    rw [readPrimary_word hw, hread]

/-- A name that is no template is read as it is. -/
theorem name {ws : List String} (hws : ws ≠ []) (hname : namesValue ws = true) (htemplate : joinWords ws ∉ callableTemplates) :
    Reads k (wordTokens ws) (.name (joinWords ws)) := by
  cases ws with
  | nil => exact absurd rfl hws
  | cons w ws =>
    rw [← List.append_nil (wordTokens (w :: ws))]
    apply of_name hname
    intro r hr
    rw [List.append_nil, readName, readWords_wordTokens hws hr]
    simp only [List.contains_iff_mem, htemplate, hname, if_true, if_false]

/-- A template with its argument. -/
theorem template {w : String} {ws : List String} (hname : namesValue (w :: ws) = true)
    (htemplate : joinWords (w :: ws) ∈ callableTemplates)
    (harg : ∀ r, readArgument (.punct (.op .lt) :: (us ++ r)) = some (ty, r)) :
    Reads k (wordTokens (w :: ws) ++ .punct (.op .lt) :: us) (.template (joinWords (w :: ws)) ty) := by
  apply of_name hname
  intro r hr
  rw [List.append_assoc, readName, readWords_wordTokens (List.cons_ne_nil w ws) (by simp), List.cons_append]
  simp only [hname, List.contains_iff_mem, htemplate, if_true, harg]
  split
  · next heq => cases heq
  · next heq =>
    obtain ⟨-, rfl⟩ := Prod.mk.inj (Option.some.inj heq)
    exact absurd rfl hr
  · next heq =>
    obtain ⟨rfl, rfl⟩ := Prod.mk.inj (Option.some.inj heq)
    rfl

/-- A member of a template with its argument. -/
theorem templateMember {w m : String} {ws : List String} (hname : namesValue (w :: ws) = true)
    (htemplate : joinWords (w :: ws) ∈ callableTemplates) (hm : m ∉ keywords)
    (harg : ∀ r, readArgument (.punct (.op .lt) :: (us ++ r)) = some (ty, r)) :
    Reads k (wordTokens (w :: ws) ++ .punct (.op .lt) :: (us ++ [.punct .scope, .word m]))
      (.name (joinWords (w :: ws) ++ "<" ++ ty.render ++ ">::" ++ m)) := by
  apply of_name hname
  intro r _
  rw [List.append_assoc, readName, readWords_wordTokens (List.cons_ne_nil w ws) (by simp), List.cons_append,
    List.append_assoc]
  simp only [hname, List.contains_iff_mem, htemplate, if_true, harg, List.cons_append, List.nil_append, hm, if_false]

/-! ## Accesses and casts -/

/-- A call is read after what is called, up to its closing parenthesis. -/
theorem call {args : List Tree} (hf : Reads BindingLevel.access.rank ts t)
    (hargs : ∀ r, readList .rparen (us ++ .punct .rparen :: r) = some (args, r)) :
    Reads k (ts ++ .punct .lparen :: (us ++ [.punct .rparen])) (.call t args) := by
  apply of_access (by simp)
  intro r _
  have hlen : r.length < (us ++ .punct .rparen :: r).length := by
    rw [List.length_append, List.length_cons]
    omega
  rw [List.append_assoc, List.cons_append, List.append_assoc, List.singleton_append, hf.access (Nat.le_refl _) _ (by simp),
    readPostfix, hargs]
  simp only [hlen, if_true]

/-- A member of what a pointer points to is read after the pointer. -/
theorem arrow {m : String} (h : Reads BindingLevel.access.rank ts t) (hm : m ∉ keywords) :
    Reads k (ts ++ [.punct .arrow, .word m]) (.arrow t m) := by
  apply of_access (by simp)
  intro r _
  rw [List.append_assoc, h.access (Nat.le_refl _) _ (by simp), List.cons_append, List.singleton_append, readPostfix,
    if_neg (by simpa using hm)]

/-- A member of an object is read after the object. -/
theorem dot {m : String} (h : Reads BindingLevel.access.rank ts t) (hm : m ∉ keywords) :
    Reads k (ts ++ [.punct .dot, .word m]) (.dot t m) := by
  apply of_access (by simp)
  intro r _
  rw [List.append_assoc, h.access (Nat.le_refl _) _ (by simp), List.cons_append, List.singleton_append, readPostfix,
    if_neg (by simpa using hm)]

/-- An index is read after what is indexed, up to its closing bracket. -/
theorem index (h : Reads BindingLevel.access.rank ts t) (hi : Reads l us u) :
    Reads k (ts ++ .punct .lbracket :: (us ++ [.punct .rbracket])) (.index t u) := by
  apply of_access (by simp)
  intro r _
  have hlen : r.length < (us ++ .punct .rbracket :: r).length := by
    rw [List.length_append, List.length_cons]
    omega
  rw [List.append_assoc, List.cons_append, List.append_assoc, List.singleton_append, h.access (Nat.le_refl _) _ (by simp),
    readPostfix, hi.expr _ (ends_cons rfl r)]
  simp only [hlen, if_true]

/-- A cast is read with its type and its operand in parentheses. -/
theorem staticCast (harg : ∀ r, readArgument (.punct (.op .lt) :: (us ++ r)) = some (ty, r)) (h : Reads l ts t) :
    Reads k (.word "static_cast" :: .punct (.op .lt) :: (us ++ .punct .lparen :: (ts ++ [.punct .rparen])))
      (.staticCast ty t) := by
  apply of_primary (by decide)
  intro r _
  have hlen : (ts ++ .punct .rparen :: r).length <
      (Token.punct (.op .lt) :: (us ++ .punct .lparen :: (ts ++ .punct .rparen :: r))).length := by
    simp only [List.length_append, List.length_cons]
    omega
  rw [List.cons_append, List.append_assoc, List.cons_append, List.append_assoc, List.singleton_append, readPrimary,
    if_neg (by decide), if_neg (by decide), if_pos rfl, harg]
  have hvalue : readExpr (ts ++ .punct .rparen :: r) = some (t, .punct .rparen :: r) := h.expr _ (ends_cons rfl r)
  simp only [hlen, if_true, hvalue]

/-! ## Operators -/

/-- A new object is read with its type and its items in braces. -/
theorem new {items : List Tree} (hty : ∀ r, readType (us ++ .punct .lbrace :: r) = some (ty, .punct .lbrace :: r))
    (hitems : ∀ r, readList .rbrace (vs ++ .punct .rbrace :: r) = some (items, r)) :
    Reads BindingLevel.unary.rank (.word "new" :: (us ++ .punct .lbrace :: (vs ++ [.punct .rbrace]))) (.new ty items) := by
  apply of_unary (by simp)
  intro r _
  have hlen : (vs ++ .punct .rbrace :: r).length < (us ++ .punct .lbrace :: (vs ++ .punct .rbrace :: r)).length := by
    simp only [List.length_append, List.length_cons]
    omega
  rw [List.cons_append, List.append_assoc, List.cons_append, List.append_assoc, List.singleton_append, readUnary, if_pos rfl, hty]
  simp only [hlen, if_true, hitems, Option.map_some]

/-- A prefix operator is read before an operand that binds as tightly. -/
theorem prefixed {p : Punct} {op : PrefixOp} (hop : prefixOp? p = some op) (h : Reads BindingLevel.unary.rank ts t) :
    Reads BindingLevel.unary.rank (.punct p :: ts) (.unary op t) := by
  apply of_unary (by simp)
  intro r hr
  rw [List.cons_append, readUnary, hop]
  simp only [h.unary (Nat.le_refl _) r hr, Option.map_some]

/-- Operators between two operands are left-associative: the left operand may be of the operator's own rank, the right one
binds tighter. -/
theorem between {op : BinaryOp} (hl : Reads op.level.rank ts t) (hr : Reads (op.level.rank + 1) us u) :
    Reads op.level.rank (ts ++ .punct (.op op) :: us) (.binary op t u) := by
  have hor := logicalOr_le_rank op
  apply of_binary (by simp) (rank_lt_unary op)
  intro least r hleast hleaves
  have hright : readBinary (op.level.rank + 1) (us ++ r) = some (u, r) := by
    rw [hr.binary (by omega) _ r (Nat.le_refl _) (hleaves.mono (Nat.le_succ _))]
    apply readOperators_stop
    rintro op' r' rfl
    have hle := hleaves _ rfl
    rw [leaves, decide_eq_true_eq] at hle
    omega
  rw [List.append_assoc, List.cons_append, hl.binary hor _ _ hleast (leaves_op (Nat.le_refl _) _), readOperators, if_pos hleast,
    hright]
  simp only [length_lt_append hr.ne_nil r, if_true]

/-- A condition is read up to the question mark, and the expressions up to the colon and to the end. -/
theorem conditional (hcond : BindingLevel.logicalOr.rank ≤ k) (hc : Reads k ts t) (ht : Reads l us u)
    {n : Nat} (hf : Reads n vs v) :
    Reads BindingLevel.conditional.rank (ts ++ .punct .question :: (us ++ .punct .colon :: vs)) (.conditional t u v) where
  ne_nil := by simp
  expr := by
    intro r hr
    have hleaves : Leaves k (.punct .question :: (us ++ .punct .colon :: (vs ++ r))) := by
      intro x hx
      obtain rfl : Token.punct .question = x := by simpa using hx
      rfl
    have hcondition : readBinary 0 (ts ++ .punct .question :: (us ++ .punct .colon :: (vs ++ r))) =
        some (t, .punct .question :: (us ++ .punct .colon :: (vs ++ r))) := by
      rw [hc.binary hcond 0 _ (Nat.zero_le k) hleaves]
      apply readOperators_stop
      intro op r' heq
      cases heq
    rw [List.append_assoc, List.cons_append, List.append_assoc, List.cons_append, readExpr, hcondition]
    have hlen : (us ++ .punct .colon :: (vs ++ r)).length <
        (ts ++ .punct .question :: (us ++ .punct .colon :: (vs ++ r))).length := by
      simp only [List.length_append, List.length_cons]
      omega
    have hlen' : (vs ++ r).length < (ts ++ .punct .question :: (us ++ .punct .colon :: (vs ++ r))).length := by
      simp only [List.length_append, List.length_cons]
      omega
    have htrue : readExpr (us ++ .punct .colon :: (vs ++ r)) = some (u, .punct .colon :: (vs ++ r)) :=
      ht.expr _ (ends_cons rfl _)
    simp only [hlen, hlen', if_true, htrue, hf.expr r hr, Option.map_some]
  binary := fun h => absurd h (by decide)
  unary := fun h => absurd h (by decide)
  access := fun h => absurd h (by decide)

/-! ## Lists -/

/-- No expression begins with what ends one. -/
theorem head_ne (h : Reads k ts t) {p : Punct} (hp : ends (.punct p) = true) : ts.head? ≠ some (.punct p) := by
  intro hhead
  have hexpr := h.expr [] (by intro x hx; cases hx)
  have hprefix : prefixOp? p = none := by
    unfold ends at hp
    split at hp <;> simp_all [prefixOp?]
  cases ts with
  | nil => cases hhead
  | cons x us =>
    obtain rfl : x = .punct p := by simpa using hhead
    have hprimary : readPrimary (.punct p :: (us ++ [])) = none := by
      unfold ends at hp
      split at hp <;> simp_all [readPrimary]
    rw [List.cons_append, readExpr, readBinary, readUnary_eq_readAccess (by simp [startsAccess, hprefix]), readAccess,
      hprimary] at hexpr
    cases hexpr

end Reads

theorem readList_nil (close : Punct) (r : List Token) : readList close (.punct close :: r) = some ([], r) := by
  rw [readList, List.head?_cons, if_pos rfl, List.tail_cons]

/-- The last item of a list is followed by the closing bracket. -/
theorem readItems_last {close : Punct} (hclose : ends (.punct close) = true) {k : Nat} {ts : List Token} {t : Tree}
    (h : Reads k ts t) (r : List Token) : readItems close (ts ++ .punct close :: r) = some ([t], r) := by
  rw [readItems, h.expr _ (ends_cons hclose r)]
  simp only [if_true]

/-- Every other item is followed by a comma and the items after it. -/
theorem readItems_cons {close : Punct} (hclose : close ≠ .comma) {k : Nat} {ts us r : List Token} {t : Tree} {items : List Tree}
    (h : Reads k ts t) (hitems : readItems close us = some (items, r)) :
    readItems close (ts ++ .punct .comma :: us) = some (t :: items, r) := by
  have hlen : us.length < (ts ++ .punct .comma :: us).length := by
    rw [List.length_append, List.length_cons]
    omega
  rw [readItems, h.expr _ (ends_cons rfl us)]
  simp only [hclose.symm, if_false, hlen, and_self, if_true, hitems, Option.map_some]

/-- A list that begins with an item is the list of its items. -/
theorem readList_eq_readItems {close : Punct} (hclose : ends (.punct close) = true) {k : Nat} {ts : List Token} {t : Tree}
    (h : Reads k ts t) (r : List Token) : readList close (ts ++ r) = readItems close (ts ++ r) := by
  have hhead := h.head_ne hclose
  obtain ⟨x, us, rfl⟩ := List.exists_cons_of_ne_nil h.ne_nil
  rw [readList, if_neg (by simpa using hhead)]

/-! ## Types -/

/-- Tokens that close as many template arguments as a number says: two closing brackets in a row are one token. -/
inductive Closers : Nat → List Token → Prop where
  | nil : Closers 0 []
  | one {n : Nat} {cs : List Token} : Closers n cs → Closers (n + 1) (.punct (.op .gt) :: cs)
  | two {n : Nat} {cs : List Token} : Closers n cs → Closers (n + 2) (.punct (.op .shr) :: cs)

theorem Closers.eq_nil {cs : List Token} (h : Closers 0 cs) : cs = [] := by
  cases h
  rfl

/-- Closing one argument leaves the others to be closed, even where it splits a token. -/
theorem Closers.close {n : Nat} {cs : List Token} (h : Closers (n + 1) cs) :
    ∃ cs', Closers n cs' ∧ ∀ r, closeAngle (cs ++ r) = some (cs' ++ r) := by
  cases h with
  | @one n cs h => exact ⟨cs, h, fun r => rfl⟩
  | @two n cs h => exact ⟨.punct (.op .gt) :: cs, h.one, fun r => rfl⟩

/-- Closing brackets are neither `::` nor a star. -/
theorem Closers.head_ne {n : Nat} {cs : List Token} (h : Closers (n + 1) cs) (r : List Token) :
    (cs ++ r).head? ≠ some (.punct .scope) ∧ (cs ++ r).head? ≠ some (.punct (.op .mul)) := by
  cases h <;> simp

/-- A type ends where no star follows. -/
theorem readStars_stop {t : Ty} {r : List Token} (h : r.head? ≠ some (.punct (.op .mul))) : readStars t r = (t, r) := by
  unfold readStars
  split
  · exact absurd rfl h
  · rfl

/-- Tokens are read as a type, with `n` template arguments around it left to be closed. -/
def ReadsType (n : Nat) (ts : List Token) (t : Ty) : Prop :=
  ∃ cs, Closers n cs ∧ ∀ r, (cs ++ r).head? ≠ some (.punct .scope) → readType (ts ++ r) = some (readStars t (cs ++ r))

namespace ReadsType

variable {n : Nat} {ts cs : List Token} {t : Ty}

/-- A type name that is no template is read before the brackets that close it. -/
theorem named {ws : List String} (hws : ws ≠ []) (hname : namesType ws = true) (htemplate : classTemplate? (joinWords ws) = none)
    (hcs : Closers n cs) : ReadsType n (wordTokens ws ++ cs) (.named (joinWords ws)) := by
  refine ⟨cs, hcs, ?_⟩
  intro r hr
  rw [List.append_assoc, readType, readWords_wordTokens hws hr]
  simp only [htemplate, hname, if_true]

/-- A class template and its argument; the bracket that closes it is among those left open inside. -/
theorem instantiated {ws : List String} {make : Ty → Ty} (hws : ws ≠ []) (hname : namesType ws = true)
    (htemplate : classTemplate? (joinWords ws) = some make) (h : ReadsType (n + 1) ts t) :
    ReadsType n (wordTokens ws ++ .punct (.op .lt) :: ts) (make t) := by
  obtain ⟨cs, hcs, hread⟩ := h
  obtain ⟨cs', hcs', hclose⟩ := hcs.close
  refine ⟨cs', hcs', ?_⟩
  intro r _
  obtain ⟨hscope, hstar⟩ := hcs.head_ne r
  have hlen : (ts ++ r).length < (wordTokens ws ++ .punct (.op .lt) :: (ts ++ r)).length := by
    simp only [List.length_append, List.length_cons]
    omega
  rw [List.append_assoc, List.cons_append, readType, readWords_wordTokens hws (by simp)]
  simp only [hname, htemplate, hlen, if_true, hread r hscope, readStars_stop hstar, hclose, Option.map_some]

/-- A star after a type is read as a pointer to it. -/
theorem pointer (h : ReadsType 0 ts t) (hcs : Closers n cs) : ReadsType n (ts ++ .punct (.op .mul) :: cs) (.pointer t) := by
  obtain ⟨ds, hds, hread⟩ := h
  obtain rfl := hds.eq_nil
  refine ⟨cs, hcs, ?_⟩
  intro r _
  rw [List.append_assoc, List.cons_append, hread _ (by simp), List.nil_append, readStars]

/-- A type in the brackets of a template. -/
theorem argument (h : ReadsType 1 ts t) (r : List Token) : readArgument (.punct (.op .lt) :: (ts ++ r)) = some (t, r) := by
  obtain ⟨cs, hcs, hread⟩ := h
  obtain ⟨hscope, hstar⟩ := hcs.head_ne r
  obtain ⟨cs', hcs', hclose⟩ := hcs.close
  obtain rfl := hcs'.eq_nil
  rw [readArgument, hread r hscope, readStars_stop hstar]
  simp only [hclose, Option.map_some, List.nil_append]

/-- A type before the items of a new object. -/
theorem beforeItems (h : ReadsType 0 ts t) (r : List Token) :
    readType (ts ++ .punct .lbrace :: r) = some (t, .punct .lbrace :: r) := by
  obtain ⟨cs, hcs, hread⟩ := h
  obtain rfl := hcs.eq_nil
  rw [hread _ (by simp), List.nil_append, readStars_stop (by simp)]

end ReadsType

end ExprToCpp.Cpp.Reader
