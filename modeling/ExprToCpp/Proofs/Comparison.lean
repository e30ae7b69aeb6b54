import ExprToCpp.Proofs.Effect
import ExprToCpp.Proofs.Registration

/-!
# Comparing contexts

What a context decides about the C++ expression of an expression: the types it knows, the members of strings, the class of the
support functions, and, for array literals and casts alone, the ownership. A context that decides these alike gives the same C++
expression, and it may know more types: a type that is not known decides nothing (`lowers_of_sameForms`). Where lowering has the
same effect, two sessions refuse alike and register alike (`emitsAlike_of_effect`).
-/

namespace ExprToCpp

/-- A context knows the types that another knows, and decides the C++ forms of an expression as that one does. -/
structure Context.SameForms (Γ Δ : Context) (e : Expr) : Prop where
  typeOf : ∀ x t, Γ.types.typeOf x = some t → Δ.types.typeOf x = some t
  stringEnds : Γ.config.stringEnds = Δ.config.stringEnds
  supportClass : Γ.config.supportClass = Δ.config.supportClass
  arrays : ∀ items, (Expr.array items).IsPartOf e → Γ.config.ownership = Δ.config.ownership
  casts : ∀ v t, (Expr.cast v t).IsPartOf e → Γ.config.ownership.cppType t = Δ.config.ownership.cppType t

section

variable {Γ Δ : Context}

/-- What two contexts agree on for an expression they agree on for its children. -/
theorem Context.SameForms.child {e x : Expr} (h : Γ.SameForms Δ e) (hx : x ∈ e.children) : Γ.SameForms Δ x where
  typeOf := h.typeOf
  stringEnds := h.stringEnds
  supportClass := h.supportClass
  arrays items hitems := h.arrays items (.child hx hitems)
  casts v t hcast := h.casts v t (.child hx hcast)

/-- They name the support functions alike. -/
theorem Context.SameForms.support {e : Expr} (h : Γ.SameForms Δ e) (f : String) : Γ.config.support f = Δ.config.support f := by
  rw [Config.support, Config.support, h.supportClass]

/-- Disciplines with the same handles cast them in the same way. -/
theorem recast_congr {o p : Ownership} {target : Cpp.Ty} (h : o.handle target = p.handle target) (value : Cpp.Expr) :
    o.recast target value = p.recast target value := by
  cases o with
  | raw | uniqueAndRaw =>
    cases p with
    | raw | uniqueAndRaw => rfl
    | shared => cases h
  | shared =>
    cases p with
    | raw | uniqueAndRaw => cases h
    | shared => rfl

/-- A method call takes the same form in both contexts, with the same parts. -/
theorem lowers_method_of_sameForms {r : Expr} {m : Method} {args : List Expr} {c : Cpp.Expr} (h : Γ.SameForms Δ (.method r m args))
    (hparts : ∀ x ∈ r :: args, ∀ c, Lowers Γ x c → Lowers Δ x c) (hc : Lowers Γ (.method r m args) c) :
    Lowers Δ (.method r m args) c := by
  obtain ⟨hr, hargs⟩ := List.forall_mem_cons.1 hparts
  have htype := fun t => h.typeOf r t
  cases hc with
  | textLength hm ht htext hc => exact .textLength hm (htype _ ht) htext (hr _ hc)
  | arraySize hm ht hc => exact .arraySize hm (htype _ ht) (hr _ hc)
  | firstItem ht hc => exact .firstItem (htype _ ht) (hr _ hc)
  | firstByte ht htext hc => rw [h.stringEnds]; exact .firstByte (htype _ ht) htext (hr _ hc)
  | lastItem ht hc => exact .lastItem (htype _ ht) (hr _ hc)
  | lastByte ht htext hc => rw [h.stringEnds]; exact .lastByte (htype _ ht) htext (hr _ hc)
  | extremeItem hm ht hc => exact .extremeItem hm (htype _ ht) (hr _ hc)
  | extremeByte hm ht hc => rw [h.support]; exact .extremeByte hm (htype _ ht) (hr _ hc)
  | substring ht hc hi hj => exact .substring (htype _ ht) (hr _ hc) (hargs _ (by simp) _ hi) (hargs _ (by simp) _ hj)
  | reverse ht hc => rw [h.support]; exact .reverse (htype _ ht) (hr _ hc)
  | intText ht hten hc => rw [h.support]; exact .intText (htype _ ht) hten (hr _ hc)
  | decoded ht hc => rw [h.support]; exact .decoded (htype _ ht) (hr _ hc)
  | ownText ht hc => exact .ownText (htype _ ht) (hr _ hc)
  | parsed ht hten hc => exact .parsed (htype _ ht) hten (hr _ hc)
  | parsedInRadix ht hradix hc ha => exact .parsedInRadix (htype _ ht) hradix (hr _ hc) (hargs _ (by simp) _ ha)
  | truthValue ht hc => exact .truthValue (htype _ ht) (hr _ hc)
  | truncated ht hc => exact .truncated (htype _ ht) (hr _ hc)
  | ownInt ht hkind hc => exact .ownInt (htype _ ht) hkind (hr _ hc)

/-- So does a binary operator. -/
theorem lowers_binary_of_sameForms {op : BinaryOp} {l r : Expr} {c : Cpp.Expr} (h : Γ.SameForms Δ (.binary op l r))
    (hl : ∀ c, Lowers Γ l c → Lowers Δ l c) (hr : ∀ c, Lowers Γ r c → Lowers Δ r c) (hc : Lowers Γ (.binary op l r) c) :
    Lowers Δ (.binary op l r) c := by
  cases hc with
  | intRemainder ha hb hcl hcr =>
    rw [h.support]
    exact .intRemainder (h.typeOf _ _ ha) (h.typeOf _ _ hb) (hl _ hcl) (hr _ hcr)
  | floatRemainder ha hb hfloat hcl hcr => exact .floatRemainder (h.typeOf _ _ ha) (h.typeOf _ _ hb) hfloat (hl _ hcl) (hr _ hcr)
  | otherRemainder ha hb hnumeric hfloat hcl hcr =>
    exact .otherRemainder (h.typeOf _ _ ha) (h.typeOf _ _ hb) hnumeric hfloat (hl _ hcl) (hr _ hcr)
  | textOrder hop ha hta hb htb hcl hcr =>
    exact .textOrder hop (h.typeOf _ _ ha) hta (h.typeOf _ _ hb) htb (hl _ hcl) (hr _ hcr)
  | order hop ha htext hcl hcr =>
    refine .order hop (h.typeOf _ _ ha) (fun hta => ?_) (hl _ hcl) (hr _ hcr)
    obtain ⟨b, hb, htb⟩ := htext hta
    exact ⟨b, h.typeOf _ _ hb, htb⟩
  | binary hmod hop hcl hcr => exact .binary hmod hop (hl _ hcl) (hr _ hcr)

/-- A context that decides alike gives the same C++ expression. -/
theorem lowers_of_sameForms {e : Expr} {c : Cpp.Expr} (h : Γ.SameForms Δ e) (hc : Lowers Γ e c) : Lowers Δ e c := by
  induction e using Expr.inductParts generalizing c with
  | step e ih =>
    have hparts : ∀ x ∈ e.children, ∀ c, Lowers Γ x c → Lowers Δ x c := fun x hx c => ih x hx (h.child hx)
    -- methods, operators, array literals, subscripts and casts look at the context; the other rules only pass it on
    cases e with
    | method r m args => exact lowers_method_of_sameForms h hparts hc
    | binary op l r => exact lowers_binary_of_sameForms h (hparts l (by simp)) (hparts r (by simp)) hc
    | array items =>
      cases hc with
      | array ht hitems hmake =>
        rw [h.arrays items .self] at hmake
        exact .array (h.typeOf _ _ ht) (forall₂_of_forall_mem hitems hparts) hmake
    | subscript v i =>
      cases hc with
      | item ht hv hi => exact .item (h.typeOf _ _ ht) (hparts v (by simp) _ hv) (hparts i (by simp) _ hi)
      | byte ht hv hi => exact .byte (h.typeOf _ _ ht) (hparts v (by simp) _ hv) (hparts i (by simp) _ hi)
    | cast v t =>
      have hcast := h.casts v t .self
      cases hc with
      | castRecord hv =>
        rw [recast_congr hcast]
        exact .castRecord (hparts v (by simp) _ hv)
      | cast hrecord hv =>
        rw [hcast]
        exact .cast hrecord (hparts v (by simp) _ hv)
    | conditional p t f =>
      cases hc with
      | conditional hp ht hf =>
        exact .conditional (hparts p (by simp) _ hp) (hparts t (by simp) _ ht) (hparts f (by simp) _ hf)
    | member v a =>
      cases hc with
      | member hv => exact .member (hparts v (by simp) _ hv)
    | unary op v =>
      cases hc with
      | unary hv => exact .unary (hparts v (by simp) _ hv)
    | enumById d v =>
      cases hc with
      | enumById hv => exact .enumById (hparts v (by simp) _ hv)
    | int n => cases hc; exact .int n
    | float x => cases hc; exact .float x
    | bool b => cases hc; exact .bool b
    | str s => cases hc; exact .str s
    | bytes bs => cases hc; exact .bytes bs
    | name n => cases hc; exact .name n
    | enumLabel d label => cases hc; exact .enumLabel d label

/-- So the same text is emitted. -/
theorem emit_eq_of_sameForms {e : Expr} {text : String} (h : Γ.SameForms Δ e) (htext : (e.emit Γ).outcome = .ok text) :
    (e.emit Δ).outcome = .ok text := by
  obtain ⟨c, hc, rfl⟩ := emit_ok_iff_lowers.1 htext
  exact emit_ok_iff_lowers.2 ⟨c, lowers_of_sameForms h hc, rfl⟩

end

/-! ## Sessions -/

namespace Session

/-- Two answers to an emission are alike: two texts, equal if they are to be the same, or one refusal. -/
def Answer.Alike (same : Prop) : Answer → Answer → Prop
  | .emitted (.ok text), .emitted (.ok text') => same → text = text'
  | .emitted (.error r), .emitted (.error r') => r = r'
  | _, _ => False

/-- Two sessions emit an expression alike: with like answers, and with the same lists afterwards. -/
structure EmitsAlike (s s' : Session) (e : Expr) (same : Prop) : Prop where
  answer : Answer.Alike same (s.step (.emit e)).2 (s'.step (.emit e)).2
  source : (s.step (.emit e)).1.source = (s'.step (.emit e)).1.source
  header : (s.step (.emit e)).1.header = (s'.step (.emit e)).1.header

/-- Sessions with the same lists emit alike if the effects are equal, and the texts where they are to be. -/
theorem emitsAlike_of_effect {Γ Δ : Context} {e : Expr} {same : Prop} (source header : IncludeList) (active : UnitFile)
    (heffect : (e.lower Δ).effect = (e.lower Γ).effect)
    (htext : same → ∀ text, (e.emit Γ).outcome = .ok text → (e.emit Δ).outcome = .ok text) :
    EmitsAlike ⟨Γ, source, header, active⟩ ⟨Δ, source, header, active⟩ e same := by
  have hneeds : (e.emit Δ).needs = (e.emit Γ).needs := by
    rw [needs_emit, needs_emit, ← Emission.needs_effect, heffect, Emission.needs_effect]
  refine ⟨?_, ?_, ?_⟩
  · rw [snd_step_emit, snd_step_emit]
    change Answer.Alike same (.emitted (e.emit Γ).outcome) (.emitted (e.emit Δ).outcome)
    cases h : (e.emit Γ).outcome with
    | error r =>
      have h' : (e.emit Δ).outcome = .error r := by
        rwa [emit_error_iff, ← Emission.outcome_effect_eq_error, heffect, Emission.outcome_effect_eq_error, ← emit_error_iff]
      rw [h']
      rfl
    | ok text =>
      obtain ⟨text', h'⟩ : ∃ text', (e.emit Δ).outcome = .ok text' := by
        rw [← Emission.outcome_effect_eq_ok (u := ()), effect_emit, heffect, ← effect_emit, Emission.outcome_effect_eq_ok]
        exact ⟨text, h⟩
      rw [h']
      intro hsame
      rw [htext hsame text h] at h'
      exact Except.ok.inj h'
  · rw [fst_step_emit, fst_step_emit]
    simp only [register, hneeds]
  · rw [fst_step_emit, fst_step_emit]
    simp only [register, hneeds]

end Session

end ExprToCpp
