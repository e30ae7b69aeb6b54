import Mathlib.Algebra.Order.BigOperators.Group.List
import ExprToCpp.Proofs.SolidNames

/-!
# Array literals

Every array literal of an expression is the construction of a vector in its C++ text, but not always one construction: some forms
write one of their parts twice, and so construct twice what the part constructs. The texts in which every literal is constructed
once are those of the expressions that have no array literal in such a part. Main statement: `constructionsIn_emit`.
-/

namespace ExprToCpp

open Cpp

/-! ## Parts that are written twice -/

namespace Expr

@[simp] def isArray : Expr → Bool
  | .array _ => true
  | _ => false

/-- The number of array literals in an expression. -/
def arrayLiterals (e : Expr) : Nat := e.isArray.toNat + (e.children.attach.map fun x => x.1.arrayLiterals).sum
termination_by sizeOf e
decreasing_by exact sizeOf_lt_of_mem_children x.2

/-- An expression has the array literals of its children, and itself if it is one. -/
theorem arrayLiterals_eq (e : Expr) : e.arrayLiterals = e.isArray.toNat + (e.children.map arrayLiterals).sum := by
  rw [arrayLiterals, List.attach_map_val]

end Expr

namespace Context

/-- The parts of an expression whose text stands twice in its own: an array whose least or greatest item is wanted, for the begin
and the end; a text whose last byte is wanted, where the text has no method for it; and the offset at which a substring begins. -/
def writtenTwice (Γ : Context) : Expr → List Expr
  | .method r .min _ | .method r .max _ =>
    match Γ.types.typeOf r with
    | some (.array _) => [r]
    | _ => []
  | .method r .last _ => if Γ.config.stringEnds = false ∧ (Γ.types.typeOf r).any ValueType.isTextual = true then [r] else []
  | .method _ .substring (i :: _) => [i]
  | _ => []

/-- Only a child can be written twice. -/
theorem mem_children_of_mem_writtenTwice {Γ : Context} {e p : Expr} (h : p ∈ Γ.writtenTwice e) : p ∈ e.children := by
  unfold writtenTwice at h
  split at h
  · split at h <;> simp_all [Expr.children]
  · split at h <;> simp_all [Expr.children]
  · split at h <;> simp_all [Expr.children]
  · simp_all [Expr.children]
  · cases h

/-- The number of vectors that the C++ text of an expression constructs: one for each array literal, as often as it is written. -/
def constructions (Γ : Context) (e : Expr) : Nat :=
  e.isArray.toNat + (e.children.attach.map fun x => Γ.constructions x.1).sum +
    ((Γ.writtenTwice e).attach.map fun p => Γ.constructions p.1).sum
termination_by sizeOf e
decreasing_by
  · exact Expr.sizeOf_lt_of_mem_children x.2
  · exact Expr.sizeOf_lt_of_mem_children (mem_children_of_mem_writtenTwice p.2)

/-- A node constructs what its children construct, what the one that is written twice constructs again, and itself. -/
theorem constructions_eq (Γ : Context) (e : Expr) : Γ.constructions e =
    e.isArray.toNat + (e.children.map Γ.constructions).sum + ((Γ.writtenTwice e).map Γ.constructions).sum := by
  rw [constructions, List.attach_map_val, List.attach_map_val]

/-- No array literal stands in a part that is written twice. -/
def WritesArraysOnce (Γ : Context) (e : Expr) : Prop := ∀ x, x.IsPartOf e → ∀ p ∈ Γ.writtenTwice x, p.arrayLiterals = 0

/-- No array literal is left out. -/
theorem arrayLiterals_le_constructions (Γ : Context) (e : Expr) : e.arrayLiterals ≤ Γ.constructions e := by
  induction e using Expr.inductParts with
  | step e ih =>
    have hsum := List.sum_le_sum ih
    rw [Expr.arrayLiterals_eq, constructions_eq]
    omega

/-- What has no array literal constructs nothing. -/
theorem constructions_eq_zero_iff {Γ : Context} {e : Expr} : Γ.constructions e = 0 ↔ e.arrayLiterals = 0 := by
  constructor
  · intro h
    have hle := arrayLiterals_le_constructions Γ e
    omega
  · intro h
    induction e using Expr.inductParts with
    | step e ih =>
      rw [Expr.arrayLiterals_eq, Nat.add_eq_zero_iff, List.sum_eq_zero_iff] at h
      have hparts : ∀ x ∈ e.children, Γ.constructions x = 0 := fun x hx => ih x hx (h.2 _ (List.mem_map_of_mem hx))
      rw [constructions_eq, h.1, Nat.zero_add, Nat.add_eq_zero_iff, List.sum_eq_zero_iff, List.sum_eq_zero_iff, List.forall_mem_map,
        List.forall_mem_map]
      exact ⟨hparts, fun p hp => hparts p (mem_children_of_mem_writtenTwice hp)⟩

/-- Sums of which one is the greater term by term are equal only term by term. -/
theorem sum_map_eq_iff {l : List Expr} {f g : Expr → Nat} (hle : ∀ x ∈ l, g x ≤ f x) :
    (l.map f).sum = (l.map g).sum ↔ ∀ x ∈ l, f x = g x := by
  induction l with
  | nil => simp
  | cons x l ih =>
    obtain ⟨hx, hl⟩ := List.forall_mem_cons.1 hle
    have hsum := List.sum_le_sum hl
    rw [List.forall_mem_cons, ← ih hl, List.map_cons, List.map_cons, List.sum_cons, List.sum_cons]
    omega

/-- Every array literal is constructed once if and only if none stands in a part that is written twice. -/
theorem constructions_eq_arrayLiterals_iff {Γ : Context} {e : Expr} :
    Γ.constructions e = e.arrayLiterals ↔ Γ.WritesArraysOnce e := by
  induction e using Expr.inductParts with
  | step e ih =>
    have hle : ∀ x ∈ e.children, x.arrayLiterals ≤ Γ.constructions x := fun x _ => arrayLiterals_le_constructions Γ x
    have hsum := List.sum_le_sum hle
    have htwice : ((Γ.writtenTwice e).map Γ.constructions).sum = 0 ↔ ∀ p ∈ Γ.writtenTwice e, p.arrayLiterals = 0 := by
      rw [List.sum_eq_zero_iff, List.forall_mem_map]
      exact forall₂_congr fun p _ => constructions_eq_zero_iff
    have hparts : ((e.children.map Γ.constructions).sum = (e.children.map Expr.arrayLiterals).sum) ↔
        ∀ y ∈ e.children, Γ.WritesArraysOnce y := by
      rw [sum_map_eq_iff hle]
      exact forall₂_congr ih
    -- the parts alone construct no fewer than their literals, so what is written twice must construct nothing
    rw [WritesArraysOnce, Expr.forall_isPartOf, ← htwice]
    simp only [WritesArraysOnce] at hparts
    rw [← hparts, constructions_eq, Expr.arrayLiterals_eq]
    omega

end Context

/-! ## What lowering constructs -/

section

variable {Γ : Context}

theorem constructions_signed (negative : Bool) (e : Cpp.Expr) : (Cpp.Expr.signed negative e).constructions = e.constructions := by
  cases negative <;> rfl

theorem constructions_ofInt (n : Int) : (Cpp.Expr.ofInt n).constructions = 0 := by
  unfold Cpp.Expr.ofInt Cpp.Expr.exceptionalInt Cpp.Expr.belowLeast Cpp.Expr.signedInt
  split
  · simp [constructions_signed]
  · split_ifs <;> simp [constructions_signed]

theorem constructions_ofBinary64 (x : Binary64) : (Cpp.Expr.ofBinary64 x).constructions = 0 := by
  unfold Cpp.Expr.ofBinary64
  split_ifs <;> simp [constructions_signed]

theorem constructions_stringObject (style : Escape.Style) (bytes : List UInt8) (withLength : Bool) :
    (Cpp.Expr.stringObject style bytes withLength).constructions = 0 := by
  cases withLength <;> rfl

theorem constructions_reference (n : String) : (Naming.reference n).constructions = 0 := by
  unfold Naming.reference
  split <;> rfl

/-- An access to a member constructs what its object constructs. -/
theorem constructions_member (c : Cpp.Expr) (n : String) : (Naming.member c n).constructions = c.constructions := by
  unfold Naming.member
  split <;> rfl

/-- A cast to a record constructs what its operand constructs. -/
theorem constructions_recast (o : Ownership) (t : Ty) (c : Cpp.Expr) : (o.recast t c).constructions = c.constructions := by
  cases o <;> rfl

/-- Making an array is one construction, whoever owns it. -/
theorem constructions_makeArray {o : Ownership} {t : Ty} {cs : List Cpp.Expr} {c : Cpp.Expr} (h : o.makeArray t cs = .ok c) :
    c.constructions = 1 + Cpp.Expr.constructionsOfAll cs := by
  cases o with
  | raw | uniqueAndRaw =>
    cases h
    rfl
  | shared => cases h

/-- Lowering keeps count of what an expression constructs. -/
def KeepsCount (Γ : Context) (e : Expr) : Prop := ∀ c, Lowers Γ e c → c.constructions = Γ.constructions e

/-- The items of a list construct one after another. -/
theorem constructionsOfAll_eq_sum {items : List Expr} {cs : List Cpp.Expr} (h : List.Forall₂ (Lowers Γ) items cs)
    (hitems : ∀ x ∈ items, KeepsCount Γ x) : Cpp.Expr.constructionsOfAll cs = (items.map Γ.constructions).sum := by
  induction h with
  | nil => rfl
  | cons hx _ ih =>
    obtain ⟨hcount, hrest⟩ := List.forall_mem_cons.1 hitems
    rw [Cpp.Expr.constructionsOfAll, List.map_cons, List.sum_cons, hcount _ hx, ih hrest]

/-- Arguments that are not written have no array literals. -/
theorem sum_constructions_of_isRadixTen {args : List Expr} (h : IsRadixTen args) : (args.map Γ.constructions).sum = 0 := by
  rcases h with rfl | rfl
  · rfl
  · simp [Context.constructions_eq, Context.writtenTwice]

/-- Method calls keep the count: three of them write a part twice, the others each part once. -/
theorem keepsCount_method {r : Expr} {m : Method} {args : List Expr} (hr : KeepsCount Γ r) (hargs : ∀ x ∈ args, KeepsCount Γ x) :
    KeepsCount Γ (.method r m args) := by
  intro c h
  rw [Context.constructions_eq]
  cases h with
  | textLength hm _ _ h => rcases hm with rfl | rfl <;> simp [Context.writtenTwice, hr _ h]
  | arraySize hm _ h => rcases hm with rfl | rfl <;> simp [Context.writtenTwice, hr _ h]
  | firstItem _ h => simp [Context.writtenTwice, hr _ h]
  | firstByte _ _ h => cases hends : Γ.config.stringEnds <;> simp [Context.writtenTwice, hr _ h]
  | lastItem ht h => simp [Context.writtenTwice, ht, ValueType.isTextual, hr _ h]
  | lastByte ht htext h => cases hends : Γ.config.stringEnds <;> simp [Context.writtenTwice, hends, ht, htext, hr _ h]
  | extremeItem hm ht h => rcases hm with rfl | rfl <;> simp [Context.writtenTwice, ht, hr _ h]
  | extremeByte hm ht h => rcases hm with rfl | rfl <;> simp [Context.writtenTwice, ht, Config.support, hr _ h]
  | @substring _ i j _ ci cj _ h hi hj =>
    have hcount := And.intro (hargs i (by simp) _ hi) (hargs j (by simp) _ hj)
    simp [Context.writtenTwice, hr _ h, hcount.1, hcount.2]
    omega
  | reverse _ h => simp [Context.writtenTwice, Config.support, hr _ h]
  | intText _ hargs h => simp [Context.writtenTwice, Config.support, hr _ h, sum_constructions_of_isRadixTen hargs]
  | decoded _ h => simp [Context.writtenTwice, Config.support, hr _ h, Context.constructions_eq Γ (.str _)]
  | ownText _ h => simp [Context.writtenTwice, hr _ h]
  | parsed _ hargs h => simp [Context.writtenTwice, hr _ h, sum_constructions_of_isRadixTen hargs]
  | @parsedInRadix _ radix _ _ _ _ h hradix => simp [Context.writtenTwice, hr _ h, hargs radix (by simp) _ hradix]
  | truthValue _ h => simp [Context.writtenTwice, hr _ h]
  | truncated _ h => simp [Context.writtenTwice, hr _ h]
  | ownInt _ _ h => simp [Context.writtenTwice, hr _ h]

/-- The C++ expression constructs as many vectors as array literals are written. -/
theorem constructions_of_lowers {e : Expr} {c : Cpp.Expr} (h : Lowers Γ e c) : c.constructions = Γ.constructions e := by
  have hcount : KeepsCount Γ e := by
    clear h
    induction e with
    | method r m args ihr ihargs => exact keepsCount_method ihr ihargs
    | array items ih =>
      intro c h
      rw [Context.constructions_eq]
      cases h with
      | array _ hitems hmake => simp [Context.writtenTwice, constructions_makeArray hmake, constructionsOfAll_eq_sum hitems ih]
    | int n =>
      intro c h
      rw [Context.constructions_eq]
      cases h
      simp [Context.writtenTwice, constructions_ofInt]
    | float x =>
      intro c h
      rw [Context.constructions_eq]
      cases h
      simp [Context.writtenTwice, constructions_ofBinary64]
    | bool b | str s | bytes bs | name n | enumLabel d l =>
      intro c h
      rw [Context.constructions_eq]
      cases h
      simp [Context.writtenTwice, Cpp.Expr.ofString, Cpp.Expr.ofBytes, constructions_stringObject, constructions_reference]
    | member v a ih | unary op v ih | enumById d v ih =>
      intro c h
      rw [Context.constructions_eq]
      cases h
      next h => simp [Context.writtenTwice, constructions_member, ih _ h]
    | cast v t ih =>
      intro c h
      rw [Context.constructions_eq]
      cases h with
      | castRecord h => simp [Context.writtenTwice, constructions_recast, ih _ h]
      | cast _ h => simp [Context.writtenTwice, ih _ h]
    | subscript v i ihv ihi =>
      intro c h
      rw [Context.constructions_eq]
      cases h with
      | item _ hv hi => simp [Context.writtenTwice, ihv _ hv, ihi _ hi]
      | byte _ hv hi => simp [Context.writtenTwice, ihv _ hv, ihi _ hi]
    | binary op l r ihl ihr =>
      intro c h
      rw [Context.constructions_eq]
      cases h with
      | intRemainder _ _ hl hr => simp [Context.writtenTwice, Config.support, ihl _ hl, ihr _ hr]
      | floatRemainder _ _ _ hl hr => simp [Context.writtenTwice, ihl _ hl, ihr _ hr]
      | otherRemainder _ _ _ _ hl hr => simp [Context.writtenTwice, ihl _ hl, ihr _ hr]
      | textOrder _ _ _ _ _ hl hr => simp [Context.writtenTwice, ihl _ hl, ihr _ hr]
      | order _ _ _ hl hr => simp [Context.writtenTwice, ihl _ hl, ihr _ hr]
      | binary _ _ hl hr => simp [Context.writtenTwice, ihl _ hl, ihr _ hr]
    | conditional e t f ihe iht ihf =>
      intro c h
      rw [Context.constructions_eq]
      cases h with
      | conditional he ht hf => simp [Context.writtenTwice, ihe _ he, iht _ ht, ihf _ hf, Nat.add_assoc]
  exact hcount c h

end

/-- The C++ expression that is emitted constructs every array literal once if and only if no array literal stands in a part that is
written twice; in general it constructs each as often as it is written. What it constructs is to be seen in the text, where no name
holds a blank or a quote. The least and the greatest item of an array are looked for between the begin and the end of an expression
that is written twice: they belong to one vector if it constructs none, and it constructs none if it has no array literal. -/
theorem constructionsIn_emit (Γ : Context) (e : Expr) (text : String) (h : (e.emit Γ).outcome = .ok text) :
    ∃ c, Lowers Γ e c ∧ text = c.render ∧ (Γ.Solid e → constructionsIn text.toList = c.constructions) ∧
      c.constructions = Γ.constructions e ∧ (c.constructions = e.arrayLiterals ↔ Γ.WritesArraysOnce e) ∧
      ∀ r m t, (Expr.method r m []).IsPartOf e → m = .min ∨ m = .max → Γ.types.typeOf r = some (.array t) →
        ∃ d, Lowers Γ r d ∧ Lowers Γ (.method r m []) (.unary .deref (.call (.name ("std::" ++ m.name ++ "_element"))
          [.call (.arrow d "begin") [], .call (.arrow d "end") []])) ∧ (d.constructions = 0 ↔ r.arrayLiterals = 0) := by
  obtain ⟨c, hc, rfl⟩ := emit_ok_iff_lowers.1 h
  have hcount := constructions_of_lowers hc
  refine ⟨c, hc, rfl, fun he => constructionsIn_render (solid_of_lowers he hc), hcount, ?_, fun r m t hpart hm ht => ?_⟩
  · rw [hcount]
    exact Context.constructions_eq_arrayLiterals_iff
  · obtain ⟨_, hmethod⟩ := exists_lowers_part hc hpart
    obtain ⟨d, hd⟩ := exists_lowers_child hmethod (by simp : r ∈ _)
    refine ⟨d, hd, .extremeItem hm ht hd, ?_⟩
    rw [constructions_of_lowers hd]
    exact Context.constructions_eq_zero_iff

/-- The least item of an array literal: the text constructs two vectors, and has the begin of one and the end of the other. -/
theorem constructionsIn_emit_least_of_literal :
    ∃ text, (Expr.emit ⟨({} : TypeTable).toTyping, .conservative⟩ (.method (.array [.int 3, .int 1]) .min [])).outcome = .ok text ∧
      text = "*std::min_element((new std::vector<int32_t>\x7b3, 1\x7d)->begin(), (new std::vector<int32_t>\x7b3, 1\x7d)->end())" ∧
      constructionsIn text.toList = 2 ∧ Expr.arrayLiterals (.method (.array [.int 3, .int 1]) .min []) = 1 := by
  have hemit : (Expr.emit ⟨({} : TypeTable).toTyping, .conservative⟩ (.method (.array [.int 3, .int 1]) .min [])).outcome =
      .ok "*std::min_element((new std::vector<int32_t>\x7b3, 1\x7d)->begin(), (new std::vector<int32_t>\x7b3, 1\x7d)->end())" := rfl
  have htype : ({} : TypeTable).toTyping.typeOf (.array [.int 3, .int 1]) = some (.array (.int ⟨true, .four⟩)) := rfl
  have hint : ∀ n, Context.Solid ⟨({} : TypeTable).toTyping, .conservative⟩ (.int n) := by
    refine fun n => ⟨by decide, Expr.forall_isPartOf.2 ⟨⟨nofun, fun t ht => ?_⟩, nofun⟩⟩
    cases ht
    nofun
  have harray : Context.Solid ⟨({} : TypeTable).toTyping, .conservative⟩ (.array [.int 3, .int 1]) := by
    refine ⟨by decide, Expr.forall_isPartOf.2 ⟨⟨nofun, fun t ht => ?_⟩, ?_⟩⟩
    · cases ht
      nofun
    · simpa using And.intro (hint 3).parts (hint 1).parts
  have hsolid : Context.Solid ⟨({} : TypeTable).toTyping, .conservative⟩ (.method (.array [.int 3, .int 1]) .min []) := by
    refine ⟨by decide, Expr.forall_isPartOf.2 ⟨⟨nofun, fun t ht => ?_⟩, ?_⟩⟩
    · cases ht
      nofun
    · simpa using harray.parts
  obtain ⟨c, -, -, htext, hcount, -⟩ := constructionsIn_emit _ _ _ hemit
  refine ⟨_, hemit, rfl, ?_, ?_⟩
  · rw [htext hsolid, hcount]
    simp [Context.constructions_eq _ (.method _ _ _), Context.constructions_eq _ (.array _), Context.constructions_eq _ (.int _),
      Context.writtenTwice, htype]
  · simp [Expr.arrayLiterals_eq (.method _ _ _), Expr.arrayLiterals_eq (.array _), Expr.arrayLiterals_eq (.int _)]

end ExprToCpp
