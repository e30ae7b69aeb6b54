import ExprToCpp.Proofs.Cpp.Layout
import ExprToCpp.Proofs.Cpp.Marks
import ExprToCpp.Proofs.Cpp.WellFormed

/-!
# No pair of parentheses around an operand is idle

A text without one of the pairs has marks that are less deep than before, and the tree of the expression does not allow them there.
The operator next to the operand pins the depth down: it has not moved, while the operand's own mark has come up beside it. From a
part to the whole this is carried by `Fitted`: the text of a layout has its marks where a form allows them, and every ungrouping has
as many marks and at other depths, or two minuses that have run together. Main statements: `read_ungrouping_ne` and
`readJoined_ungrouping_ne`.
-/

namespace ExprToCpp.Cpp

open Lexer Reader

/-! ## Nestings with a piece left out or moved -/

namespace Nesting

variable {A B : Nesting} {as bs : List Nat} {d d' n : Nat}

/-- What fits one form after another can be cut where the first one ends, as a form has a size. -/
theorem fits_seq (has : as.length = A.size) : (A.seq B).Fits d (as ++ bs) ↔ A.Fits d as ∧ B.Fits d bs := by
  constructor
  · rintro ⟨as', bs', heq, ha, hb⟩
    obtain ⟨rfl, rfl⟩ := List.append_inj heq (has.trans (A.length_eq ha).symm)
    exact ⟨ha, hb⟩
  · rintro ⟨ha, hb⟩
    exact ⟨as, bs, rfl, ha, hb⟩

/-- A mark between two forms pins their depth down. -/
theorem fits_around_mark (has : as.length = A.size) (hn : 0 < n)
    (h : (A.seq ((marks n).seq B)).Fits d' (as ++ (List.replicate n d ++ bs))) : d' = d ∧ A.Fits d as ∧ B.Fits d bs := by
  obtain ⟨ha, hrest⟩ := (fits_seq has).1 h
  obtain ⟨hmark, hb⟩ := (fits_seq List.length_replicate).1 hrest
  obtain rfl : d' = d := by
    have hmem : d ∈ List.replicate n d' := by
      rw [← show List.replicate n d = List.replicate n d' from hmark]
      exact List.mem_replicate.2 ⟨by omega, rfl⟩
    exact (List.eq_of_mem_replicate hmem).symm
  exact ⟨rfl, ha, hb⟩

/-- A mark of the form itself stands at the depth of the form. -/
theorem mem_of_fits_mark {ds : List Nat} (hn : 0 < n) (h : ((marks n).seq B).Fits d ds) : d ∈ ds := by
  obtain ⟨_, bs, rfl, rfl, -⟩ := h
  exact List.mem_append_left _ (List.mem_replicate.2 ⟨by omega, rfl⟩)

/-- So does a mark between two forms. -/
theorem mem_of_fits_around_mark {ds : List Nat} (hn : 0 < n) (h : (A.seq ((marks n).seq B)).Fits d ds) : d ∈ ds := by
  obtain ⟨as, bs, rfl, -, hrest⟩ := h
  exact List.mem_append_right _ (mem_of_fits_mark hn hrest)

end Nesting

/-- Every operator has a mark. -/
theorem length_symbol_pos (op : BinaryOp) : 0 < op.symbol.toList.length := by
  cases op <;> decide

/-! ## Fitted layouts -/

/-- What a text adds has the size of a form, and does not fit it at the depths in question. -/
def Avoids (R : Nat → Nat → Prop) (A : Nesting) (F : Nat → Option (List Nat)) : Prop :=
  ∀ d ds, F d = some ds → ds.length = A.size ∧ ∀ d', R d d' → ¬ A.Fits d' ds

/-- At all depths, whatever that of the text is. -/
def Anywhere (_ _ : Nat) : Prop := True

theorem Avoids.inStep {A : Nesting} {F : Nat → Option (List Nat)} (h : Avoids Anywhere A F) : Avoids Eq A F :=
  fun d ds hds => ⟨(h d ds hds).1, fun d' _ => (h d ds hds).2 d' trivial⟩

/-- The text of a layout, which comes with `n` parentheses around it, fits a form, and no ungrouping of it does: at the depth of the
text, or anywhere. -/
structure Fitted (R : Nat → Nat → Prop) (Q : List Char → Prop) (l : Layout) (n : Nat) (A : Nesting) : Prop where
  whole : ∃ f : Nat → List Nat, Adds Q l.render (fun d => some (f d)) ∧ ∀ d, A.Fits (d + n) (f d)
  parts : ∀ s ∈ l.ungroupings, ∃ F, Adds Q s F ∧ Avoids R A F

/-- The text of a layout, or one of its ungroupings. -/
def Layout.Variant (l : Layout) (s : String) : Prop := s = l.render ∨ s ∈ l.ungroupings

/-- A variant of two layouts in a row is one of each, side by side. -/
theorem Layout.variant_append {a b : Layout} {s : String} (h : (a ++ b).Variant s) :
    ∃ x y, a.Variant x ∧ b.Variant y ∧ s = x ++ y := by
  rcases h with rfl | h
  · exact ⟨_, _, Or.inl rfl, Or.inl rfl, rfl⟩
  · rcases mem_ungroupings_append.1 h with ⟨x, hx, rfl⟩ | ⟨y, hy, rfl⟩
    · exact ⟨x, _, Or.inr hx, Or.inl rfl, rfl⟩
    · exact ⟨_, y, Or.inl rfl, Or.inr hy, rfl⟩

theorem Layout.variant_text {m s : String} (h : (text m).Variant s) : s = m := by
  rcases h with rfl | h
  · rfl
  · cases h

/-- What follows begins with a text of its own, however it goes on. -/
theorem Layout.variant_text_append {m : String} {l : Layout} {Q : List Char → Prop} (hQ : ∀ r, Q (m.toList ++ r)) :
    ∀ s, (text m ++ l).Variant s → ∀ r, Q (s.toList ++ r) := by
  intro s hs r
  obtain ⟨x, y, hx, -, rfl⟩ := variant_append hs
  rw [variant_text hx, String.toList_append, List.append_assoc]
  exact hQ _

namespace Fitted

open Layout

variable {R : Nat → Nat → Prop} {Q Q' : List Char → Prop} {l k : Layout} {n : Nat} {A B : Nesting} {m : String}

theorem mono (h : Fitted R Q l n A) (hQ : ∀ r, Q' r → Q r) : Fitted R Q' l n A := by
  obtain ⟨⟨f, hadds, hfits⟩, hparts⟩ := h
  refine ⟨⟨f, hadds.mono hQ, hfits⟩, fun s hs => ?_⟩
  obtain ⟨F, hF, havoids⟩ := hparts s hs
  exact ⟨F, hF.mono hQ, havoids⟩

theorem inStep (h : Fitted Anywhere Q l n A) : Fitted Eq Q l n A := by
  refine ⟨h.whole, fun s hs => ?_⟩
  obtain ⟨F, hF, havoids⟩ := h.parts s hs
  exact ⟨F, hF, havoids.inStep⟩

/-- A text that adds marks of its own. -/
theorem text (h : Adds Q m (flat n)) : Fitted R Q (.text m) 0 (.marks n) :=
  ⟨⟨fun d => List.replicate n d, h, fun _ => rfl⟩, nofun⟩

/-- One layout after another fits one form after the other. -/
theorem append (h : Fitted R Q l 0 A) (h' : Fitted R Q' k 0 B) (hQ : ∀ s, k.Variant s → ∀ r, Q' r → Q (s.toList ++ r)) :
    Fitted R Q' (l ++ k) 0 (A.seq B) := by
  obtain ⟨⟨f, hf, hfit⟩, hparts⟩ := h
  obtain ⟨⟨g, hg, hgit⟩, hparts'⟩ := h'
  have hsize : ∀ d, (f d).length = A.size := fun d => A.length_eq (hfit d)
  have hsize' : ∀ d, (g d).length = B.size := fun d => B.length_eq (hgit d)
  refine ⟨⟨fun d => f d ++ g d, hf.append hg (hQ _ (Or.inl rfl)), fun d => ⟨_, _, rfl, hfit d, hgit d⟩⟩, fun s hs => ?_⟩
  rcases mem_ungroupings_append.1 hs with ⟨x, hx, rfl⟩ | ⟨x, hx, rfl⟩
  · obtain ⟨F, hF, havoids⟩ := hparts x hx
    refine ⟨_, hF.append hg (hQ _ (Or.inl rfl)), fun d ds hds => ?_⟩
    obtain ⟨as, has, rfl⟩ : ∃ as, F d = some as ∧ as ++ g d = ds := by simpa [andThen, Option.bind_eq_some_iff] using hds
    obtain ⟨hlen, hnot⟩ := havoids d as has
    refine ⟨by rw [List.length_append, hlen, hsize' d]; rfl, fun d' hR hfits => ?_⟩
    exact hnot d' hR ((Nesting.fits_seq hlen).1 hfits).1
  · obtain ⟨F, hF, havoids⟩ := hparts' x hx
    refine ⟨_, hf.append hF (hQ _ (Or.inr hx)), fun d ds hds => ?_⟩
    obtain ⟨bs, hbs, rfl⟩ : ∃ bs, F d = some bs ∧ f d ++ bs = ds := by simpa [andThen, Option.map_eq_some_iff] using hds
    obtain ⟨hlen, hnot⟩ := havoids d bs hbs
    refine ⟨by rw [List.length_append, hlen, hsize d]; rfl, fun d' hR hfits => ?_⟩
    exact hnot d' hR ((Nesting.fits_seq (hsize d)).1 hfits).2

/-- Two forms with a mark between them that are only known to fit at the depth of the mark. -/
theorem around (h : Fitted Eq Q l 0 A) (h' : Fitted Eq Q' k 0 B) {Qm : List Char → Prop} (hm : Adds Qm m (flat n)) (hn : 0 < n)
    (hQ : ∀ r, Q (m.toList ++ r)) (hQm : ∀ s, k.Variant s → ∀ r, Q' r → Qm (s.toList ++ r)) :
    Fitted Anywhere Q' (l ++ (.text m ++ k)) 0 (A.seq ((Nesting.marks n).seq B)) := by
  obtain ⟨⟨f, hf, hfit⟩, hparts⟩ := h
  obtain ⟨⟨g, hg, hgit⟩, hparts'⟩ := h'
  have hsize : ∀ d, (f d).length = A.size := fun d => A.length_eq (hfit d)
  have hsize' : ∀ d, (g d).length = B.size := fun d => B.length_eq (hgit d)
  have hbegins : ∀ x, k.Variant x → ∀ r, Q' r → Q ((m ++ x).toList ++ r) := by
    intro x _ r _
    rw [String.toList_append, List.append_assoc]
    exact hQ _
  have hright := hm.append hg (hQm _ (Or.inl rfl))
  refine ⟨⟨fun d => f d ++ (List.replicate n d ++ g d), hf.append hright (hbegins _ (Or.inl rfl)),
    fun d => ⟨_, _, rfl, hfit d, _, _, rfl, rfl, hgit d⟩⟩, fun s hs => ?_⟩
  rcases mem_ungroupings_append.1 hs with ⟨x, hx, rfl⟩ | ⟨y, hy, rfl⟩
  · obtain ⟨F, hF, havoids⟩ := hparts x hx
    refine ⟨_, hF.append hright (hbegins _ (Or.inl rfl)), fun d ds hds => ?_⟩
    obtain ⟨as, has, rfl⟩ : ∃ as, F d = some as ∧ as ++ (List.replicate n d ++ g d) = ds := by
      simpa [andThen, flat, Option.bind_eq_some_iff] using hds
    obtain ⟨hlen, hnot⟩ := havoids d as has
    refine ⟨?_, fun d' _ hfits => ?_⟩
    · rw [List.length_append, List.length_append, hlen, hsize' d, List.length_replicate]
      rfl
    · exact hnot d rfl (Nesting.fits_around_mark hlen hn hfits).2.1
  · rcases mem_ungroupings_append.1 hy with ⟨_, hnil, _⟩ | ⟨y, hpart, rfl⟩
    · cases hnil
    · obtain ⟨F, hF, havoids⟩ := hparts' y hpart
      refine ⟨_, hf.append (hm.append hF (hQm _ (Or.inr hpart))) (hbegins _ (Or.inr hpart)), fun d ds hds => ?_⟩
      obtain ⟨bs, hbs, rfl⟩ : ∃ bs, F d = some bs ∧ f d ++ (List.replicate n d ++ bs) = ds := by
        simpa [andThen, flat, Option.map_eq_some_iff] using hds
      obtain ⟨hlen, hnot⟩ := havoids d bs hbs
      refine ⟨?_, fun d' _ hfits => ?_⟩
      · rw [List.length_append, List.length_append, hlen, hsize d, List.length_replicate]
        rfl
      · exact hnot d rfl (Nesting.fits_around_mark (hsize d) hn hfits).2.2

/-- A form may stand where it has room, or in the parentheses it comes with. -/
theorem inPlace {b : Prop} (h : Fitted Anywhere Q l n A) (hb : n = 0 → b) : Fitted Anywhere Q l 0 (A.operand b) := by
  obtain ⟨⟨f, hf, hfit⟩, hparts⟩ := h
  refine ⟨⟨f, hf, fun d => ⟨n, hb, hfit d⟩⟩, fun s hs => ?_⟩
  obtain ⟨F, hF, havoids⟩ := hparts s hs
  refine ⟨F, hF, fun d ds hds => ⟨(havoids d ds hds).1, ?_⟩⟩
  rintro d' - ⟨g, -, hfits⟩
  exact (havoids d ds hds).2 _ trivial hfits

/-- Parentheses that are always written are not taken away; only pairs inside them are. -/
theorem mem_ungroupings_enclosed {s : String} :
    s ∈ (Layout.text "(" ++ (l ++ Layout.text ")")).ungroupings ↔ ∃ x ∈ l.ungroupings, s = "(" ++ x ++ ")" := by
  simp [mem_ungroupings_append, String.append_assoc]

/-- Parentheses that are always written. -/
theorem paren (h : Fitted Anywhere Q l n A) (hQ : ∀ r, Q (')' :: r)) :
    Fitted Anywhere Q' (.text "(" ++ (l ++ .text ")")) (n + 1) A := by
  obtain ⟨⟨f, hf, hfit⟩, hparts⟩ := h
  refine ⟨⟨fun d => f (d + 1), ?_, fun d => ?_⟩, fun s hs => ?_⟩
  · have htext : Adds Q' ("(" ++ l.render ++ ")") fun d => some (f (d + 1)) := hf.enclosed hQ
    rw [String.append_assoc] at htext
    exact htext
  · rw [Nat.add_comm n 1, ← Nat.add_assoc]
    exact hfit (d + 1)
  · obtain ⟨x, hx, rfl⟩ := mem_ungroupings_enclosed.1 hs
    obtain ⟨F, hF, havoids⟩ := hparts x hx
    exact ⟨_, hF.enclosed hQ, fun d ds hds => havoids (d + 1) ds hds⟩

/-- A form in the parentheses of another. -/
theorem enclosed (h : Fitted Anywhere Q l 0 A) (hQ : ∀ r, Q (')' :: r)) :
    Fitted Anywhere Q' (.text "(" ++ (l ++ .text ")")) 0 A.enclosed := by
  have hparen : Fitted Anywhere Q' (.text "(" ++ (l ++ .text ")")) 1 A := h.paren hQ
  obtain ⟨hwhole, hparts⟩ := hparen
  refine ⟨hwhole, fun s hs => ?_⟩
  obtain ⟨F, hF, havoids⟩ := hparts s hs
  exact ⟨F, hF, fun d ds hds => ⟨(havoids d ds hds).1, fun d' _ => (havoids d ds hds).2 (d' + 1) trivial⟩⟩

end Fitted

/-! ## Expressions in their layouts -/

namespace Expr

/-- The parentheses that an expression always comes with. -/
def parens : Expr → Nat
  | .paren e => e.parens + 1
  | _ => 0

/-- The text of an expression fits its tree, and no ungrouping of it does. All of them begin as an operand does. -/
structure Laid (e : Expr) : Prop where
  fitted : Fitted Anywhere (Stops (!e.endsInNumber)) e.layout e.parens e.tree.nesting
  starts : ∀ s, e.layout.Variant s → startsOperand s = true

/-- What needs no parentheses in a place has room for its tree there. -/
theorem rank_le_of_not_looserThan {e : Expr} {k : Nat} (h : e.looserThan k = false) (hparens : e.parens = 0) : k ≤ e.tree.rank := by
  have hle : e.level.rank ≤ e.tree.rank := by
    cases e with
    | paren e => cases hparens
    | own t e => exact show BindingLevel.unary.rank ≤ BindingLevel.access.rank by decide
    | _ => exact Nat.le_refl _
  rw [looserThan, decide_eq_false_iff_not, Nat.not_lt] at h
  exact Nat.le_trans h hle

/-- What needs parentheses has a mark of its own, and comes with none. -/
theorem spec_of_looserThan {e : Expr} {k : Nat} (hwf : e.WellFormed false) (hk : k ≤ BindingLevel.access.rank)
    (h : e.looserThan k = true) : e.parens = 0 ∧ ¬ k ≤ e.tree.rank ∧ ∀ d ds, e.tree.nesting.Fits d ds → d ∈ ds := by
  rw [looserThan, decide_eq_true_eq] at h
  have haccess : BindingLevel.access.rank ≤ BindingLevel.primary.rank := access_le_primary
  cases e with
  | new t items =>
    refine ⟨rfl, Nat.not_le.2 h, fun d ds hfits => ?_⟩
    rw [tree, Tree.nesting] at hfits
    exact Nesting.mem_of_fits_mark (Nat.succ_pos _) hfits
  | unary op e =>
    refine ⟨rfl, Nat.not_le.2 h, fun d ds hfits => ?_⟩
    rw [tree, Tree.nesting] at hfits
    exact Nesting.mem_of_fits_mark Nat.one_pos hfits
  | binary op l r =>
    refine ⟨rfl, Nat.not_le.2 h, fun d ds hfits => ?_⟩
    rw [tree, Tree.nesting] at hfits
    exact Nesting.mem_of_fits_around_mark (length_symbol_pos op) hfits
  | conditional c t f =>
    refine ⟨rfl, Nat.not_le.2 h, fun d ds hfits => ?_⟩
    rw [tree, Tree.nesting] at hfits
    exact Nesting.mem_of_fits_around_mark Nat.one_pos hfits
  | own t e => cases hwf with | own howning => cases howning
  | _ => exact absurd (Nat.lt_of_lt_of_le h hk) (by simp only [level]; omega)

/-- Without its parentheses an operand would have a mark that is not deep enough. -/
theorem not_fits_inPlace {e : Expr} {k d : Nat} {ds : List Nat} (hwf : e.WellFormed false) (hk : k ≤ BindingLevel.access.rank)
    (hloose : e.looserThan k = true) (hfits : e.tree.nesting.Fits d ds) : ¬ (e.tree.inPlace k).Fits d ds := by
  rintro ⟨n, hbare, hdeep⟩
  obtain ⟨-, hrank, hmark⟩ := spec_of_looserThan hwf hk hloose
  have hpos : 0 < n := Nat.pos_of_ne_zero fun hn => hrank (hbare hn)
  have hle : d + n ≤ d := e.tree.nesting.le_of_mem hdeep d (hmark d ds hfits)
  omega

section

variable {e : Expr} {k : Nat} {F : Nat → Option (List Nat)}

/-- An operand that binds too loosely does not fit its place without parentheses. -/
theorem avoids_bare {f : Nat → List Nat} (hwf : e.WellFormed false) (hk : k ≤ BindingLevel.access.rank)
    (hloose : e.looserThan k = true) (hfit : ∀ d, e.tree.nesting.Fits d (f d)) :
    Avoids Eq (e.tree.inPlace k) fun d => some (f d) := by
  intro d ds hds
  obtain rfl := Option.some.inj hds
  refine ⟨e.tree.nesting.length_eq (hfit d), ?_⟩
  rintro _ rfl
  exact not_fits_inPlace hwf hk hloose (hfit d)

/-- What does not fit a form does not fit it in any place. -/
theorem avoids_inPlace {R : Nat → Nat → Prop} (h : Avoids Anywhere e.tree.nesting F) : Avoids R (e.tree.inPlace k) F := by
  refine fun d ds hds => ⟨(h d ds hds).1, ?_⟩
  rintro d' - ⟨n, -, hfits⟩
  exact (h d ds hds).2 _ trivial hfits

/-- The texts of an operand in parentheses that are not always written: with them it fits, without them or with others left out
in it, it does not. -/
theorem Laid.grouped (h : e.Laid) (k : Nat) :
    ∃ f : Nat → List Nat, Adds (Stops (!e.endsInNumber)) e.layout.render (fun d => some (f d)) ∧
      (∀ d, e.tree.nesting.Fits (d + e.parens) (f d)) ∧
      Adds (Stops (!e.endsInNumber)) ("(" ++ e.layout.render ++ ")") (fun d => some (f (d + 1))) ∧
      (∀ d, (e.tree.inPlace k).Fits d (f (d + 1))) ∧
      ∀ s ∈ e.layout.ungroupings,
        ∃ F, Adds (Stops (!e.endsInNumber)) ("(" ++ s ++ ")") F ∧ Avoids Anywhere (e.tree.inPlace k) F := by
  obtain ⟨⟨f, hf, hfit⟩, hparts⟩ := h.fitted
  have hstop : ∀ r, Stops (!e.endsInNumber) (')' :: r) := stops_cons (by decide)
  refine ⟨f, hf, hfit, hf.enclosed hstop, fun d => ⟨1 + e.parens, by omega, ?_⟩, fun s hs => ?_⟩
  · rw [← Nat.add_assoc]
    exact hfit (d + 1)
  · obtain ⟨F, hF, havoids⟩ := hparts s hs
    exact ⟨_, hF.enclosed hstop, avoids_inPlace fun d ds hds => havoids (d + 1) ds hds⟩

end

/-- An operand stands in parentheses where it has to. -/
theorem Laid.operand {e : Expr} {k : Nat} (h : e.Laid) (hwf : e.WellFormed false) (hk : k ≤ BindingLevel.access.rank) :
    Fitted Eq (Stops (!e.endsInNumber)) (.operand (e.looserThan k) e.layout) 0 (e.tree.inPlace k) := by
  cases hloose : e.looserThan k with
  | false => exact (h.fitted.inPlace (rank_le_of_not_looserThan hloose)).inStep
  | true =>
    obtain ⟨f, hf, hfit, hgrouped, hgroupedFit, hparts⟩ := h.grouped k
    rw [(spec_of_looserThan hwf hk hloose).1] at hfit
    refine ⟨⟨fun d => f (d + 1), hgrouped, hgroupedFit⟩, fun s hs => ?_⟩
    rcases Layout.mem_ungroupings_grouped.1 hs with rfl | ⟨x, hx, rfl⟩
    · exact ⟨_, hf, avoids_bare hwf hk hloose hfit⟩
    · obtain ⟨F, hF, havoids⟩ := hparts x hx
      exact ⟨F, hF, havoids.inStep⟩

/-- A mark in front pins the depth down, so what does not fit at that depth fits nowhere. -/
theorem avoids_after_mark {A : Nesting} {F : Nat → Option (List Nat)} (h : Avoids Eq A F) :
    Avoids Anywhere ((Nesting.marks 1).seq A) (andThen (flat 1) F) := by
  intro d ds hds
  obtain ⟨bs, hbs, rfl⟩ : ∃ bs, F d = some bs ∧ d :: bs = ds := by simpa [andThen, flat, Option.map_eq_some_iff] using hds
  obtain ⟨hlen, hnot⟩ := h d bs hbs
  refine ⟨by rw [List.length_cons, hlen, Nat.add_comm]; rfl, fun d' _ hfits => ?_⟩
  have hone : [d].length = (Nesting.marks 1).size := rfl
  obtain ⟨hmark, hrest⟩ := (Nesting.fits_seq hone).1 hfits
  obtain rfl : d = d' := (List.cons.inj hmark).1
  exact hnot d rfl hrest

/-- A text that may be unreadable only has to be looked at where it is not. -/
theorem avoids_ite {R : Nat → Nat → Prop} {A : Nesting} {F : Nat → Option (List Nat)} {b : Prop} [Decidable b]
    (h : ¬ b → Avoids R A F) : Avoids R A fun d => if b then none else F d := by
  intro d ds hds
  split at hds
  · cases hds
  · next hb => exact h hb d ds hds

/-- An operand that a prefix operator takes as it is. -/
theorem Laid.prefixed_bare {e : Expr} {op : PrefixOp} (h : e.Laid) (hloose : e.looserThan BindingLevel.unary.rank = false)
    (happart : ¬ (op = .operator .neg ∧ e.layout.render.toList.head? = some '-')) :
    Fitted Anywhere (Stops (!e.endsInNumber)) (.text op.symbol ++ e.layout) 0
      ((Nesting.marks 1).seq (e.tree.inPlace BindingLevel.unary.rank)) := by
  obtain ⟨⟨f, hf, hfit⟩, hparts⟩ := h.fitted
  have hbare : ∀ d, (e.tree.inPlace BindingLevel.unary.rank).Fits d (f d) :=
    fun d => ⟨e.parens, rank_le_of_not_looserThan hloose, hfit d⟩
  refine ⟨⟨fun d => d :: f d, ?_, fun d => ⟨[d], f d, rfl, rfl, hbare d⟩⟩, fun s hs => ?_⟩
  · have hadds := hf.prefixed op (h.starts _ (Or.inl rfl))
    simp only [happart, if_false] at hadds
    exact hadds
  · rcases Layout.mem_ungroupings_append.1 hs with ⟨_, hnil, _⟩ | ⟨x, hx, rfl⟩
    · cases hnil
    · obtain ⟨F, hF, havoids⟩ := hparts x hx
      exact ⟨_, hF.prefixed op (h.starts x (Or.inr hx)), avoids_ite fun _ => avoids_after_mark (avoids_inPlace havoids)⟩

/-- An operand that stands in parentheses after a prefix operator: it binds too loosely, or two minuses would run together. -/
theorem Laid.prefixed_grouped {e : Expr} {op : PrefixOp} (h : e.Laid) (hwf : e.WellFormed false)
    (hneeded : ¬ (op = .operator .neg ∧ e.layout.render.toList.head? = some '-') → e.looserThan BindingLevel.unary.rank = true) :
    Fitted Anywhere (Stops (!e.endsInNumber)) (.text op.symbol ++ .grouped e.layout) 0
      ((Nesting.marks 1).seq (e.tree.inPlace BindingLevel.unary.rank)) := by
  have hunary : BindingLevel.unary.rank ≤ BindingLevel.access.rank := by decide
  have hstart : ∀ s, startsOperand ("(" ++ s ++ ")") = true := fun s => startsOperand_append (startsOperand_append (by decide))
  obtain ⟨f, hf, hfit, hgrouped, hgroupedFit, hparts⟩ := h.grouped BindingLevel.unary.rank
  refine ⟨⟨fun d => d :: f (d + 1), ?_, fun d => ⟨[d], f (d + 1), rfl, rfl, hgroupedFit d⟩⟩, fun s hs => ?_⟩
  · have hadds := hgrouped.prefixed op (hstart _)
    have happart : ¬ (op = .operator .neg ∧ ("(" ++ e.layout.render ++ ")").toList.head? = some '-') := by simp
    simp only [happart, if_false] at hadds
    exact hadds
  · rcases Layout.mem_ungroupings_append.1 hs with ⟨_, hnil, _⟩ | ⟨y, hy, rfl⟩
    · cases hnil
    · rcases Layout.mem_ungroupings_grouped.1 hy with rfl | ⟨x, hx, rfl⟩
      · refine ⟨_, hf.prefixed op (h.starts _ (Or.inl rfl)), avoids_ite fun happart => avoids_after_mark ?_⟩
        have hloose := hneeded happart
        rw [(spec_of_looserThan hwf hunary hloose).1] at hfit
        exact avoids_bare hwf hunary hloose hfit
      · obtain ⟨F, hF, havoids⟩ := hparts x hx
        exact ⟨_, hF.prefixed op (hstart x), avoids_ite fun _ => avoids_after_mark havoids.inStep⟩

/-- A prefix operator before an operand, with or without parentheses. -/
theorem Laid.prefixed {e : Expr} (op : PrefixOp) (h : e.Laid) (hwf : e.WellFormed false) :
    Fitted Anywhere (Stops (!e.endsInNumber)) (Expr.unary op e).layout 0 (Tree.unary op e.tree).nesting := by
  have hlayout : (Expr.unary op e).layout = .text op.symbol ++
      .operand (e.looserThan BindingLevel.unary.rank || op == .operator .neg && e.render.toList.head? == some '-') e.layout := rfl
  rw [hlayout, Tree.nesting]
  cases hwanted : (e.looserThan BindingLevel.unary.rank || op == .operator .neg && e.render.toList.head? == some '-') with
  | false =>
    rw [Bool.or_eq_false_iff] at hwanted
    refine h.prefixed_bare hwanted.1 ?_
    rw [render_layout]
    simpa using hwanted.2
  | true =>
    refine h.prefixed_grouped hwf fun happart => ?_
    rw [render_layout] at happart
    rcases Bool.or_eq_true_iff.1 hwanted with hloose | hminus
    · exact hloose
    · exact absurd (by simpa using hminus) happart

end Expr

/-! ## Every form -/

namespace Expr

open Layout

/-- All texts of a layout begin as an operand does. -/
def Starts (l : Layout) : Prop := ∀ s, l.Variant s → startsOperand s = true

/-- A text that may stand after an operator does so in all its variants. -/
theorem starts_text {m : String} (h : startsOperand m = true) : Starts (text m) := by
  intro s hs
  rwa [variant_text hs]

theorem Starts.append {a : Layout} (h : Starts a) (b : Layout) : Starts (a ++ b) := by
  intro s hs
  obtain ⟨x, y, hx, -, rfl⟩ := variant_append hs
  exact startsOperand_append (h x hx)

theorem Starts.operand {l : Layout} (h : Starts l) (wanted : Bool) : Starts (operand wanted l) := by
  have hparen : ∀ s, startsOperand ("(" ++ s ++ ")") = true := fun s => startsOperand_append (startsOperand_append (by decide))
  cases wanted with
  | false => exact h
  | true =>
    rintro s (rfl | hs)
    · exact hparen _
    · rcases mem_ungroupings_grouped.1 hs with rfl | ⟨x, -, rfl⟩
      · exact h _ (Or.inl rfl)
      · exact hparen x

/-- A form without operands. -/
theorem laid_text {e : Expr} {n : Nat} (hwf : e.WellFormed false) (hlayout : e.layout = text e.render) (hparens : e.parens = 0)
    (hnesting : e.tree.nesting = .marks n) (hadds : Adds (Stops (!e.endsInNumber)) e.render (flat n)) : e.Laid := by
  obtain ⟨_, -, -, hstart⟩ := hwf.rendered
  refine ⟨?_, ?_⟩
  · rw [hlayout, hparens, hnesting]
    exact Fitted.text hadds
  · rw [hlayout]
    exact starts_text hstart

/-- Where every expression has room, no parentheses are needed. -/
theorem Laid.anyPlace {e : Expr} (h : e.Laid) : Fitted Anywhere (Stops (!e.endsInNumber)) e.layout 0 (e.tree.inPlace 0) :=
  h.fitted.inPlace fun _ => Nat.zero_le _

/-- A list fits the nesting of its items. -/
theorem fitted_list {es : List Expr} (h : ∀ e ∈ es, e.Laid) :
    Fitted Anywhere (Stops false) (layoutList es) 0 (nestings (trees es)) := by
  induction es with
  | nil => exact Fitted.text fun r _ d => by simp [flat]
  | cons e es ih =>
    rw [List.forall_mem_cons] at h
    have he : Fitted Anywhere (Stops false) e.layout 0 (e.tree.inPlace 0) := h.1.anyPlace.mono fun _ => Stops.mono
    cases es with
    | nil => exact he
    | cons e' es =>
      have hrest := (Fitted.text (Q := fun _ => True) adds_comma).append (ih h.2) fun _ _ _ _ => trivial
      exact he.append hrest fun s hs r _ => variant_text_append (fun r => stops_cons (by decide) _) s hs r

/-- Parentheses that are part of the expression are not marked. -/
theorem laid_paren {e : Expr} (h : e.Laid) : (paren e).Laid :=
  ⟨h.fitted.paren (stops_cons (by decide)), (starts_text (by decide)).append _⟩

/-- A call needs no pair but those of its parts. -/
theorem laid_call {f : Expr} {args : List Expr} (hbare : f.looserThan BindingLevel.access.rank = false) (hf : f.Laid)
    (hargs : ∀ a ∈ args, a.Laid) : (call f args).Laid := by
  have hcallee := hf.fitted.inPlace (rank_le_of_not_looserThan hbare)
  have hlist : Fitted Anywhere (Stops true) (text "(" ++ (layoutList args ++ text ")")) 0 (nestings (trees args)).enclosed :=
    (fitted_list hargs).enclosed (stops_cons (by decide))
  have hlayout : (call f args).layout = f.layout ++ (text "(" ++ (layoutList args ++ text ")")) := by
    rw [layout, hbare]
    rfl
  refine ⟨?_, ?_⟩
  · rw [hlayout]
    exact hcallee.append hlist fun s hs r _ => variant_text_append (fun r => stops_cons (by decide) _) s hs r
  · rw [hlayout]
    exact Starts.append hf.starts _

/-- The member of an access, and that its name begins as a word. -/
theorem fitted_member {m : String} (hm : IsIdentifier m) :
    Fitted Eq (Stops true) (text m) 0 (.marks (marksIn m)) ∧
      ∀ s, (text m).Variant s → ∀ r, Stops true r → BeginsWord (s.toList ++ r) := by
  refine ⟨Fitted.text ((adds_word hm.1).mono fun _ => Stops.endsWord), fun s hs r _ => ?_⟩
  rw [variant_text hs]
  exact isWordStart_head hm.1 r

/-- The object of an arrow is grouped only where it binds too loosely. -/
theorem laid_arrow {e : Expr} {m : String} (hm : IsIdentifier m) (hwf : e.WellFormed false) (h : e.Laid) : (arrow e m).Laid := by
  obtain ⟨hmember, hword⟩ := fitted_member hm
  have hobject := h.operand hwf (Nat.le_refl _)
  exact ⟨hobject.around hmember adds_arrow Nat.two_pos (fun r => stops_cons (by decide) _) hword,
    (Starts.operand h.starts _).append _⟩

theorem laid_dot {e : Expr} {m : String} (hm : IsIdentifier m) (hend : e.endsInNumber = false) (hwf : e.WellFormed false)
    (h : e.Laid) : (dot e m).Laid := by
  obtain ⟨hmember, hword⟩ := fitted_member hm
  have hobject := h.operand hwf (Nat.le_refl _)
  have hpoint : ∀ r, Stops (!e.endsInNumber) (".".toList ++ r) := by
    intro r d hd
    rw [hend]
    exact Or.inr ⟨rfl, by simpa using hd.symm⟩
  exact ⟨hobject.around hmember adds_dot Nat.one_pos hpoint hword, (Starts.operand h.starts _).append _⟩

/-- What stands in brackets or braces, with the one that closes them. -/
theorem fitted_closed {l : Layout} {A : Nesting} {point : Bool} {p : Punct} {s : String} (h : Fitted Anywhere (Stops point) l 0 A)
    (hs : s.toList = p.chars) (hp : p = .rbracket ∨ p = .rbrace) :
    Fitted Anywhere (Stops true) (l ++ text s) 0 (A.seq (.marks 1)) := by
  have hclose : Adds (Stops true) s (flat 1) := by
    rcases hp with rfl | rfl
    · exact adds_separator hs (by decide) rfl
    · exact adds_separator hs (by decide) rfl
  refine h.append (Fitted.text hclose) fun x hx r _ => ?_
  rw [variant_text hx, hs]
  rcases hp with rfl | rfl
  · exact stops_cons (by decide) r
  · exact stops_cons (by decide) r

/-- So is what is indexed; the index stands in brackets. -/
theorem laid_index {e i : Expr} (hwf : e.WellFormed false) (h : e.Laid) (hi : i.Laid) : (index e i).Laid := by
  have hobject := h.operand hwf (Nat.le_refl _)
  have hrest := fitted_closed (s := "]") hi.anyPlace rfl (Or.inl rfl)
  have hopen : Adds (fun _ => True) "[" (flat 1) := adds_separator (p := .lbracket) rfl (by decide) rfl
  exact ⟨hobject.around hrest.inStep hopen Nat.one_pos (fun r => stops_cons (by decide) _) fun _ _ _ _ => trivial,
    (Starts.operand h.starts _).append _⟩

/-- The items of a new object stand in braces. -/
theorem laid_new {t : Ty} {items : List Expr} (ht : t.WellNamed) (h : ∀ e ∈ items, e.Laid) : (new t items).Laid := by
  have hrest := fitted_closed (s := "\x7d") (fitted_list h) rfl (Or.inr rfl)
  exact ⟨(Fitted.text (Q := fun _ => True) (adds_new ht)).append hrest fun _ _ _ _ => trivial,
    (starts_text (startsOperand_append (startsOperand_append (by decide)))).append _⟩

/-- The operand of a prefix operator is grouped where it binds too loosely, and where two minuses would run together. -/
theorem laid_unary {e : Expr} (op : PrefixOp) (hwf : e.WellFormed false) (h : e.Laid) : (unary op e).Laid := by
  have hop : startsOperand op.symbol = true := by
    cases op with
    | operator op => cases op <;> decide
    | deref => decide
  exact ⟨h.prefixed op hwf, (starts_text hop).append _⟩

/-- Each operand of a binary operator is grouped only where it binds too loosely for its side. -/
theorem laid_binary {l r : Expr} (op : BinaryOp) (hl : l.WellFormed false) (hr : r.WellFormed false) (ihl : l.Laid) (ihr : r.Laid) :
    (binary op l r).Laid := by
  have hlevel : op.level.rank ≤ BindingLevel.access.rank ∧ op.level.rank + 1 ≤ BindingLevel.access.rank := by cases op <;> decide
  have hblank : ∀ r, Stops (!l.endsInNumber) ((" " ++ op.symbol ++ " ").toList ++ r) := by
    intro r
    rw [String.append_assoc, String.toList_append, List.append_assoc]
    exact stops_cons (by decide) _
  exact ⟨(ihl.operand hl hlevel.1).around (ihr.operand hr hlevel.2) (adds_op (Q := fun _ => True) op) (length_symbol_pos op) hblank
    fun _ _ _ _ => trivial, (Starts.operand ihl.starts _).append _⟩

/-- The parts of a conditional are not grouped by the printer. -/
theorem laid_conditional {c t f : Expr} (hc : c.Laid) (ht : t.Laid) (hf : f.Laid) : (conditional c t f).Laid := by
  have helse := (Fitted.text (Q := fun _ => True) adds_colon).append hf.anyPlace fun _ _ _ _ => trivial
  have hthen := ht.anyPlace.append helse fun s hs r _ => variant_text_append (fun r => stops_cons (by decide) _) s hs r
  have hrest := (Fitted.text (Q := fun _ => True) adds_question).append hthen fun _ _ _ _ => trivial
  exact ⟨hc.anyPlace.append hrest fun s hs r _ => variant_text_append (fun r => stops_cons (by decide) _) s hs r,
    Starts.append hc.starts _⟩

/-- The operand of a cast stands in parentheses that belong to it. -/
theorem Laid.castOperand {e : Expr} (h : e.Laid) :
    Fitted Anywhere (Stops true) (text "(" ++ (e.layout ++ text ")")) 0 (e.tree.inPlace 0).enclosed :=
  h.anyPlace.enclosed (stops_cons (by decide))

/-- The operand of a cast stands in the parentheses of the cast. -/
theorem laid_staticCast {t : Ty} {e : Expr} (ht : t.WellNamed) (h : e.Laid) : (staticCast t e).Laid := by
  have htext : joinWords ["static_cast"] ++ "<" ++ t.render ++ ">" = "static_cast<" ++ t.render ++ ">" := by
    rw [show joinWords ["static_cast"] ++ "<" = "static_cast<" by decide]
  have hcount : marksIn (joinWords ["static_cast"]) = 0 := by decide
  have hcast := adds_template ["static_cast"] (by decide) ht
  rw [htext, hcount, Nat.zero_add] at hcast
  exact ⟨(Fitted.text hcast).append h.castOperand fun s hs r _ => variant_text_append (fun r => endsType_cons (by decide) _) s hs r,
    (starts_text (startsOperand_append (startsOperand_append (by decide)))).append _⟩

theorem laid_staticPointerCast {t : Ty} {e : Expr} (ht : t.WellNamed) (h : e.Laid) : (staticPointerCast t e).Laid := by
  have hname : joinWords ["std", "static_pointer_cast"] = "std::static_pointer_cast" := by decide
  have htext : "std::static_pointer_cast" ++ "<" ++ t.render ++ ">" = "std::static_pointer_cast<" ++ t.render ++ ">" := by
    rw [show "std::static_pointer_cast" ++ "<" = "std::static_pointer_cast<" by decide]
  have hcast := adds_template ["std", "static_pointer_cast"] (by decide) ht
  rw [hname, htext] at hcast
  have hcallee : Fitted Anywhere EndsType (text ("std::static_pointer_cast<" ++ t.render ++ ">")) 0
      ((Tree.template "std::static_pointer_cast" t).inPlace BindingLevel.access.rank) :=
    (Fitted.text hcast).inPlace fun _ => access_le_primary
  exact ⟨hcallee.append h.castOperand fun s hs r _ => variant_text_append (fun r => endsType_cons (by decide) _) s hs r,
    (starts_text (startsOperand_append (startsOperand_append (by decide)))).append _⟩

/-- A well-formed expression that owns nothing fits its tree, and no ungrouping of it does. -/
theorem laid {e : Expr} (h : e.WellFormed false) : e.Laid := by
  induction h with
  | int n s =>
    exact laid_text (.int n s) rfl rfl rfl (Adds.of_token (t := .number _) rfl fun r hr => lex_int n s hr.endsNumber)
  | float d => exact laid_text (.float d) rfl rfl rfl (Adds.of_token (t := .number _) rfl fun r hr => lex_float d hr.endsNumber)
  | bool b =>
    have hmarks : marksIn (if b then "true" else "false") = 0 := by cases b <;> decide
    have hadds := Adds.of_token (t := .word _) rfl (Renders.lexes_bool b)
    rw [Token.marks, hmarks] at hadds
    exact laid_text (.bool b) rfl rfl rfl hadds
  | string style bytes =>
    exact laid_text (.string style bytes) rfl rfl rfl (Adds.of_token (t := .string _) rfl (Renders.lexes_string style bytes))
  | name hn =>
    have hwf : WellFormed false (.name _) := .name hn
    obtain ⟨ws, hws, -, -, rfl⟩ := hn
    exact laid_text hwf rfl rfl rfl ((adds_name hws).mono fun _ => Stops.endsWord)
  | limit hm => exact laid_text (.limit hm) rfl rfl rfl ((adds_limit hm).mono fun _ => Stops.endsWord)
  | paren _ ih => exact laid_paren ih
  | call hbare _ _ ihf ihargs => exact laid_call hbare ihf ihargs
  | arrow hm hwf ih => exact laid_arrow hm hwf ih
  | dot hm hend hwf ih => exact laid_dot hm hend hwf ih
  | index hwf _ ihe ihi => exact laid_index hwf ihe ihi
  | staticCast ht _ ih => exact laid_staticCast ht ih
  | staticPointerCast ht _ ih => exact laid_staticPointerCast ht ih
  | new ht _ ih => exact laid_new ht ih
  | own howning _ _ _ => cases howning
  | unary op hwf ih => exact laid_unary op hwf ih
  | binary op hl hr ihl ihr => exact laid_binary op hl hr ihl ihr
  | conditional _ _ _ _ ihc iht ihf => exact laid_conditional ihc iht ihf

/-- Without one of the pairs of parentheses around its operands, the text of an expression does not fit its tree. -/
theorem not_fits_ungrouping {e : Expr} {s : String} (h : e.WellFormed false) (hs : s ∈ e.layout.ungroupings) :
    ¬ ∃ ds, (e.tree.inPlace 0).Fits 0 ds ∧ profile 0 s.toList = some ds := by
  rintro ⟨ds, ⟨n, -, hfits⟩, hprofile⟩
  obtain ⟨F, hadds, havoids⟩ := (laid h).fitted.parts s hs
  have hwhole := hadds [] nofun 0
  rw [List.append_nil, hprofile] at hwhole
  obtain ⟨as, has, hrest⟩ := Option.bind_eq_some_iff.1 hwhole.symm
  have hend : profile 0 [] = some [] := by
    rw [profile, lex_nil]
    rfl
  rw [hend, Option.map_some, List.append_nil] at hrest
  obtain rfl := Option.some.inj hrest
  exact (havoids 0 as has).2 (0 + n) trivial hfits

/-- So it is not read as its tree. -/
theorem read_ungrouping_ne {e : Expr} {s : String} (h : e.WellFormed false) (hs : s ∈ e.layout.ungroupings) :
    read s ≠ some e.tree :=
  fun hread => not_fits_ungrouping h hs (fits_of_read hread)

/-- Nor is it with every qualified name taken for one word. -/
theorem readJoined_ungrouping_ne {e : Expr} {s : String} (h : e.WellFormed false) (hs : s ∈ e.layout.ungroupings) :
    readJoined s ≠ some e.tree :=
  fun hread => not_fits_ungrouping h hs (fits_of_readJoined hread)

end Expr

end ExprToCpp.Cpp
