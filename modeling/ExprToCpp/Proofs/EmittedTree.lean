import ExprToCpp.Proofs.IntegerLiteral
import ExprToCpp.Proofs.KeywordClasses
import ExprToCpp.Proofs.Rounding
import ExprToCpp.Proofs.StringObject

/-!
# Emitted text reads back as what it stands for

The text of an expression is read as the tree it is written for, node by node, and the literals in that tree have the values of the
literals of the expression. It is not read at all if a class is called as a keyword is and stands next to `::`. Main statement:
`read_emit`.
-/

namespace ExprToCpp

open Cpp

/-! ## The values of literals -/

namespace Cpp.Tree

/-- A minus in front of a tree, if there is one. -/
def signed (negative : Bool) (t : Tree) : Tree := if negative then .unary (.operator .neg) t else t

/-- A string object: a literal, and perhaps the number of bytes to take from it. -/
def stringObject (bytes : List UInt8) : Option Nat → Tree
  | none => .call (.name "std::string") [.string bytes]
  | some n => .call (.name "std::string") [.string bytes, .int n .plain]

end Cpp.Tree

/-- A tree has the value of a float: a NaN and the infinities are the library's, and any other float is a number that rounds to it. -/
def Binary64.IsValueOf (x : Binary64) (t : Tree) : Prop :=
  if x.isNaN then t = .call (.name "std::numeric_limits<double>::quiet_NaN") []
  else if x.isFinite then ∃ q, x.IsNearest q ∧ t = Tree.signed x.isNegative (.float q)
  else t = Tree.signed x.isNegative (.call (.name "std::numeric_limits<double>::infinity") [])

/-- A tree has the value of a literal: an integer by exact arithmetic, a float by rounding, a string by the bytes of the object that is
made. What is no literal has no value here. -/
def Expr.HasLiteralValue : Expr → Tree → Prop
  | .int n, t => t.exactValue? = some n
  | .float x, t => x.IsValueOf t
  | .bool b, t => t = .bool b
  | .str s, t => ∃ bytes length, t = Tree.stringObject bytes length ∧ constructedBytes bytes length = Escape.utf8 s
  | .bytes bs, t => ∃ bytes length, t = Tree.stringObject bytes length ∧ constructedBytes bytes length = bs
  | _, _ => True

theorem tree_signed (negative : Bool) (c : Cpp.Expr) : (Cpp.Expr.signed negative c).tree = Tree.signed negative c.tree := by
  cases negative <;> rfl

/-- The tree of a string object. -/
theorem tree_stringObject (style : Escape.Style) (bytes : List UInt8) (withLength : Bool) :
    (Cpp.Expr.stringObject style bytes withLength).tree =
      Tree.stringObject bytes (if withLength then some bytes.length else none) := by
  cases withLength <;> rfl

/-- The literal of a float has its value: a decimal is written that rounds to it. -/
theorem isValueOf_ofBinary64 (x : Binary64) : x.IsValueOf (Cpp.Expr.ofBinary64 x).tree := by
  unfold Binary64.IsValueOf Cpp.Expr.ofBinary64
  split_ifs with hnan hfinite
  · rfl
  · exact ⟨_, Binary64.isNearest_shortest hfinite, tree_signed _ _⟩
  · exact tree_signed _ _

/-- What stands for a literal has its value. -/
theorem hasLiteralValue_of_lowers {Γ : Context} {e : Expr} {c : Cpp.Expr} (h : Lowers Γ e c) : e.HasLiteralValue c.tree := by
  cases h with
  | int n => exact Cpp.Expr.exactValue?_ofInt n
  | float x => exact isValueOf_ofBinary64 x
  | bool b => rfl
  | str s =>
    refine ⟨Escape.utf8 s, givenLength (Escape.utf8 s), ?_, constructedBytes_givenLength _⟩
    rw [Cpp.Expr.ofString, tree_stringObject, givenLength_eq]
  | bytes bs => exact ⟨bs, some bs.length, tree_stringObject .raw bs true, List.take_length⟩
  | _ => trivial

/-! ## The tree of a text -/

/-- The text emitted for an expression is that of one C++ expression. So is every part of the expression one C++ expression, and where
the part is a literal, this has its value. The text is read, whole, as the tree of the C++ expression, unless some part names a class
next to `::` that is called as a keyword is; then it is not read. -/
theorem read_emit (T : TypeTable) (config : Config) (e : Expr) (text : String) (hT : T.WellNamed) (hconfig : config.WellNamed)
    (he : e.WellNamed) (h : (e.emit ⟨T.toTyping, config⟩).outcome = .ok text) :
    ∃ c, (∀ c', Lowers ⟨T.toTyping, config⟩ e c' ↔ c' = c) ∧
      (∀ x, x.IsPartOf e → ∃ d, (∀ d', Lowers ⟨T.toTyping, config⟩ x d' ↔ d' = d) ∧ x.HasLiteralValue d.tree) ∧
      ((∀ x, x.IsPartOf e → Context.Scoped ⟨T.toTyping, config⟩ x) → Cpp.read text = some c.tree) ∧
      ((∃ x, x.IsPartOf e ∧ ¬Context.Scoped ⟨T.toTyping, config⟩ x) → Cpp.read text = none) := by
  obtain ⟨c, hunique, rfl⟩ := exists_lowers_of_emit h
  have hlowers := (hunique c).2 rfl
  have hrendered := rendered_of_lowers hT hconfig he hlowers
  have hscoped := scoped_tree_iff_of_lowers hT hconfig he hlowers
  refine ⟨c, hunique, fun x hx => ?_, fun hparts => ?_, fun ⟨x, hx, hnot⟩ => ?_⟩
  · obtain ⟨d, hd⟩ := exists_lowers_part hlowers hx
    exact ⟨d, hd.iff_eq, hasLiteralValue_of_lowers hd⟩
  · exact hrendered.read_render (hscoped.2 hparts)
  · exact hrendered.read_render_eq_none fun htree => hnot (hscoped.1 htree x hx)

/-- A remainder by a float is read as a call with a number that rounds to the float; a label of an enumeration is not read if the class
around it is called as the type of wide characters. -/
theorem read_emit_remainder_and_wide_label :
    (∃ q, Binary64.IsNearest ⟨0x3FF8000000000000⟩ q ∧
      Cpp.read "std::fmod(a(), 1.5)" = some (.call (.name "std::fmod") [.call (.name "a") [], .float q])) ∧
      Cpp.read "wchar_t::KIND_WIDE" = none := by
  have hT : (({} : TypeTable).declareName "a" (.int ⟨true, .four⟩)).WellNamed := by
    refine ⟨fun n t h => ?_, nofun⟩
    rw [TypeTable.nameType?_declareName] at h
    split at h
    · cases h
      trivial
    · cases h
  have hconfig : Config.conservative.WellNamed := ⟨["kaitai", "kstream"], by simp, by simp [IsIdentifier]; decide, rfl⟩
  constructor
  · obtain ⟨c, hunique, hliterals, hread, -⟩ := read_emit _ .conservative (.binary .mod (.name "a") (.float ⟨0x3FF8000000000000⟩))
      "std::fmod(a(), 1.5)" hT hconfig (.binary (.name (by decide)) (.float _)) (by decide +kernel)
    obtain rfl := (hunique _).1 ((outcome_lower_iff _ _ _).1 rfl)
    obtain ⟨d, hd, hvalue⟩ := hliterals (.float ⟨0x3FF8000000000000⟩) (.child (by simp) .self)
    obtain rfl := (hd _).1 (.float _)
    obtain ⟨q, hq, hfloat⟩ := hvalue
    have htree : (Cpp.Expr.ofBinary64 ⟨0x3FF8000000000000⟩).tree = .float q := hfloat
    refine ⟨q, hq, ?_⟩
    rw [hread ?_, ← htree]
    · rfl
    · rintro x (_ | ⟨hy, hx⟩)
      · trivial
      · simp only [Expr.children, List.mem_cons, List.not_mem_nil, or_false] at hy
        rcases hy with rfl | rfl <;> rcases hx with _ | ⟨hy, _⟩ <;> trivial
  · obtain ⟨c, -, -, -, hnone⟩ := read_emit _ .conservative (.enumLabel ⟨["wchar"], "kind"⟩ "wide") "wchar_t::KIND_WIDE" hT hconfig
      (.enumLabel ⟨by decide, by decide⟩ (by decide)) (by decide +kernel)
    refine hnone ⟨_, .self, ?_⟩
    unfold Context.Scoped
    decide

end ExprToCpp
