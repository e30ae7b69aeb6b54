import ExprToCpp.Proofs.Cpp.RoundTrip

/-!
# Well-formed C++ expressions

The expressions whose names, members and types C++ reads as such, whose callees need no parentheses, and whose members are not taken
of a number. What lowering builds is of this kind, and everything of this kind is written so that it reads back
(`WellFormed.rendered`).
-/

namespace ExprToCpp.Cpp

open Reader

namespace Expr

/-- Whether the text of an expression may end in a number, which a point after it would extend. -/
def endsInNumber : Expr → Bool
  | .int _ _ | .float _ => true
  | .unary _ e => e.endsInNumber
  | .binary _ _ r => r.endsInNumber
  | .conditional _ _ f => f.endsInNumber
  | _ => false

theorem isNumber_eq_false {e : Expr} (h : e.endsInNumber = false) : e.isNumber = false := by
  cases e with
  | int | float => cases h
  | _ => rfl

/-- A well-formed expression; `owning` says whether it may own what it makes. -/
inductive WellFormed (owning : Bool) : Expr → Prop where
  | int (n : Nat) (s : IntSuffix) : WellFormed owning (.int n s)
  | float (d : Decimal) : WellFormed owning (.float d)
  | bool (b : Bool) : WellFormed owning (.bool b)
  | string (style : Escape.Style) (bytes : List UInt8) : WellFormed owning (.string style bytes)
  | name {n : String} : IsValueName n → WellFormed owning (.name n)
  /-- The values without digits that the library gives. -/
  | limit {m : String} : IsIdentifier m → WellFormed owning (.name ("std::numeric_limits<double>::" ++ m))
  | paren {e : Expr} : WellFormed owning e → WellFormed owning (.paren e)
  | call {f : Expr} {args : List Expr} : f.looserThan BindingLevel.access.rank = false → WellFormed owning f →
      (∀ a ∈ args, WellFormed owning a) → WellFormed owning (.call f args)
  | arrow {e : Expr} {m : String} : IsIdentifier m → WellFormed owning e → WellFormed owning (.arrow e m)
  | dot {e : Expr} {m : String} : IsIdentifier m → e.endsInNumber = false → WellFormed owning e → WellFormed owning (.dot e m)
  | index {e i : Expr} : WellFormed owning e → WellFormed owning i → WellFormed owning (.index e i)
  | staticCast {t : Ty} {e : Expr} : t.WellNamed → WellFormed owning e → WellFormed owning (.staticCast t e)
  | staticPointerCast {t : Ty} {e : Expr} : t.WellNamed → WellFormed owning e → WellFormed owning (.staticPointerCast t e)
  | new {t : Ty} {items : List Expr} : t.WellNamed → (∀ e ∈ items, WellFormed owning e) → WellFormed owning (.new t items)
  | own {t : Ty} {e : Expr} : owning = true → t.WellNamed → WellFormed owning e → WellFormed owning (.own t e)
  | unary (op : PrefixOp) {e : Expr} : WellFormed owning e → WellFormed owning (.unary op e)
  | binary (op : BinaryOp) {l r : Expr} : WellFormed owning l → WellFormed owning r → WellFormed owning (.binary op l r)
  | conditional {c t f : Expr} : BindingLevel.logicalOr.rank ≤ c.level.rank → WellFormed owning c → WellFormed owning t →
      WellFormed owning f → WellFormed owning (.conditional c t f)

/-- A well-formed expression is written so that it reads back. -/
theorem WellFormed.rendered {owning : Bool} {e : Expr} (h : WellFormed owning e) : Rendered e := by
  induction h with
  | int n s => exact rendered_int n s
  | float d => exact rendered_float d
  | bool b => exact rendered_bool b
  | string style bytes => exact rendered_string style bytes
  | name hn => exact rendered_name hn
  | limit hm => exact rendered_limits hm
  | paren _ ih => exact rendered_paren ih
  | call _ _ _ ihf ihargs => exact rendered_call ihf ihargs
  | arrow hm _ ih => exact rendered_arrow hm ih
  | dot hm hend _ ih => exact rendered_dot hm (isNumber_eq_false hend) ih
  | index _ _ ihe ihi => exact rendered_index ihe ihi
  | staticCast ht _ ih => exact rendered_staticCast ht ih
  | staticPointerCast ht _ ih => exact rendered_staticPointerCast ht ih
  | new ht _ ih => exact rendered_new ht ih
  | own _ ht _ ih => exact rendered_own ht ih
  | unary op _ ih => exact rendered_unary op ih
  | binary op _ _ ihl ihr => exact rendered_binary op ihl ihr
  | conditional hcond _ _ _ ihc iht ihf => exact rendered_conditional hcond ihc iht ihf

end Expr

end ExprToCpp.Cpp
