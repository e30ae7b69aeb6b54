import ExprToCpp.Binary64
import ExprToCpp.Decimal.Basic

/-!
# The shortest decimal of a binary64 value

Every real near enough to a binary64 magnitude rounds to it; these reals form an interval, which holds its ends when the
significand is even. The shortest decimal of the value is the point of that interval on the coarsest decimal grid that has
one there. On one grid only the two neighbours of the value matter: the nearer wins, and of two at the same distance the
greater. All arithmetic is exact, on naturals.
-/

namespace ExprToCpp

/-- The reals that round to a magnitude, from `low` to `high` around the magnitude `mid`, in units of `2 ^ unit`. -/
structure RoundingInterval where
  low : Nat
  mid : Nat
  high : Nat
  unit : Int
  closed : Bool

namespace RoundingInterval

/-- The interval of a finite value. Quarters of the last place make the ends whole: half a place up, and half a place down,
or a quarter where the spacing narrows. -/
def ofBinary64 (x : Binary64) : RoundingInterval where
  low := 4 * x.significand - (if x.isNarrowBelow then 1 else 2)
  mid := 4 * x.significand
  high := 4 * x.significand + 2
  unit := x.scale - 2
  closed := x.significand % 2 == 0

/-- A grid step `10 ^ g`, and a unit of the interval, brought to a common whole measure. -/
def gridStep (i : RoundingInterval) (g : Int) : Nat := Nat.pow 10 g.toNat * Nat.pow 2 (-i.unit).toNat

def unitStep (i : RoundingInterval) (g : Int) : Nat := Nat.pow 2 i.unit.toNat * Nat.pow 10 (-g).toNat

/-- Whether `c * 10 ^ g` lies in the interval. -/
def contains (i : RoundingInterval) (g : Int) (c : Nat) : Bool :=
  let p := c * i.gridStep g
  let low := i.low * i.unitStep g
  let high := i.high * i.unitStep g
  if i.closed then decide (low ≤ p ∧ p ≤ high) else decide (low < p ∧ p < high)

/-- The point of the grid `10 ^ g` that stands for the interval, if the grid has one in it. -/
def pick (i : RoundingInterval) (g : Int) : Option Nat :=
  let mid := i.mid * i.unitStep g
  let below := mid / i.gridStep g
  match i.contains g below, i.contains g (below + 1) with
  | true, true => if 2 * mid < (2 * below + 1) * i.gridStep g then some below else some (below + 1)
  | true, false => some below
  | false, true => some (below + 1)
  | false, false => none

/-- A grid coarser than the magnitude: `30103 / 100000` is just above the decimal logarithm of two. -/
def coarsest (i : RoundingInterval) : Int := (i.unit + i.mid.log2 + 1) * 30103 / 100000 + 1

/-- The decimal on the coarsest grid that has one. Seventeen digits always tell two binary64 values apart, and `coarsest` is
at most two grids above the first digit; the magnitude itself, all its digits written out, stands last for totality. -/
def shortest (i : RoundingInterval) : Decimal :=
  let grids := (List.range 20).map (i.coarsest - Int.ofNat ·)
  match grids.findSome? fun g => (i.pick g).map (Decimal.mk · g) with
  | some d => d
  | none => ⟨i.mid * Nat.pow 2 i.unit.toNat * Nat.pow 5 (-i.unit).toNat, -Int.ofNat (-i.unit).toNat⟩

end RoundingInterval

/-- The decimal of fewest digits that reads back as the magnitude of a finite value. -/
def Binary64.shortest (x : Binary64) : Decimal :=
  if x.isZero then ⟨0, 0⟩ else (RoundingInterval.ofBinary64 x).shortest

end ExprToCpp
