import Mathlib.Algebra.Order.Field.Power
import Mathlib.Tactic.FieldSimp
import Mathlib.Tactic.Linarith
import ExprToCpp.Decimal.Shortest
import ExprToCpp.Proofs.Cpp.NumberLiteral

/-!
# The shortest decimal rounds to its value

The shortest decimal of a finite binary64 value lies in the interval of the reals that round to the magnitude of the value
(`mem_shortest`), so no other magnitude of the format is nearer, and one that is as near loses the tie to an even significand.
Main statement: `isNearest_shortest`.
-/

namespace ExprToCpp

/-! ## Magnitudes -/

namespace Binary64

/-- The magnitude of a finite value. -/
def magnitude (x : Binary64) : ℚ := x.significand * 2 ^ x.scale

/-- A real rounds to the magnitude of a value: no finite value is nearer, the significand is even if another is as near, and the real
is below the place, half a step above the greatest magnitude, from where on reals round to infinity. -/
structure IsNearest (x : Binary64) (q : ℚ) : Prop where
  le : ∀ y : Binary64, y.isFinite = true → |x.magnitude - q| ≤ |y.magnitude - q|
  even_of_tie : ∀ y : Binary64, y.isFinite = true → y.magnitude ≠ x.magnitude → |y.magnitude - q| = |x.magnitude - q| →
    x.significand % 2 = 0
  lt_overflow : q < (2 ^ 53 - 1 / 2) * 2 ^ (971 : ℤ)

/-- The distance to the next smaller magnitude. -/
def stepBelow (x : Binary64) : ℚ := if x.isNarrowBelow then 2 ^ (x.scale - 1) else 2 ^ x.scale

theorem fraction_lt (x : Binary64) : x.fraction < 2 ^ 52 := Nat.mod_lt _ (by decide)

/-- The significand has at most 53 bits. -/
theorem significand_lt (x : Binary64) : x.significand < 2 ^ 53 := by
  have hfraction := x.fraction_lt
  have hpow : Nat.pow 2 52 = 2 ^ 52 := rfl
  unfold significand
  split <;> omega

/-- The first bit of a significand is set, except at the least scale. -/
theorem le_significand {x : Binary64} (h : -1074 < x.scale) : 2 ^ 52 ≤ x.significand := by
  have hpow : Nat.pow 2 52 = 2 ^ 52 := rfl
  unfold scale at h
  unfold significand
  split
  · next hzero => simp [hzero] at h
  · omega

/-- No finite float is finer than the subnormal ones. -/
theorem le_scale (x : Binary64) : -1074 ≤ x.scale := by
  unfold scale
  split <;> omega

/-- No finite float is coarser than the greatest one. -/
theorem scale_le {x : Binary64} (h : x.isFinite = true) : x.scale ≤ 971 := by
  have hfield : x.exponentField < 2 ^ 11 := Nat.mod_lt _ (by decide)
  have hfinite : x.exponentField ≠ 2047 := by simpa [isFinite] using h
  unfold scale
  split <;> omega

/-- The spacing narrows below a power of two. -/
theorem isNarrowBelow_of_significand {x : Binary64} (h : x.significand = 2 ^ 52) (hscale : -1074 < x.scale) :
    x.isNarrowBelow = true := by
  have hfraction := x.fraction_lt
  have hpow : Nat.pow 2 52 = 2 ^ 52 := rfl
  unfold scale at hscale
  unfold significand at h
  split at h
  · omega
  · next hfield =>
    rw [if_neg hfield] at hscale
    simp only [isNarrowBelow, Bool.and_eq_true, beq_iff_eq, decide_eq_true_eq]
    omega

/-- A step is two half steps. -/
theorem two_zpow_eq (z : ℤ) : (2 : ℚ) ^ z = 2 * 2 ^ (z - 1) := by
  rw [← zpow_one_add₀ two_ne_zero]
  congr 1
  omega

theorem stepBelow_pos (x : Binary64) : 0 < x.stepBelow := by
  unfold stepBelow
  split <;> positivity

/-- The step below is at most the step above. -/
theorem stepBelow_le (x : Binary64) : x.stepBelow ≤ 2 ^ x.scale := by
  have hpos : (0 : ℚ) < 2 ^ (x.scale - 1) := by positivity
  unfold stepBelow
  rw [two_zpow_eq x.scale]
  split <;> linarith

/-- Between a magnitude and the next ones there is no other. -/
theorem magnitude_gap {x y : Binary64} (hne : y.magnitude ≠ x.magnitude) :
    y.magnitude ≤ x.magnitude - x.stepBelow ∨ x.magnitude + 2 ^ x.scale ≤ y.magnitude := by
  have hstep := x.stepBelow_le
  have hpos : (0 : ℚ) < 2 ^ x.scale := by positivity
  rcases le_or_gt x.scale y.scale with hscale | hscale
  · -- the other magnitude is a whole number of the steps of this one
    obtain ⟨k, hk⟩ := Int.le.dest hscale
    have hy : y.magnitude = (y.significand * 2 ^ k : ℕ) * 2 ^ x.scale := by
      rw [magnitude, ← hk, zpow_add₀ two_ne_zero, zpow_natCast]
      push_cast
      ring
    rw [hy, magnitude] at hne ⊢
    rcases lt_trichotomy (y.significand * 2 ^ k) x.significand with hlt | heq | hgt
    · left
      have hle : ((y.significand * 2 ^ k : ℕ) : ℚ) + 1 ≤ x.significand := by exact_mod_cast hlt
      nlinarith
    · rw [heq] at hne
      exact absurd rfl hne
    · right
      have hle : (x.significand : ℚ) + 1 ≤ (y.significand * 2 ^ k : ℕ) := by exact_mod_cast hgt
      nlinarith
  · -- a smaller scale means a smaller magnitude, of less than fifty-three bits
    left
    have hnormal : -1074 < x.scale := lt_of_le_of_lt y.le_scale hscale
    have hpow : (2 : ℚ) ^ y.scale ≤ 2 ^ (x.scale - 1) := zpow_le_zpow_right₀ (by norm_num) (by omega)
    have hy : (y.significand : ℚ) ≤ 2 ^ 53 - 1 := by
      have hlt : (y.significand : ℚ) + 1 ≤ 2 ^ 53 := by exact_mod_cast y.significand_lt
      linarith
    have hbound : y.magnitude ≤ (2 ^ 53 - 1) * 2 ^ (x.scale - 1) := by
      rw [magnitude]
      exact mul_le_mul hy hpow (by positivity) (by norm_num)
    have hhalf : (0 : ℚ) < 2 ^ (x.scale - 1) := by positivity
    have hx : x.magnitude = x.significand * (2 * 2 ^ (x.scale - 1)) := by rw [magnitude, two_zpow_eq]
    rw [hx]
    rcases Nat.lt_or_ge (2 ^ 52) x.significand with hgt | hle
    · have hle : (2 : ℚ) ^ 52 + 1 ≤ x.significand := by exact_mod_cast hgt
      rw [two_zpow_eq x.scale] at hstep
      nlinarith
    · have heq : x.significand = 2 ^ 52 := le_antisymm hle (le_significand hnormal)
      rw [stepBelow, if_pos (isNarrowBelow_of_significand heq hnormal), heq]
      push_cast
      nlinarith

end Binary64

/-! ## The interval -/

namespace RoundingInterval

/-- A real lies in an interval. -/
def Mem (i : RoundingInterval) (q : ℚ) : Prop :=
  if i.closed then i.low * 2 ^ i.unit ≤ q ∧ q ≤ i.high * 2 ^ i.unit else i.low * 2 ^ i.unit < q ∧ q < i.high * 2 ^ i.unit

/-- A power times the power that clears its denominator. -/
theorem zpow_mul_pow_toNat {b : ℚ} (hb : b ≠ 0) (z : ℤ) : b ^ z * b ^ (-z).toNat = b ^ z.toNat := by
  rw [← zpow_natCast, ← zpow_natCast, ← zpow_add₀ hb]
  congr 1
  omega

/-- The test on naturals is that of the reals, both sides in a common measure. -/
theorem contains_iff (i : RoundingInterval) (g : ℤ) (c : ℕ) : i.contains g c = true ↔ i.Mem (c * 10 ^ g) := by
  have hmeasure : (0 : ℚ) < 10 ^ (-g).toNat * 2 ^ (-i.unit).toNat := by positivity
  have hgrid : (c : ℚ) * 10 ^ g * (10 ^ (-g).toNat * 2 ^ (-i.unit).toNat) = (c * i.gridStep g : ℕ) := by
    have hten := zpow_mul_pow_toNat (b := 10) (by norm_num) g
    have hstep : ((i.gridStep g : ℕ) : ℚ) = 10 ^ g.toNat * 2 ^ (-i.unit).toNat := by
      simp [gridStep]
    push_cast
    rw [hstep, ← hten]
    ring
  have hunit : ∀ n : ℕ, (n : ℚ) * 2 ^ i.unit * (10 ^ (-g).toNat * 2 ^ (-i.unit).toNat) = (n * i.unitStep g : ℕ) := by
    intro n
    have htwo := zpow_mul_pow_toNat (b := 2) (by norm_num) i.unit
    have hstep : ((i.unitStep g : ℕ) : ℚ) = 2 ^ i.unit.toNat * 10 ^ (-g).toNat := by
      simp [unitStep]
    push_cast
    rw [hstep, ← htwo]
    ring
  have hle : ∀ {a b : ℚ}, a ≤ b ↔ a * (10 ^ (-g).toNat * 2 ^ (-i.unit).toNat) ≤ b * (10 ^ (-g).toNat * 2 ^ (-i.unit).toNat) :=
    (mul_le_mul_iff_left₀ hmeasure).symm
  have hlt : ∀ {a b : ℚ}, a < b ↔ a * (10 ^ (-g).toNat * 2 ^ (-i.unit).toNat) < b * (10 ^ (-g).toNat * 2 ^ (-i.unit).toNat) :=
    (mul_lt_mul_iff_left₀ hmeasure).symm
  unfold contains Mem
  split
  · rw [decide_eq_true_eq, hle, hle (a := (c : ℚ) * 10 ^ g), hgrid, hunit, hunit, Nat.cast_le, Nat.cast_le]
  · rw [decide_eq_true_eq, hlt, hlt (a := (c : ℚ) * 10 ^ g), hgrid, hunit, hunit, Nat.cast_lt, Nat.cast_lt]

/-- What a grid gives lies in the interval. -/
theorem contains_of_pick {i : RoundingInterval} {g : ℤ} {c : ℕ} (h : i.pick g = some c) : i.contains g c = true := by
  unfold pick at h
  simp only at h
  split at h
  · split at h <;> cases h <;> assumption
  · cases h
    assumption
  · cases h
    assumption
  · cases h

/-- All digits of the middle written out. -/
theorem value_mid (i : RoundingInterval) :
    Decimal.value ⟨i.mid * Nat.pow 2 i.unit.toNat * Nat.pow 5 (-i.unit).toNat, -Int.ofNat (-i.unit).toNat⟩ = i.mid * 2 ^ i.unit := by
  have htwo := zpow_mul_pow_toNat (b := 2) (by norm_num) i.unit
  have hten : (10 : ℚ) ^ (-Int.ofNat (-i.unit).toNat) = (5 ^ (-i.unit).toNat * 2 ^ (-i.unit).toNat)⁻¹ := by
    rw [Int.ofNat_eq_natCast, zpow_neg, zpow_natCast, ← mul_pow]
    norm_num
  rw [Decimal.value, hten]
  simp only [Nat.pow_eq, Nat.cast_mul, Nat.cast_pow, Nat.cast_ofNat]
  rw [← htwo]
  field_simp

/-- The shortest decimal of an interval around its middle lies in the interval. -/
theorem mem_shortest {i : RoundingInterval} (hlow : i.low < i.mid) (hhigh : i.mid < i.high) : i.Mem i.shortest.value := by
  unfold shortest
  simp only
  split
  · next d hd =>
    obtain ⟨g, -, hg⟩ := List.exists_of_findSome?_eq_some hd
    obtain ⟨c, hc, rfl⟩ := Option.map_eq_some_iff.1 hg
    exact (i.contains_iff g c).1 (contains_of_pick hc)
  · have hpos : (0 : ℚ) < 2 ^ i.unit := by positivity
    have hlow' : (i.low : ℚ) * 2 ^ i.unit < i.mid * 2 ^ i.unit := mul_lt_mul_of_pos_right (by exact_mod_cast hlow) hpos
    have hhigh' : (i.mid : ℚ) * 2 ^ i.unit < i.high * 2 ^ i.unit := mul_lt_mul_of_pos_right (by exact_mod_cast hhigh) hpos
    rw [value_mid, Mem]
    split
    · exact ⟨hlow'.le, hhigh'.le⟩
    · exact ⟨hlow', hhigh'⟩

/-- The interval of a value reaches half a step down and half a step up from its magnitude. -/
theorem mem_ofBinary64_iff {x : Binary64} (hpos : 0 < x.significand) {q : ℚ} : (ofBinary64 x).Mem q ↔
    if x.significand % 2 == 0 then x.magnitude - x.stepBelow / 2 ≤ q ∧ q ≤ x.magnitude + 2 ^ x.scale / 2
    else x.magnitude - x.stepBelow / 2 < q ∧ q < x.magnitude + 2 ^ x.scale / 2 := by
  have hhalf := Binary64.two_zpow_eq x.scale
  have hquarter : (2 : ℚ) ^ (x.scale - 1) = 2 * 2 ^ (x.scale - 2) := by
    rw [Binary64.two_zpow_eq, sub_sub, one_add_one_eq_two]
  have hhigh : ((4 * x.significand + 2 : ℕ) : ℚ) * 2 ^ (x.scale - 2) = x.magnitude + 2 ^ x.scale / 2 := by
    rw [Binary64.magnitude, hhalf, hquarter]
    push_cast
    ring
  have hlow : ((4 * x.significand - (if x.isNarrowBelow then 1 else 2) : ℕ) : ℚ) * 2 ^ (x.scale - 2) =
      x.magnitude - x.stepBelow / 2 := by
    rw [Nat.cast_sub (by split <;> omega), Binary64.magnitude, Binary64.stepBelow, hhalf, hquarter]
    push_cast
    split <;> ring
  rw [Mem, ← hlow, ← hhigh]
  rfl

end RoundingInterval

/-! ## Rounding -/

namespace Binary64

/-- Only the zeros have a zero significand. -/
theorem significand_pos {x : Binary64} (h : x.isZero = false) : 0 < x.significand := by
  have hpow : 0 < Nat.pow 2 52 := by decide
  unfold significand
  split
  · next hfield => simpa [isZero, hfield, Nat.pos_iff_ne_zero] using h
  · omega

/-- The end of the interval is where reals start to round to infinity only for the greatest magnitude, which is odd. -/
theorem lt_overflow_of_le {x : Binary64} (hfinite : x.isFinite = true) {q : ℚ} (hle : q ≤ x.magnitude + 2 ^ x.scale / 2)
    (hodd : x.significand % 2 ≠ 0 → q < x.magnitude + 2 ^ x.scale / 2) : q < (2 ^ 53 - 1 / 2) * 2 ^ (971 : ℤ) := by
  have hnonneg : (0 : ℚ) ≤ x.significand + 1 / 2 := by positivity
  have hscale : (2 : ℚ) ^ x.scale ≤ 2 ^ (971 : ℤ) := zpow_le_zpow_right₀ (by norm_num) (scale_le hfinite)
  have hend : x.magnitude + 2 ^ x.scale / 2 ≤ (x.significand + 1 / 2) * 2 ^ (971 : ℤ) :=
    calc x.magnitude + 2 ^ x.scale / 2
        = (x.significand + 1 / 2) * 2 ^ x.scale := by rw [magnitude]; ring
      _ ≤ (x.significand + 1 / 2) * 2 ^ (971 : ℤ) := mul_le_mul_of_nonneg_left hscale hnonneg
  have hpos : (0 : ℚ) < 2 ^ (971 : ℤ) := by positivity
  rcases Nat.lt_or_ge x.significand (2 ^ 53 - 1) with hlt | hge
  · have hcast : (x.significand : ℚ) + 1 / 2 < 2 ^ 53 - 1 / 2 := by
      have hsucc : (x.significand : ℚ) + 1 ≤ (2 ^ 53 - 1 : ℕ) := by exact_mod_cast hlt
      rw [Nat.cast_sub (by decide)] at hsucc
      push_cast at hsucc
      linarith
    exact lt_of_le_of_lt (hle.trans hend) (mul_lt_mul_of_pos_right hcast hpos)
  · have hmax : x.significand = 2 ^ 53 - 1 := le_antisymm (Nat.le_sub_one_of_lt x.significand_lt) hge
    have hq := hodd (by rw [hmax]; decide)
    have heq : (x.significand : ℚ) + 1 / 2 = 2 ^ 53 - 1 / 2 := by
      rw [hmax]
      norm_num
    rw [heq] at hend
    exact lt_of_lt_of_le hq hend

/-- Seen from within half a step of a magnitude, every other one lies beyond the next step. -/
theorem abs_magnitude_sub {x y : Binary64} {q : ℚ} (hlow : x.magnitude - x.stepBelow / 2 ≤ q)
    (hhigh : q ≤ x.magnitude + 2 ^ x.scale / 2) (hne : y.magnitude ≠ x.magnitude) :
    (|y.magnitude - q| = q - y.magnitude ∧ y.magnitude ≤ x.magnitude - x.stepBelow) ∨
      (|y.magnitude - q| = y.magnitude - q ∧ x.magnitude + 2 ^ x.scale ≤ y.magnitude) := by
  have hbelow := x.stepBelow_pos
  have habove : (0 : ℚ) < 2 ^ x.scale := by positivity
  rcases magnitude_gap hne with hgap | hgap
  · left
    exact ⟨by rw [abs_sub_comm, abs_of_nonneg (by linarith)], hgap⟩
  · right
    exact ⟨abs_of_nonneg (by linarith), hgap⟩

/-- The reals within half a step of a magnitude round to it, and those half a step away if its significand is even. -/
theorem isNearest_of_mem {x : Binary64} (hfinite : x.isFinite = true) (hzero : x.isZero = false) {q : ℚ}
    (h : (RoundingInterval.ofBinary64 x).Mem q) : x.IsNearest q := by
  rw [RoundingInterval.mem_ofBinary64_iff (significand_pos hzero)] at h
  have hclosed : x.magnitude - x.stepBelow / 2 ≤ q ∧ q ≤ x.magnitude + 2 ^ x.scale / 2 := by
    split at h
    · exact h
    · exact ⟨h.1.le, h.2.le⟩
  have hopen : x.significand % 2 ≠ 0 → x.magnitude - x.stepBelow / 2 < q ∧ q < x.magnitude + 2 ^ x.scale / 2 := by
    intro hodd
    rwa [if_neg (by simpa using hodd)] at h
  obtain ⟨hlow, hhigh⟩ := hclosed
  have hstep := x.stepBelow_le
  have hpos := x.stepBelow_pos
  refine ⟨fun y _ => ?_, fun y _ hne htie => ?_, lt_overflow_of_le hfinite hhigh fun hodd => (hopen hodd).2⟩
  · rcases eq_or_ne y.magnitude x.magnitude with heq | hne
    · rw [heq]
    · rcases abs_magnitude_sub hlow hhigh hne with ⟨habs, hgap⟩ | ⟨habs, hgap⟩ <;>
      · rw [habs, abs_le]
        constructor <;> linarith
  · -- in the open interval the other magnitude is strictly farther
    by_contra hodd
    obtain ⟨hlow', hhigh'⟩ := hopen hodd
    rcases abs_magnitude_sub hlow hhigh hne with ⟨habs, hgap⟩ | ⟨habs, hgap⟩ <;>
      rcases abs_cases (x.magnitude - q) with ⟨habs', _⟩ | ⟨habs', _⟩ <;> linarith

/-- The shortest decimal of a finite value rounds to its magnitude. -/
theorem isNearest_shortest {x : Binary64} (hfinite : x.isFinite = true) : x.IsNearest x.shortest.value := by
  unfold shortest
  split
  · next hzero =>
    have hmagnitude : x.magnitude = 0 := by
      simp only [isZero, Bool.and_eq_true, beq_iff_eq] at hzero
      simp [magnitude, significand, hzero.1, hzero.2]
    refine ⟨fun y _ => ?_, fun y _ hne htie => ?_, ?_⟩
    · simp [hmagnitude, Decimal.value]
    · simp [hmagnitude, Decimal.value] at hne htie
      exact absurd htie hne
    · have hpos : (0 : ℚ) < 2 ^ (971 : ℤ) := by positivity
      simpa [Decimal.value] using mul_pos (by norm_num : (0 : ℚ) < 2 ^ 53 - 1 / 2) hpos
  · next hzero =>
    have hzero : x.isZero = false := by simpa using hzero
    have hpos := significand_pos hzero
    refine isNearest_of_mem hfinite hzero (RoundingInterval.mem_shortest ?_ ?_)
    · change 4 * x.significand - (if x.isNarrowBelow then 1 else 2) < 4 * x.significand
      split <;> omega
    · exact Nat.lt_add_of_pos_right (by decide)

end Binary64

end ExprToCpp
