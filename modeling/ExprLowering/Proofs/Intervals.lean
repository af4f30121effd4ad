import ExprLowering.Proofs.Rounding

/-!
# Rounding intervals

Every number of an interval around a double has this double as its nearest one. The interval reaches
halfway to the neighbours, and its ends belong to it if the significand is even. Digits are searched
for among the numbers of the interval, so that what is found reads back as the double.

## Main definitions

* `lowerBound`, `upperBound`, `InInterval`: the rounding interval of a positive double.
* `opposite`: the double with the other sign.

## Main results

* `InInterval.isNearest`: the double is nearest to all numbers of its interval.
* `InInterval.lt_overflow`: none of them is too large for a double.
* `rounds_iff`, `rounds_search`: the search for digits ends inside the interval.
-/

namespace ExprLowering.Binary64

open Shortest

variable {x y : Binary64} {v : ℚ}

-- ════════════════════════════════════════════════════════════════════════
-- The ends of an interval, and the neighbours
-- ════════════════════════════════════════════════════════════════════════

/-- The lower end of the rounding interval. -/
def lowerBound (x : Binary64) : ℚ := lowerEnd x * 2 ^ (x.scale - 2)

/-- The upper end of the rounding interval. -/
def upperBound (x : Binary64) : ℚ := upperEnd x * 2 ^ (x.scale - 2)

theorem two_zpow_eq_quarters (e : Int) : (2 : ℚ) ^ e = 4 * 2 ^ (e - 2) := by
  rw [zpow_sub₀ (by norm_num)]
  norm_num
  ring

theorem magnitude_eq (x : Binary64) : x.magnitude = 4 * x.significand * 2 ^ (x.scale - 2) := by
  rw [magnitude, two_zpow_eq_quarters]
  ring

theorem lowerBound_eq (hx : x.significand ≠ 0) :
    x.lowerBound =
      (4 * x.significand - if x.isBinadeStart then 1 else 2) * 2 ^ (x.scale - 2) := by
  rw [lowerBound, lowerEnd, Nat.cast_sub (by split <;> omega)]
  push_cast
  rfl

theorem upperBound_eq (x : Binary64) :
    x.upperBound = (4 * x.significand + 2) * 2 ^ (x.scale - 2) := by
  rw [upperBound, upperEnd]
  push_cast
  rfl

theorem scale_ge (x : Binary64) : -1074 ≤ x.scale := by
  rw [scale]
  split
  · omega
  · omega

/-- A double that is not of the finest scale is normal. -/
theorem significand_of_lt_scale (h : -1074 < x.scale) :
    x.significand = 2 ^ 52 + x.fraction.val ∧ 1 < x.exponent.val := by
  rw [scale] at h
  rw [significand]
  split at h
  · omega
  · rename_i hexponent
    rw [if_neg hexponent]
    exact ⟨rfl, by omega⟩

/-- A double is a whole number of steps of another one, or it is less than half of the last step
below the smallest normal number of that scale. -/
theorem toRat_cases (x y : Binary64) :
    (∃ k : ℤ, y.toRat = 4 * k * 2 ^ (x.scale - 2)) ∨
      (y.toRat ≤ (2 ^ 54 - 2) * 2 ^ (x.scale - 2) ∧ -1074 < x.scale) := by
  rcases exists_multiple_or_le y x.scale with ⟨k, hk⟩ | ⟨hscale, hy⟩
  · rw [two_zpow_eq_quarters] at hk
    exact .inl ⟨k, by rw [hk]; ring⟩
  · have hhalf : (2 : ℚ) ^ (x.scale - 1) = 2 * 2 ^ (x.scale - 2) := by
      rw [zpow_sub₀ (by norm_num), zpow_sub₀ (by norm_num)]
      norm_num
      ring
    rw [hhalf] at hy
    exact .inr ⟨by linarith, hscale.trans_le' y.scale_ge⟩

/-- Halfway down to any smaller double is not above the lower end of the interval. -/
theorem add_le_two_mul_lowerBound (hx : x.significand ≠ 0) (h : y.toRat < x.magnitude) :
    y.toRat + x.magnitude ≤ 2 * x.lowerBound := by
  have hpos : (0 : ℚ) < 2 ^ (x.scale - 2) := by positivity
  rw [lowerBound_eq hx]
  rw [magnitude_eq] at h ⊢
  rcases toRat_cases x y with ⟨k, hk⟩ | ⟨hy, hscale⟩
  · rw [hk] at h ⊢
    have hlt : 4 * (k : ℚ) < 4 * x.significand := lt_of_mul_lt_mul_right h hpos.le
    have hle : (k : ℚ) + 1 ≤ x.significand := by
      have : k < (x.significand : ℤ) := by exact_mod_cast (by linarith : (k : ℚ) < x.significand)
      exact_mod_cast this
    have hend : (if x.isBinadeStart then 1 else 2 : ℚ) ≤ 2 := by split <;> norm_num
    have hcount : 4 * (k : ℚ) + 4 * x.significand ≤
        2 * (4 * x.significand - if x.isBinadeStart then 1 else 2) := by linarith
    linarith [mul_le_mul_of_nonneg_right hcount hpos.le]
  · obtain ⟨hsignificand, hexponent⟩ := significand_of_lt_scale hscale
    have hcount : 2 ^ 54 - 2 + 4 * (x.significand : ℚ) ≤
        2 * (4 * x.significand - if x.isBinadeStart then 1 else 2) := by
      rw [hsignificand]
      push_cast
      by_cases hfraction : x.fraction.val = 0
      · have hstart : x.isBinadeStart = true := by simp [isBinadeStart, hfraction, hexponent]
        rw [if_pos hstart, hfraction]
        norm_num
      · have hone : (1 : ℚ) ≤ x.fraction.val := by
          exact_mod_cast Nat.one_le_iff_ne_zero.2 hfraction
        have hstart : x.isBinadeStart = false := by simp [isBinadeStart, hfraction]
        rw [hstart, if_neg Bool.false_ne_true]
        linarith
    linarith [mul_le_mul_of_nonneg_right hcount hpos.le]

/-- Halfway up to any larger double is not below the upper end of the interval. -/
theorem two_mul_upperBound_le_add (h : x.magnitude < y.toRat) :
    2 * x.upperBound ≤ x.magnitude + y.toRat := by
  have hpos : (0 : ℚ) < 2 ^ (x.scale - 2) := by positivity
  rw [upperBound_eq]
  rw [magnitude_eq] at h ⊢
  rcases toRat_cases x y with ⟨k, hk⟩ | ⟨hy, hscale⟩
  · rw [hk] at h ⊢
    have hlt : 4 * (x.significand : ℚ) < 4 * k := lt_of_mul_lt_mul_right h hpos.le
    have hle : (x.significand : ℚ) + 1 ≤ k := by
      have : (x.significand : ℤ) < k := by exact_mod_cast (by linarith : (x.significand : ℚ) < k)
      exact_mod_cast this
    have hcount : 2 * (4 * (x.significand : ℚ) + 2) ≤ 4 * x.significand + 4 * k := by linarith
    linarith [mul_le_mul_of_nonneg_right hcount hpos.le]
  · -- A smaller scale has no larger doubles.
    exfalso
    obtain ⟨hsignificand, -⟩ := significand_of_lt_scale hscale
    have hcount : (2 ^ 54 - 2 : ℚ) ≤ 4 * x.significand := by
      rw [hsignificand]
      push_cast
      have : (0 : ℚ) ≤ x.fraction.val := by positivity
      linarith
    linarith [mul_le_mul_of_nonneg_right hcount hpos.le]

-- ════════════════════════════════════════════════════════════════════════
-- Rounding intervals
-- ════════════════════════════════════════════════════════════════════════

/-- The number lies in the rounding interval of a positive double. The ends of the interval belong
to it if the significand is even. -/
structure InInterval (x : Binary64) (v : ℚ) : Prop where
  lower : x.lowerBound ≤ v
  upper : v ≤ x.upperBound
  even : v = x.lowerBound ∨ v = x.upperBound → x.significand % 2 = 0

/-- The double with the other sign. -/
def opposite (x : Binary64) : Binary64 := { x with negative := !x.negative }

theorem toRat_opposite (x : Binary64) : x.opposite.toRat = -x.toRat := by
  have hsame : x.opposite.magnitude = x.magnitude := rfl
  have hsign : x.opposite.negative = !x.negative := rfl
  rw [toRat_eq, toRat_eq, hsame, hsign]
  cases x.negative with
  | true => simp
  | false => simp

theorem IsNearest.opposite (h : IsNearest v x) : IsNearest (-v) x.opposite := by
  have hdist (y : Binary64) : |-v - y.toRat| = |v - y.opposite.toRat| := by
    rw [toRat_opposite, ← abs_neg]
    congr 1
    ring
  have hself : |-v - x.opposite.toRat| = |v - x.toRat| := by
    rw [toRat_opposite, neg_sub_neg, abs_sub_comm]
  constructor
  · exact h.finite
  · intro y hy
    rw [hself, hdist]
    exact h.closest y.opposite hy
  · intro y hy htie
    rw [hself, hdist] at htie
    rcases h.even y.opposite hy htie with heq | heven
    · left
      rw [toRat_opposite] at heq ⊢
      rw [← heq, neg_neg]
    · exact .inr heven

/-- What is not below the middle of two numbers is at least as near to the larger one, and equally
near only in the middle. -/
theorem nearer_of_middle_le {a b m : ℚ} (hlt : b < a) (hmiddle : b + a ≤ 2 * m) (hv : m ≤ v) :
    |v - a| ≤ |v - b| ∧ (|v - a| = |v - b| → v = m) := by
  have hdist : |v - b| = v - b := abs_of_pos (by linarith)
  rw [hdist]
  constructor
  · exact abs_le.2 ⟨by linarith, by linarith⟩
  · intro htie
    rcases abs_choice (v - a) with hself | hself
    · rw [hself] at htie
      linarith
    · rw [hself] at htie
      linarith

/-- The same for the smaller one. -/
theorem nearer_of_le_middle {a b m : ℚ} (hlt : a < b) (hmiddle : 2 * m ≤ a + b) (hv : v ≤ m) :
    |v - a| ≤ |v - b| ∧ (|v - a| = |v - b| → v = m) := by
  have hnearer := nearer_of_middle_le (v := -v) (m := -m) (neg_lt_neg hlt) (by linarith)
    (neg_le_neg hv)
  rwa [neg_sub_neg, neg_sub_neg, abs_sub_comm a, abs_sub_comm b, neg_inj] at hnearer

/-- A positive double is the nearest one to the numbers in its rounding interval. -/
theorem InInterval.isNearest (h : x.InInterval v) (hfinite : x.isFinite = true)
    (hsign : x.negative = false) (hx : x.significand ≠ 0) : IsNearest v x := by
  have hvalue : x.toRat = x.magnitude := by rw [toRat_eq, hsign, if_neg Bool.false_ne_true]
  have hbelow (y : Binary64) (hy : y.toRat < x.magnitude) :=
    nearer_of_middle_le hy (add_le_two_mul_lowerBound hx hy) h.lower
  have habove (y : Binary64) (hy : x.magnitude < y.toRat) :=
    nearer_of_le_middle hy (two_mul_upperBound_le_add hy) h.upper
  rw [← hvalue] at hbelow habove
  constructor
  · exact hfinite
  · intro y _
    rcases lt_trichotomy y.toRat x.toRat with hy | hy | hy
    · exact (hbelow y hy).1
    · rw [hy]
    · exact (habove y hy).1
  · intro y _ htie
    rcases lt_trichotomy y.toRat x.toRat with hy | hy | hy
    · exact .inr (h.even (.inl ((hbelow y hy).2 htie)))
    · exact .inl hy
    · exact .inr (h.even (.inr ((habove y hy).2 htie)))

theorem scale_le (hfinite : x.isFinite = true) : x.scale ≤ 971 := by
  have hexponent : x.exponent.val ≠ 2047 := bne_iff_ne.1 hfinite
  have := x.exponent.isLt
  rw [scale]
  split
  · omega
  · omega

/-- Numbers in a rounding interval do not overflow. -/
theorem InInterval.lt_overflow (h : x.InInterval v) (hfinite : x.isFinite = true) :
    v < 2 ^ 1024 - 2 ^ 970 := by
  have hpower : (2 : ℚ) ^ (x.scale - 2) ≤ 2 ^ (969 : Int) :=
    zpow_le_zpow_right₀ (by norm_num) (by have := scale_le hfinite; omega)
  have hlimit : (2 ^ 1024 - 2 ^ 970 : ℚ) = (2 ^ 55 - 2) * 2 ^ (969 : Int) := by
    rw [zpow_ofNat, sub_mul, ← pow_add, ← pow_succ']
  rw [hlimit]
  generalize (2 : ℚ) ^ (969 : Int) = unit at hpower
  have hunit : 0 < unit := lt_of_lt_of_le (by positivity) hpower
  have hbound {n : Nat} (hn : x.significand ≤ n) : x.upperBound ≤ (4 * n + 2) * unit := by
    rw [upperBound_eq]
    gcongr
  by_cases hlast : x.significand = 2 ^ 53 - 1
  · -- The significand is odd, so that the end of the interval does not belong to it.
    have hne : v ≠ x.upperBound := by
      intro heq
      have heven := h.even (.inr heq)
      rw [hlast] at heven
      cases heven
    have hle := hbound hlast.le
    norm_num at hle ⊢
    exact (lt_of_le_of_ne h.upper hne).trans_le hle
  · have hle := hbound (n := 2 ^ 53 - 2) (by have := x.significand_lt; omega)
    refine (h.upper.trans hle).trans_lt ?_
    gcongr
    norm_num

-- ════════════════════════════════════════════════════════════════════════
-- The search for digits
-- ════════════════════════════════════════════════════════════════════════

theorem pow_toNat {b : ℚ} (hb : b ≠ 0) (k : Int) : b ^ k.toNat = b ^ k * b ^ (-k).toNat := by
  rw [← zpow_natCast, ← zpow_natCast, ← zpow_add₀ hb]
  congr 1
  omega

/-- Steps of a grid and quarters of the last place are counted in one unit. -/
theorem exists_unit (x : Binary64) (g : Int) :
    ∃ unit : ℚ, 0 < unit ∧ gridUnit x g = 10 ^ g * unit ∧
      quarterUnit x g = 2 ^ (x.scale - 2) * unit := by
  refine ⟨10 ^ (-g).toNat * 2 ^ (2 - x.scale).toNat, by positivity, ?_, ?_⟩
  · rw [gridUnit, Nat.shiftLeft_eq, ← mul_assoc, ← pow_toNat (by norm_num)]
    exact_mod_cast rfl
  · have htwo := pow_toNat (b := 2) (by norm_num) (x.scale - 2)
    rw [neg_sub] at htwo
    rw [quarterUnit, Nat.shiftLeft_eq, mul_left_comm, ← htwo]
    exact_mod_cast rfl

/-- Comparing in that unit is comparing a number of quarters with a grid point. -/
theorem quarters_le_iff (x : Binary64) (g : Int) (n d : Nat) :
    n * quarterUnit x g ≤ d * gridUnit x g ↔ (n : ℚ) * 2 ^ (x.scale - 2) ≤ d * 10 ^ g := by
  obtain ⟨unit, hunit, hgrid, hquarter⟩ := exists_unit x g
  rw [← Nat.cast_le (α := ℚ), Nat.cast_mul, Nat.cast_mul, hgrid, hquarter, ← mul_assoc,
    ← mul_assoc, mul_le_mul_iff_left₀ hunit]

theorem le_quarters_iff (x : Binary64) (g : Int) (n d : Nat) :
    d * gridUnit x g ≤ n * quarterUnit x g ↔ (d : ℚ) * 10 ^ g ≤ n * 2 ^ (x.scale - 2) := by
  obtain ⟨unit, hunit, hgrid, hquarter⟩ := exists_unit x g
  rw [← Nat.cast_le (α := ℚ), Nat.cast_mul, Nat.cast_mul, hgrid, hquarter, ← mul_assoc,
    ← mul_assoc, mul_le_mul_iff_left₀ hunit]

/-- The grid points that are taken are those in the rounding interval. -/
theorem rounds_iff (x : Binary64) (g : Int) (d : Nat) :
    rounds x g d = true ↔ x.InInterval (d * 10 ^ g) := by
  rw [rounds]
  split
  · rename_i heven
    rw [decide_eq_true_iff, quarters_le_iff, le_quarters_iff]
    exact ⟨fun h => ⟨h.1, h.2, fun _ => heven⟩, fun h => ⟨h.lower, h.upper⟩⟩
  · rename_i hodd
    rw [decide_eq_true_iff, lt_iff_lt_of_le_iff_le (le_quarters_iff ..),
      lt_iff_lt_of_le_iff_le (quarters_le_iff ..)]
    constructor
    · rintro ⟨hlower, hupper⟩
      refine ⟨hlower.le, hupper.le, ?_⟩
      rintro (heq | heq)
      · exact absurd heq hlower.ne'
      · exact absurd heq hupper.ne
    · intro h
      exact ⟨lt_of_le_of_ne h.lower fun heq => hodd (h.even (.inl heq.symm)),
        lt_of_le_of_ne h.upper fun heq => hodd (h.even (.inr heq))⟩

/-- The number lies between two neighbours on every grid. -/
theorem below_bounds (x : Binary64) (g : Int) :
    (below x g : ℚ) * 10 ^ g ≤ x.magnitude ∧ x.magnitude < (below x g + 1) * 10 ^ g := by
  have hgrid : 0 < gridUnit x g := by
    rw [gridUnit, Nat.shiftLeft_eq]
    exact Nat.mul_pos (Nat.pow_pos (by decide)) (Nat.two_pow_pos _)
  have hle := (le_quarters_iff x g (4 * x.significand) (below x g)).1 (Nat.div_mul_le_self _ _)
  have hlt := (lt_iff_lt_of_le_iff_le (le_quarters_iff x g (4 * x.significand) (below x g + 1))).1
    (Nat.lt_mul_of_div_lt (Nat.lt_succ_self _) hgrid)
  push_cast at hle hlt
  rw [magnitude_eq]
  exact ⟨hle, hlt⟩

theorem ten_zpow_finest_lt : (10 : ℚ) ^ finest < 2 ^ (-1075 : Int) := by
  have hpower : 2 ^ 1075 < 10 ^ 324 := by decide +kernel
  rw [finest, zpow_neg, zpow_neg, zpow_ofNat, zpow_ofNat]
  exact inv_strictAnti₀ (by positivity) (by exact_mod_cast hpower)

/-- The lower half of a rounding interval is wider than a step of the finest grid. -/
theorem lowerBound_add_lt (hx : x.significand ≠ 0) : x.lowerBound + 10 ^ finest < x.magnitude := by
  have hwidth : (2 : ℚ) ^ (-1075 : Int) ≤
      (if x.isBinadeStart then 1 else 2) * 2 ^ (x.scale - 2) := by
    cases hstart : x.isBinadeStart with
    | true =>
      have hexponent : 1 < x.exponent.val := by
        rw [isBinadeStart, Bool.and_eq_true] at hstart
        exact of_decide_eq_true hstart.2
      rw [if_pos rfl, one_mul, scale, if_neg (by omega)]
      exact zpow_le_zpow_right₀ (by norm_num) (by omega)
    | false =>
      rw [if_neg Bool.false_ne_true, mul_comm, ← zpow_add_one₀ (by norm_num)]
      exact zpow_le_zpow_right₀ (by norm_num) (by have := x.scale_ge; omega)
  have hfinest := ten_zpow_finest_lt
  rw [lowerBound_eq hx, magnitude_eq, sub_mul]
  linarith

theorem InInterval.of_lt (hlower : x.lowerBound < v) (hupper : v < x.upperBound) :
    x.InInterval v := by
  refine ⟨hlower.le, hupper.le, ?_⟩
  rintro (heq | heq)
  · exact absurd heq hlower.ne'
  · exact absurd heq hupper.ne

theorem magnitude_lt_upperBound (x : Binary64) : x.magnitude < x.upperBound := by
  have hpos : (0 : ℚ) < 2 ^ (x.scale - 2) := by positivity
  rw [magnitude_eq, upperBound_eq, add_mul]
  linarith

/-- A number is in its own interval. -/
theorem inInterval_magnitude (hx : x.significand ≠ 0) : x.InInterval x.magnitude := by
  have hwidth := lowerBound_add_lt hx
  have hstep : (0 : ℚ) < 10 ^ finest := by positivity
  exact .of_lt (by linarith) x.magnitude_lt_upperBound

/-- The finest grid has a point in every rounding interval. -/
theorem rounds_below_finest (hx : x.significand ≠ 0) : rounds x finest (below x finest) = true := by
  obtain ⟨hle, hlt⟩ := below_bounds x finest
  have hwidth := lowerBound_add_lt hx
  rw [add_mul, one_mul] at hlt
  rw [rounds_iff]
  exact .of_lt (by linarith) (hle.trans_lt x.magnitude_lt_upperBound)

theorem rounds_of_onGrid? {g : Int} {d : Nat} (h : onGrid? x g = some d) : rounds x g d = true := by
  rw [onGrid?] at h
  split at h
  · rename_i hbelow habove
    obtain rfl := Option.some.inj h
    split
    · exact habove
    · exact hbelow
  · rename_i hbelow _
    obtain rfl := Option.some.inj h
    exact hbelow
  · rename_i _ habove
    obtain rfl := Option.some.inj h
    exact habove
  · cases h

/-- Wherever the search starts, it ends with a point in the rounding interval. -/
theorem rounds_search (hx : x.significand ≠ 0) (steps : Nat) :
    rounds x (search x steps).exponent (search x steps).digits = true := by
  induction steps with
  | zero =>
    rw [search]
    cases hgrid : onGrid? x finest with
    | some d => exact rounds_of_onGrid? hgrid
    | none => exact rounds_below_finest hx
  | succ steps ih =>
    rw [search]
    split
    · rename_i hgrid
      exact rounds_of_onGrid? hgrid
    · exact ih

end ExprLowering.Binary64
