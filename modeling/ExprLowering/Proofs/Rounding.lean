import ExprLowering.Number.Text
import Mathlib.Algebra.Order.Field.Power
import Mathlib.Algebra.Order.Ring.Rat
import Mathlib.Tactic.Linarith
import Mathlib.Tactic.Positivity
import Mathlib.Tactic.Ring

/-!
# Doubles of whole numbers

A number of more than 53 bits is rounded by looking at what follows its 53 leading bits: with more
than half of the weight of the last one it is rounded up, with less it is rounded down, and with
exactly half it is rounded to the even side. What comes out is the nearest double.

A number that has been rounded has no bits left to round. When more bits are appended to it, they
are all lost, so rounding early can differ from rounding late. It does so only if the number was
halfway and was rounded down, and a bit other than zero is appended afterwards.

## Main definitions

* `Splits`: a number as its 53 leading bits and those that follow.
* `IsShort`: at most 53 significant bits.
* `toRat`, `IsNearest`: what a double stands for, and the nearest one to a number.
* `IsLowerHalfway`: halfway between two doubles, of which the lower one is even.

## Main results

* `Splits.roundNat_eq`: rounding, by the bits that follow the leading ones.
* `roundNat_append`: rounding early and rounding late.
* `isNearest_ofNat`: rounding gives the nearest double.
* `text_ofNat`: doubles up to `10 ^ 21` that are whole numbers are written with all their digits.
-/

namespace ExprLowering.Binary64

/-- `n` has the 53 leading bits `q`, followed by the `e` bits of `r`. -/
structure Splits (n q e r : Nat) : Prop where
  lower : 2 ^ 52 ≤ q
  upper : q < 2 ^ 53
  rest : r < 2 ^ e
  eq : n = q * 2 ^ e + r

variable {n m q e r : Nat}

theorem Splits.log2_eq (h : Splits n q e r) : n.log2 = e + 52 := by
  obtain ⟨hlower, hupper, hrest, rfl⟩ := h
  have hpos : 0 < 2 ^ e := Nat.two_pow_pos e
  have hlow : 2 ^ 52 * 2 ^ e ≤ q * 2 ^ e := Nat.mul_le_mul_right _ hlower
  have hhigh : (q + 1) * 2 ^ e ≤ 2 ^ 53 * 2 ^ e := Nat.mul_le_mul_right _ hupper
  rw [Nat.add_mul] at hhigh
  have hne : q * 2 ^ e + r ≠ 0 := by omega
  rw [Nat.log2_eq_iff hne, Nat.add_comm e, Nat.pow_add, Nat.add_right_comm, Nat.pow_add]
  omega

theorem exists_splits (h : 2 ^ 52 ≤ n) : ∃ q e r, Splits n q e r := by
  have hne : n ≠ 0 := by omega
  have hlow := Nat.log2_self_le hne
  have hhigh := @Nat.lt_log2_self n
  have hbits : 52 ≤ n.log2 := (Nat.le_log2 hne).2 h
  obtain ⟨e, he⟩ : ∃ e, n.log2 = 52 + e := ⟨n.log2 - 52, by omega⟩
  have hpos : 0 < 2 ^ e := Nat.two_pow_pos e
  rw [he, Nat.pow_add] at hlow
  rw [he, Nat.add_right_comm, Nat.pow_add] at hhigh
  refine ⟨n / 2 ^ e, e, n % 2 ^ e, ?_, ?_, Nat.mod_lt _ hpos, ?_⟩
  · exact (Nat.le_div_iff_mul_le hpos).2 hlow
  · exact (Nat.div_lt_iff_lt_mul hpos).2 hhigh
  · exact (Nat.div_add_mod' n (2 ^ e)).symm

theorem Splits.roundNat_eq (h : Splits n q e r) :
    roundNat n = (if 2 ^ e < 2 * r ∨ (2 * r = 2 ^ e ∧ q % 2 = 1) then q + 1 else q) * 2 ^ e := by
  have hpos : 0 < 2 ^ e := Nat.two_pow_pos e
  have hexcess : n.log2 - 52 = e := by rw [h.log2_eq, Nat.add_sub_cancel]
  obtain ⟨-, -, hrest, rfl⟩ := h
  have hquotient : (q * 2 ^ e + r) / 2 ^ e = q := by
    rw [Nat.mul_comm, Nat.mul_add_div hpos, Nat.div_eq_of_lt hrest, Nat.add_zero]
  have hremainder : (q * 2 ^ e + r) % 2 ^ e = r := by
    rw [Nat.mul_comm, Nat.mul_add_mod, Nat.mod_eq_of_lt hrest]
  rw [roundNat, hexcess, shiftRound, Nat.one_shiftLeft, Nat.shiftLeft_eq, Nat.shiftRight_eq_div_pow,
    hquotient, hremainder]

/-- The number has at most 53 significant bits. -/
def IsShort (n : Nat) : Prop := ∃ q e, q < 2 ^ 53 ∧ n = q * 2 ^ e

theorem isShort_of_lt (h : n < 2 ^ 53) : IsShort n := ⟨n, 0, h, (Nat.mul_one n).symm⟩

theorem IsShort.mul_two_pow (h : IsShort n) (k : Nat) : IsShort (n * 2 ^ k) := by
  obtain ⟨q, e, hq, rfl⟩ := h
  exact ⟨q, e + k, hq, by rw [Nat.mul_assoc, ← Nat.pow_add]⟩

/-- A short number has only zeros after its 53 leading bits. -/
theorem IsShort.rest_eq_zero (hn : IsShort n) (h : Splits n q e r) : r = 0 := by
  obtain ⟨s, k, hs, hshort⟩ := hn
  obtain ⟨hlower, -, hrest, heq⟩ := h
  by_cases hk : e ≤ k
  · have hdvd : 2 ^ e ∣ q * 2 ^ e + r := by
      rw [← heq, hshort]
      exact Nat.dvd_mul_left_of_dvd (Nat.pow_dvd_pow 2 hk) s
    have hmod := Nat.mod_eq_zero_of_dvd hdvd
    rwa [Nat.mul_comm, Nat.mul_add_mod, Nat.mod_eq_of_lt hrest] at hmod
  · exfalso
    have hpow : 2 ^ (k + 1) ≤ 2 ^ e := Nat.pow_le_pow_right (by decide) (by omega)
    have hlow : 2 ^ 52 * 2 ^ (k + 1) ≤ q * 2 ^ e := Nat.mul_le_mul hlower hpow
    have hhigh : s * 2 ^ k < 2 ^ 53 * 2 ^ k := Nat.mul_lt_mul_of_pos_right hs (Nat.two_pow_pos k)
    rw [Nat.pow_succ] at hlow
    omega

theorem roundNat_of_lt (h : n < 2 ^ 53) : roundNat n = n := by
  have hexcess : n.log2 - 52 = 0 := by
    by_cases hn : n = 0
    · rw [hn]
      rfl
    · have := (Nat.log2_lt hn).2 h
      omega
  simp [roundNat, hexcess, shiftRound, Nat.mod_one]

/-- Rounding changes no short number. -/
theorem IsShort.roundNat_eq (h : IsShort n) : roundNat n = n := by
  by_cases hn : n < 2 ^ 53
  · exact roundNat_of_lt hn
  · obtain ⟨q, e, r, hsplit⟩ := exists_splits (n := n) (by omega)
    obtain rfl := h.rest_eq_zero hsplit
    have hpos : 0 < 2 ^ e := Nat.two_pow_pos e
    rw [hsplit.roundNat_eq, if_neg (by omega)]
    exact hsplit.eq.symm

/-- Rounding gives short numbers. -/
theorem isShort_roundNat (n : Nat) : IsShort (roundNat n) := by
  by_cases hn : n < 2 ^ 53
  · rw [roundNat_of_lt hn]
    exact isShort_of_lt hn
  · obtain ⟨q, e, r, hsplit⟩ := exists_splits (n := n) (by omega)
    have hupper := hsplit.upper
    rw [hsplit.roundNat_eq]
    apply IsShort.mul_two_pow
    by_cases hcarry : q + 1 = 2 ^ 53
    · rw [hcarry]
      split
      · exact ⟨1, 53, by decide, rfl⟩
      · exact isShort_of_lt hupper
    · apply isShort_of_lt
      split <;> omega

/-- Rounding does not go beyond a short number. -/
theorem roundNat_le (hle : n ≤ m) (hm : IsShort m) : roundNat n ≤ m := by
  by_cases hn : n < 2 ^ 53
  · rw [roundNat_of_lt hn]
    exact hle
  · obtain ⟨q, e, r, hsplit⟩ := exists_splits (n := n) (by omega)
    have hround := hsplit.roundNat_eq
    obtain ⟨hlower, hupper, hrest, rfl⟩ := hsplit
    by_cases hnext : (q + 1) * 2 ^ e ≤ m
    · refine le_trans ?_ hnext
      rw [hround]
      apply Nat.mul_le_mul_right
      split <;> omega
    · rw [Nat.add_mul] at hnext
      have hzero := hm.rest_eq_zero (q := q) (e := e) (r := m - q * 2 ^ e)
        ⟨hlower, hupper, by omega, by omega⟩
      have heq : q * 2 ^ e + r = m := by omega
      rw [heq, hm.roundNat_eq]

/-- The bits of a number, moved so that the leading one has the weight `2 ^ 52`. -/
def aligned (n : Nat) : Nat :=
  if n.log2 ≤ 52 then n <<< (52 - n.log2) else n >>> (n.log2 - 52)

theorem aligned_of_le (h : n.log2 ≤ 52) : aligned n = n * 2 ^ (52 - n.log2) := by
  rw [aligned, if_pos h, Nat.shiftLeft_eq]

theorem Splits.aligned_eq (h : Splits n q e r) : aligned n = q := by
  have hlog := h.log2_eq
  obtain ⟨-, -, hrest, heq⟩ := h
  by_cases he : e = 0
  · subst he
    rw [aligned_of_le (by omega), hlog]
    omega
  · rw [aligned, if_neg (by omega), hlog, Nat.add_sub_cancel, Nat.shiftRight_eq_div_pow, heq,
      Nat.mul_comm, Nat.mul_add_div (Nat.two_pow_pos e), Nat.div_eq_of_lt hrest, Nat.add_zero]

theorem aligned_bounds (hn : n ≠ 0) : 2 ^ 52 ≤ aligned n ∧ aligned n < 2 ^ 53 := by
  by_cases hlarge : 2 ^ 52 ≤ n
  · obtain ⟨q, e, r, hsplit⟩ := exists_splits hlarge
    rw [hsplit.aligned_eq]
    exact ⟨hsplit.lower, hsplit.upper⟩
  · have hlog : n.log2 < 52 := (Nat.log2_lt hn).2 (by omega)
    have hlow := Nat.mul_le_mul_right (2 ^ (52 - n.log2)) (Nat.log2_self_le hn)
    have hhigh := Nat.mul_lt_mul_of_pos_right (@Nat.lt_log2_self n)
      (Nat.two_pow_pos (52 - n.log2))
    rw [← Nat.pow_add, Nat.add_sub_cancel' hlog.le] at hlow
    rw [← Nat.pow_add, Nat.add_right_comm, Nat.add_sub_cancel' hlog.le] at hhigh
    rw [aligned_of_le hlog.le]
    exact ⟨hlow, hhigh⟩

-- ════════════════════════════════════════════════════════════════════════
-- Appended bits
-- ════════════════════════════════════════════════════════════════════════

/-- A number is rounded to a multiple of the weight of its last leading bit. It is at most half of
that weight away, and exactly half only if the multiple is even. -/
theorem Splits.exists_multiple (h : Splits n q e r) :
    ∃ j, q ≤ j ∧ j ≤ q + 1 ∧ roundNat n = j * 2 ^ e ∧ 2 * |(n : ℤ) - j * 2 ^ e| ≤ 2 ^ e ∧
      (2 * |(n : ℤ) - j * 2 ^ e| = 2 ^ e → j % 2 = 0) := by
  have hround := h.roundNat_eq
  obtain ⟨-, -, hrest, rfl⟩ := h
  have hpower : ((2 ^ e : Nat) : ℤ) = 2 ^ e := by push_cast; rfl
  by_cases hup : 2 ^ e < 2 * r ∨ (2 * r = 2 ^ e ∧ q % 2 = 1)
  · rw [if_pos hup] at hround
    have hdist : |((q * 2 ^ e + r : Nat) : ℤ) - (q + 1 : Nat) * 2 ^ e| = 2 ^ e - r := by
      rw [abs_sub_comm, abs_of_nonneg (by push_cast; linarith)]
      push_cast
      ring
    refine ⟨q + 1, by omega, le_rfl, hround, ?_, ?_⟩
    · rw [hdist]
      omega
    · rw [hdist]
      omega
  · rw [if_neg hup] at hround
    have hdist : |((q * 2 ^ e + r : Nat) : ℤ) - q * 2 ^ e| = r := by
      rw [abs_of_nonneg (by push_cast; linarith)]
      push_cast
      ring
    refine ⟨q, le_rfl, by omega, hround, ?_, ?_⟩
    · rw [hdist]
      omega
    · rw [hdist]
      omega

/-- Further bits are appended to those after the 53 leading ones. -/
theorem Splits.append (h : Splits n q e r) {t tail : Nat} (htail : tail < 2 ^ t) :
    Splits (n * 2 ^ t + tail) q (e + t) (r * 2 ^ t + tail) := by
  refine ⟨h.lower, h.upper, ?_, ?_⟩
  · have hrest : (r + 1) * 2 ^ t ≤ 2 ^ e * 2 ^ t := Nat.mul_le_mul_right _ h.rest
    rw [Nat.add_mul] at hrest
    rw [Nat.pow_add]
    omega
  · rw [h.eq, Nat.pow_add]
    ring

theorem Splits.unique {q' e' r' : Nat} (h : Splits n q e r) (h' : Splits n q' e' r') :
    q = q' ∧ e = e' ∧ r = r' := by
  have hlog := h.log2_eq
  rw [h'.log2_eq] at hlog
  obtain rfl : e = e' := by omega
  obtain rfl : q = q' := h.aligned_eq.symm.trans h'.aligned_eq
  have hrest : q * 2 ^ e + r = q * 2 ^ e + r' := h.eq.symm.trans h'.eq
  exact ⟨rfl, rfl, by omega⟩

/-- The number lies halfway between two neighbouring doubles, and the lower one of them is even. -/
def IsLowerHalfway (n : Nat) : Prop :=
  ∃ q k, q % 2 = 0 ∧ 2 ^ 52 ≤ q ∧ q < 2 ^ 53 ∧ n = (2 * q + 1) * 2 ^ k

theorem Splits.isLowerHalfway_iff (h : Splits n q e r) :
    IsLowerHalfway n ↔ 2 * r = 2 ^ e ∧ q % 2 = 0 := by
  constructor
  · rintro ⟨q', k, heven, hlower, hupper, hn⟩
    have hsplit : Splits n q' (k + 1) (2 ^ k) := by
      refine ⟨hlower, hupper, Nat.pow_lt_pow_succ (by decide), ?_⟩
      rw [hn, Nat.pow_succ]
      ring
    obtain ⟨rfl, rfl, rfl⟩ := h.unique hsplit
    exact ⟨(Nat.pow_succ' ..).symm, heven⟩
  · rintro ⟨hhalf, heven⟩
    cases e with
    | zero => omega
    | succ k =>
      have hr : r = 2 ^ k := by
        rw [Nat.pow_succ] at hhalf
        omega
      refine ⟨q, k, heven, h.lower, h.upper, ?_⟩
      rw [h.eq, hr, Nat.pow_succ]
      ring

theorem Splits.pos_of_le (h : Splits n q e r) (hn : 2 ^ 53 ≤ n) : 0 < e := by
  obtain ⟨-, hupper, hrest, heq⟩ := h
  by_contra he
  obtain rfl : e = 0 := by omega
  omega

theorem two_pow_le_roundNat (hn : 2 ^ 53 ≤ n) : 2 ^ 53 ≤ roundNat n := by
  obtain ⟨q, e, r, hsplit⟩ := exists_splits (n := n) (by omega)
  obtain ⟨j, hj, -, hround, -⟩ := hsplit.exists_multiple
  have hlower := hsplit.lower
  have hpower : 2 ^ 1 ≤ 2 ^ e := Nat.pow_le_pow_right (by decide) (hsplit.pos_of_le hn)
  rw [hround]
  exact Nat.mul_le_mul (by omega : 2 ^ 52 ≤ j) hpower

/-- Bits appended to a short number of more than 53 bits are lost. -/
theorem roundNat_append_of_isShort (hshort : IsShort n) (hn : 2 ^ 53 ≤ n) {w d : Nat}
    (hd : d < 2 ^ w) : roundNat (n * 2 ^ w + d) = n * 2 ^ w := by
  obtain ⟨q, e, r, hsplit⟩ := exists_splits (n := n) (by omega)
  obtain rfl := hshort.rest_eq_zero hsplit
  have hpower : 2 * 2 ^ w ≤ 2 ^ (e + w) := by
    rw [← Nat.pow_succ']
    exact Nat.pow_le_pow_right (by decide) (by have := hsplit.pos_of_le hn; omega)
  rw [(hsplit.append hd).roundNat_eq, if_neg (by omega), hsplit.eq, Nat.pow_add]
  ring

/-- Rounding before more bits are appended gives the same as rounding afterwards, unless the number
is halfway and is first rounded down: then the appended bits come too late, and the result is too
small. -/
theorem roundNat_append (hn : 2 ^ 53 ≤ n) {t tail : Nat} (htail : tail < 2 ^ t) :
    roundNat n * 2 ^ t ≤ roundNat (n * 2 ^ t + tail) ∧
      (roundNat n * 2 ^ t = roundNat (n * 2 ^ t + tail) ↔ ¬(IsLowerHalfway n ∧ tail ≠ 0)) := by
  obtain ⟨q, e, r, hsplit⟩ := exists_splits (n := n) (by omega)
  rw [(hsplit.append htail).roundNat_eq, hsplit.roundNat_eq, hsplit.isLowerHalfway_iff,
    Nat.mul_assoc, ← Nat.pow_add]
  have hpos : 0 < 2 ^ (e + t) := Nat.two_pow_pos _
  obtain ⟨k, rfl⟩ : ∃ k, e = k + 1 := ⟨e - 1, by have := hsplit.pos_of_le hn; omega⟩
  have hshift : 2 ^ (k + 1 + t) = 2 * (2 ^ k * 2 ^ t) := by
    rw [Nat.pow_add, Nat.pow_succ]
    ring
  have hlast : 2 ^ (k + 1) = 2 * 2 ^ k := Nat.pow_succ'
  rcases lt_trichotomy r (2 ^ k) with hr | rfl | hr
  · have hrest := Nat.mul_le_mul_right (2 ^ t) hr
    rw [Nat.succ_mul] at hrest
    rw [if_neg (by omega), if_neg (by omega)]
    exact ⟨le_rfl, iff_of_true rfl (by omega)⟩
  · by_cases hodd : q % 2 = 1
    · rw [if_pos (by omega), if_pos (by omega)]
      exact ⟨le_rfl, iff_of_true rfl (by omega)⟩
    · rw [if_neg (by omega : ¬(2 ^ (k + 1) < 2 * 2 ^ k ∨ 2 * 2 ^ k = 2 ^ (k + 1) ∧ q % 2 = 1))]
      by_cases hzero : tail = 0
      · rw [if_neg (by omega)]
        exact ⟨le_rfl, iff_of_true rfl (by omega)⟩
      · rw [if_pos (by omega)]
        refine ⟨Nat.mul_le_mul_right _ (by omega), iff_of_false ?_ (by omega)⟩
        rw [Nat.mul_left_inj (by omega)]
        omega
  · have hrest := Nat.mul_le_mul_right (2 ^ t) hr
    rw [Nat.succ_mul] at hrest
    rw [if_pos (by omega), if_pos (by omega)]
    exact ⟨le_rfl, iff_of_true rfl (by omega)⟩

-- ════════════════════════════════════════════════════════════════════════
-- The nearest double
-- ════════════════════════════════════════════════════════════════════════

/-- The number that a finite double stands for. -/
def toRat (x : Binary64) : ℚ := (if x.negative then -1 else 1) * (x.significand * 2 ^ x.scale)

/-- Whether the number is neither infinite nor not a number. -/
def isFinite (x : Binary64) : Bool := x.exponent.val != 2047

/-- The double is the nearest one to the given number. If another one is as near, its significand is
even. -/
structure IsNearest (v : ℚ) (x : Binary64) : Prop where
  finite : x.isFinite = true
  closest : ∀ y : Binary64, y.isFinite = true → |v - x.toRat| ≤ |v - y.toRat|
  even : ∀ y : Binary64, y.isFinite = true → |v - x.toRat| = |v - y.toRat| →
    y.toRat = x.toRat ∨ x.significand % 2 = 0

theorem exponent_ofShortNat (hn : n ≠ 0) (hlog : n.log2 < 1024) :
    (ofShortNat n).exponent.val = n.log2 + 1023 := by
  rw [ofShortNat, if_neg hn]
  exact Nat.mod_eq_of_lt (by omega)

theorem scale_ofShortNat (hn : n ≠ 0) (hlog : n.log2 < 1024) :
    (ofShortNat n).scale = (n.log2 : Int) - 52 := by
  rw [scale, exponent_ofShortNat hn hlog, if_neg (by omega)]
  omega

theorem significand_ofShortNat (hn : n ≠ 0) (hlog : n.log2 < 1024) :
    (ofShortNat n).significand = aligned n := by
  obtain ⟨hlower, hupper⟩ := aligned_bounds hn
  have hfraction : (ofShortNat n).fraction.val = aligned n % 2 ^ 52 := by
    rw [ofShortNat, if_neg hn]
    rfl
  rw [significand, exponent_ofShortNat hn hlog, if_neg (by omega), hfraction]
  show 2 ^ 52 + aligned n % 2 ^ 52 = aligned n
  omega

/-- A short number is the value of its double. -/
theorem toNat?_ofShortNat (hn : IsShort n) (hne : n ≠ 0) (hlog : n.log2 < 1024) :
    (ofShortNat n).toNat? = some n := by
  rw [toNat?, scale_ofShortNat hne hlog, significand_ofShortNat hne hlog]
  by_cases hlarge : 2 ^ 52 ≤ n
  · obtain ⟨q, e, r, hsplit⟩ := exists_splits hlarge
    obtain rfl := hn.rest_eq_zero hsplit
    have hscale : (n.log2 : Int) - 52 = e := by
      rw [hsplit.log2_eq]
      omega
    rw [hsplit.aligned_eq, hscale, if_pos (by omega), Int.toNat_natCast, Nat.shiftLeft_eq]
    exact congrArg some hsplit.eq.symm
  · have hsmall : n.log2 < 52 := (Nat.log2_lt hne).2 (by omega)
    have hplaces : (-((n.log2 : Int) - 52)).toNat = 52 - n.log2 := by omega
    rw [if_neg (by omega), aligned_of_le hsmall.le]
    simp only [hplaces, Nat.one_shiftLeft, Nat.shiftRight_eq_div_pow, Nat.mul_mod_left, if_true,
      Nat.mul_div_cancel n (Nat.two_pow_pos _)]

/-- What a finite double stands for, without its sign. -/
def magnitude (x : Binary64) : ℚ := x.significand * 2 ^ x.scale

theorem toRat_eq (x : Binary64) :
    x.toRat = if x.negative then -x.magnitude else x.magnitude := by
  rw [toRat, magnitude]
  split
  · ring
  · ring

/-- The magnitude of a double that is a whole number. -/
theorem toNat?_eq_some_iff {x : Binary64} : x.toNat? = some n ↔ x.magnitude = n := by
  rw [toNat?, magnitude]
  by_cases hscale : 0 ≤ x.scale
  · obtain ⟨k, hk⟩ := Int.eq_ofNat_of_zero_le hscale
    rw [if_pos hscale, hk, Int.toNat_natCast, Nat.shiftLeft_eq, Option.some.injEq, zpow_natCast]
    exact_mod_cast Iff.rfl
  · obtain ⟨k, hk⟩ : ∃ k : Nat, x.scale = -k := ⟨(-x.scale).toNat, by omega⟩
    have hdivides : x.significand % 2 ^ k = 0 ∧ x.significand / 2 ^ k = n ↔
        x.significand = n * 2 ^ k := by
      constructor
      · rintro ⟨hmod, hdiv⟩
        rw [← hdiv, Nat.div_mul_cancel (Nat.dvd_of_mod_eq_zero hmod)]
      · intro heq
        rw [heq, Nat.mul_mod_left, Nat.mul_div_cancel n (Nat.two_pow_pos k)]
        exact ⟨rfl, rfl⟩
    rw [if_neg hscale]
    simp only [hk, neg_neg, Int.toNat_natCast, Nat.one_shiftLeft, Nat.shiftRight_eq_div_pow,
      Option.ite_none_right_eq_some, Option.some.injEq, hdivides]
    rw [zpow_neg, zpow_natCast, mul_inv_eq_iff_eq_mul₀ (by positivity)]
    exact_mod_cast Iff.rfl

/-- The value of a double that is a whole number. -/
theorem toRat_of_toNat? {x : Binary64} (hsign : x.negative = false) (h : x.toNat? = some n) :
    x.toRat = n := by
  rw [toRat_eq, hsign, if_neg Bool.false_ne_true, toNat?_eq_some_iff.1 h]

theorem ofNat_of_log2_lt (hlog : (roundNat n).log2 < 1024) :
    ofNat n = ofShortNat (roundNat n) := by
  rw [ofNat]
  exact if_neg (by omega)

theorem negative_ofShortNat (n : Nat) : (ofShortNat n).negative = false := by
  rw [ofShortNat]
  split
  · rfl
  · rfl

theorem isFinite_ofShortNat (hlog : n.log2 < 1024) : (ofShortNat n).isFinite = true := by
  by_cases hn : n = 0
  · rw [hn]
    rfl
  · rw [isFinite, exponent_ofShortNat hn hlog]
    exact bne_iff_ne.2 (by omega)

/-- A short number is the value of its double. -/
theorem toRat_ofShortNat (hn : IsShort n) (hlog : n.log2 < 1024) : (ofShortNat n).toRat = n := by
  by_cases hne : n = 0
  · rw [hne]
    simp [toRat, significand, ofShortNat]
  · exact toRat_of_toNat? (negative_ofShortNat n) (toNat?_ofShortNat hn hne hlog)

theorem aligned_mod_two {j : Nat} (hlower : 2 ^ 52 ≤ j) (hupper : j ≤ 2 ^ 53) (heven : j % 2 = 0) :
    aligned (j * 2 ^ e) % 2 = 0 := by
  by_cases hcarry : j = 2 ^ 53
  · have hsplit : Splits (j * 2 ^ e) (2 ^ 52) (e + 1) 0 :=
      ⟨le_rfl, by decide, Nat.two_pow_pos _, by rw [hcarry, Nat.pow_succ 2 e]; ring⟩
    rw [hsplit.aligned_eq]
    decide
  · have hsplit : Splits (j * 2 ^ e) j e 0 :=
      ⟨hlower, by omega, Nat.two_pow_pos _, rfl⟩
    rw [hsplit.aligned_eq, heven]

theorem significand_lt (x : Binary64) : x.significand < 2 ^ 53 := by
  have hfraction : x.fraction.val < 2 ^ 52 := x.fraction.isLt
  rw [significand]
  split
  · omega
  · show 2 ^ 52 + x.fraction.val < 2 ^ 53
    omega

/-- A double is a multiple of `2 ^ e`, or its scale is finer and it is below the numbers of 53 bits
whose last bit has the weight `2 ^ e`. -/
theorem exists_multiple_or_le (y : Binary64) (e : Int) :
    (∃ k : ℤ, y.toRat = k * 2 ^ e) ∨
      (y.scale < e ∧ y.toRat ≤ (2 ^ 53 - 1) * 2 ^ (e - 1)) := by
  by_cases hscale : e ≤ y.scale
  · obtain ⟨k, hk⟩ : ∃ k : Nat, y.scale = k + e := ⟨(y.scale - e).toNat, by omega⟩
    refine .inl ⟨(if y.negative then -1 else 1) * (y.significand * 2 ^ k), ?_⟩
    rw [toRat, hk, zpow_add₀ (by norm_num), zpow_natCast]
    push_cast
    ring
  · refine .inr ⟨by omega, ?_⟩
    have hsignificand : (y.significand : ℚ) ≤ 2 ^ 53 - 1 := by
      have := significand_lt y
      rw [le_sub_iff_add_le]
      exact_mod_cast this
    have hpower : (2 : ℚ) ^ y.scale ≤ 2 ^ (e - 1) := zpow_le_zpow_right₀ (by norm_num) (by omega)
    have hnonneg : (0 : ℚ) ≤ y.significand * 2 ^ y.scale := by positivity
    calc y.toRat
        ≤ y.significand * 2 ^ y.scale := by
          rw [toRat]
          split
          · linarith
          · rw [one_mul]
      _ ≤ (2 ^ 53 - 1) * 2 ^ (e - 1) := by gcongr

/-- The same for weights that are whole numbers. -/
theorem exists_multiple_or_lt (y : Binary64) (e : Nat) :
    (∃ k : ℤ, y.toRat = k * 2 ^ e) ∨ y.toRat < 2 ^ 52 * 2 ^ e := by
  rcases exists_multiple_or_le y e with ⟨k, hk⟩ | ⟨-, hy⟩
  · rw [zpow_natCast] at hk
    exact .inl ⟨k, hk⟩
  · rw [zpow_sub_one₀ (by norm_num), zpow_natCast] at hy
    have hpos : (0 : ℚ) < 2 ^ e := by positivity
    exact .inr (by linarith)

/-- A number that is a double is nearest to itself. -/
theorem isNearest_of_eq {v : ℚ} {x : Binary64} (hfinite : x.isFinite = true) (h : x.toRat = v) :
    IsNearest v x := by
  refine ⟨hfinite, fun y _ => ?_, fun y _ hy => .inl ?_⟩
  · rw [h, sub_self, abs_zero]
    exact abs_nonneg _
  · rw [h, sub_self, abs_zero] at hy
    rw [h]
    exact (sub_eq_zero.1 (abs_eq_zero.1 hy.symm)).symm

/-- A multiple that is at most half a step away is nearest among all multiples. -/
theorem nearest_multiple {v u : ℚ} {j : ℤ} (hu : 0 < u) (hhalf : 2 * |v - j * u| ≤ u) (k : ℤ) :
    |v - j * u| ≤ |v - k * u| ∧
      (|v - j * u| = |v - k * u| → k = j ∨ 2 * |v - j * u| = u) := by
  by_cases hk : k = j
  · rw [hk]
    exact ⟨le_rfl, fun _ => .inl rfl⟩
  · have hstep : (1 : ℚ) ≤ |(j : ℚ) - k| := by
      exact_mod_cast Int.one_le_abs (sub_ne_zero.2 (Ne.symm hk))
    have hapart : u ≤ |v - k * u| + |v - j * u| := by
      calc u = 1 * u := (one_mul u).symm
        _ ≤ |(j : ℚ) - k| * u := mul_le_mul_of_nonneg_right hstep hu.le
        _ = |(v - k * u) - (v - j * u)| := by
            rw [← abs_of_pos hu, ← abs_mul, abs_of_pos hu]
            congr 1
            ring
        _ ≤ |v - k * u| + |v - j * u| := abs_sub _ _
    exact ⟨by linarith, fun htie => .inr (by linarith)⟩

/-- A double that is at most half a step away from a number with 53 leading bits is the nearest one
to it. -/
theorem isNearest_of_multiple {v : ℚ} {j : ℤ} {x : Binary64} (hfinite : x.isFinite = true)
    (hx : x.toRat = j * 2 ^ e) (hv : 2 ^ 52 * 2 ^ e ≤ v) (hhalf : 2 * |v - j * 2 ^ e| ≤ 2 ^ e)
    (heven : 2 * |v - j * 2 ^ e| = 2 ^ e → x.significand % 2 = 0) : IsNearest v x := by
  have hnearest := nearest_multiple (by positivity) hhalf
  -- Smaller doubles lie below the multiple `2 ^ 52` of the step, which is not above the number.
  have hbelow (y : Binary64) (hy : y.toRat < 2 ^ 52 * 2 ^ e) :
      |v - x.toRat| < |v - y.toRat| := by
    have hmultiple : |v - x.toRat| ≤ |v - ((2 ^ 52 : ℤ) : ℚ) * 2 ^ e| := by
      rw [hx]
      exact (hnearest (2 ^ 52)).1
    rw [Int.cast_pow, Int.cast_ofNat, abs_of_nonneg (sub_nonneg.2 hv)] at hmultiple
    have hdistance : v - y.toRat ≤ |v - y.toRat| := le_abs_self _
    linarith
  constructor
  · exact hfinite
  · intro y _
    rcases exists_multiple_or_lt y e with ⟨k, hk⟩ | hy
    · rw [hx, hk]
      exact (hnearest k).1
    · exact (hbelow y hy).le
  · intro y _ htie
    rcases exists_multiple_or_lt y e with ⟨k, hk⟩ | hy
    · rw [hx, hk] at htie
      rcases (hnearest k).2 htie with rfl | hhalfway
      · exact .inl (hk.trans hx.symm)
      · exact .inr (heven hhalfway)
    · exact absurd htie (hbelow y hy).ne

/-- Rounding a number gives the nearest double. -/
theorem isNearest_ofNat (hlog : (roundNat n).log2 < 1024) : IsNearest n (ofNat n) := by
  have hvalue := toRat_ofShortNat (isShort_roundNat n) hlog
  have hfinite := isFinite_ofShortNat hlog
  rw [ofNat_of_log2_lt hlog]
  by_cases hsmall : n < 2 ^ 53
  · rw [roundNat_of_lt hsmall] at hvalue hfinite ⊢
    exact isNearest_of_eq hfinite hvalue
  · obtain ⟨q, e, r, hsplit⟩ := exists_splits (n := n) (by omega)
    obtain ⟨j, hqj, hjq, hround, hhalf, heven⟩ := hsplit.exists_multiple
    obtain ⟨hlower, hupper, -, heq⟩ := hsplit
    have hpos : 0 < j * 2 ^ e := Nat.mul_pos (by omega) (Nat.two_pow_pos e)
    have hn : 2 ^ 52 * 2 ^ e ≤ n := by
      have := Nat.mul_le_mul_right (2 ^ e) hlower
      omega
    apply isNearest_of_multiple (e := e) (j := j) hfinite
    · rw [hvalue, hround]
      push_cast
      rfl
    · exact_mod_cast hn
    · exact_mod_cast hhalf
    · intro hhalfway
      rw [significand_ofShortNat (by omega) hlog, hround]
      exact aligned_mod_two (by omega) (by omega) (heven (by exact_mod_cast hhalfway))

theorem log2_lt_of_le (h : n ≤ wholeLimit) : n.log2 < 1024 := by
  by_cases hn : n = 0
  · rw [hn]
    decide
  · have hlimit : wholeLimit < 2 ^ 70 := by decide
    have := (Nat.log2_lt hn).2 (h.trans_lt hlimit)
    omega

/-- A finite double is written with its sign and its digits, and both zeros without a sign. -/
theorem text_of_isFinite {x : Binary64} (hfinite : x.isFinite = true) :
    x.text = if x.significand = 0 then "0"
      else String.ofList ((if x.negative then ['-'] else []) ++ x.magnitudeChars) := by
  have hexponent : (x.exponent.val == 2047) = false := beq_false_of_ne (bne_iff_ne.1 hfinite)
  have hnan : x.isNaN = false := by rw [isNaN, hexponent, Bool.false_and]
  have hinfinite : x.isInfinite = false := by rw [isInfinite, hexponent, Bool.false_and]
  rw [text, hnan, hinfinite, if_neg Bool.false_ne_true, if_neg Bool.false_ne_true]

theorem text_ofShortNat (hn : n ≠ 0) (hlog : n.log2 < 1024) :
    (ofShortNat n).text = String.ofList (ofShortNat n).magnitudeChars := by
  have hzero : (ofShortNat n).significand ≠ 0 := by
    have := aligned_bounds hn
    rw [significand_ofShortNat hn hlog]
    omega
  rw [text_of_isFinite (isFinite_ofShortNat hlog), if_neg hzero, negative_ofShortNat,
    if_neg Bool.false_ne_true, List.nil_append]

/-- Whole numbers below `10 ^ 21` are written with all their digits. -/
theorem magnitudeChars_of_lt {x : Binary64} (h : x.toNat? = some n) (hlt : n < wholeLimit) :
    x.magnitudeChars = Nat.toDigits 10 n := by
  rw [magnitudeChars, h]
  dsimp only
  rw [if_pos hlt]
  exact List.append_nil _

/-- Short numbers up to `10 ^ 21` are written with all their digits. -/
theorem text_ofNat (hn : IsShort n) (hle : n ≤ wholeLimit) : (ofNat n).text = Nat.repr n := by
  have hlog := log2_lt_of_le hle
  have hround := hn.roundNat_eq
  rw [ofNat_of_log2_lt (by rwa [hround]), hround]
  by_cases hne : n = 0
  · rw [hne]
    rfl
  · have hwhole := toNat?_ofShortNat hn hne hlog
    rw [text_ofShortNat hne hlog]
    by_cases hlt : n < wholeLimit
    · rw [magnitudeChars_of_lt hwhole hlt, Nat.repr]
    · -- The limit itself has one digit other than zero, which is the shortest form.
      obtain rfl : n = wholeLimit := by omega
      have hchars : (Shortest.decimal (ofShortNat wholeLimit)).chars =
          Nat.toDigits 10 wholeLimit := by
        decide +kernel
      rw [magnitudeChars, hwhole]
      simp only [hlt, if_false, hchars, Nat.repr]

end ExprLowering.Binary64
