import ExprLowering.Proofs.Intervals
import Mathlib.Data.List.TakeWhile

/-!
# Numbers read back

The text of a finite double is digits, or digits with a point between them, perhaps after a minus
sign. This file says what such a text stands for and shows that the nearest double to it is the one
that was written.

## Main definitions

* `Decimal.readText?`: the number that a text stands for.
* `Binary64.RoundsTo`: the double to which a number is rounded.

## Main results

* `Decimal.read?_chars`: the positional text of a decimal reads as the decimal.
* `Binary64.number_text_reads_back`: every finite double reads back.
-/

namespace ExprLowering.Decimal

/-- The number that a decimal stands for. -/
def toRat (d : Decimal) : ℚ := d.digits * 10 ^ d.exponent

/-- The number that digits stand for, or digits with a point between them. -/
def read? (cs : List Char) : Option ℚ :=
  let whole := cs.takeWhile Char.isDigit
  match cs.dropWhile Char.isDigit with
  | [] => if whole.isEmpty then none else some (Nat.ofDigitChars 10 whole 0)
  | '.' :: fraction =>
    if whole.isEmpty || fraction.isEmpty || !fraction.all Char.isDigit then none
    else some (Nat.ofDigitChars 10 (whole ++ fraction) 0 / 10 ^ fraction.length)
  | _ => none

/-- The number that a text stands for: digits, digits with a point between them, or either of them
after a minus sign. -/
def readText? (text : String) : Option ℚ :=
  match text.toList with
  | '-' :: cs => (read? cs).map (- ·)
  | cs => read? cs

theorem read?_digits {cs : List Char} (hne : cs ≠ []) (hcs : ∀ c ∈ cs, c.isDigit = true) :
    read? cs = some (Nat.ofDigitChars 10 cs 0 : ℚ) := by
  have hwhole : cs.takeWhile Char.isDigit = cs := List.takeWhile_eq_self_iff.2 hcs
  have hrest : cs.dropWhile Char.isDigit = [] := List.dropWhile_eq_nil_iff.2 hcs
  simp [read?, hwhole, hrest, hne]

theorem read?_point {whole fraction : List Char} (hwhole : whole ≠ []) (hfraction : fraction ≠ [])
    (hdigits : ∀ c ∈ whole ++ fraction, c.isDigit = true) :
    read? (whole ++ '.' :: fraction) =
      some (Nat.ofDigitChars 10 (whole ++ fraction) 0 / 10 ^ fraction.length : ℚ) := by
  have hleft : ∀ c ∈ whole, c.isDigit = true := fun c hc => hdigits c (by simp [hc])
  have hright : fraction.all Char.isDigit = true :=
    List.all_eq_true.2 fun c hc => hdigits c (by simp [hc])
  have htake : (whole ++ '.' :: fraction).takeWhile Char.isDigit = whole := by
    rw [List.takeWhile_append_of_pos hleft]
    simp
  have hdrop : (whole ++ '.' :: fraction).dropWhile Char.isDigit = '.' :: fraction := by
    rw [List.dropWhile_append_of_pos hleft]
    simp
  simp [read?, htake, hdrop, hwhole, hfraction, hright]

theorem isDigit_digitChars {n : Nat} {c : Char} (h : c ∈ digitChars n) : c.isDigit = true :=
  Nat.isDigit_of_mem_toDigits (by decide) le_rfl h

theorem ofDigitChars_digitChars (n : Nat) : Nat.ofDigitChars 10 (digitChars n) 0 = n :=
  Nat.ofDigitChars_ten_toDigits

theorem isDigit_of_mem_zeros {k : Nat} {cs : List Char} (hcs : ∀ c ∈ cs, c.isDigit = true)
    {c : Char} (h : c ∈ List.replicate k '0' ∨ c ∈ cs) : c.isDigit = true := by
  rcases h with h | h
  · rw [List.eq_of_mem_replicate h]
    decide
  · exact hcs c h

/-- Digits with a point before the last places are a fraction. -/
theorem read?_withPoint {places : Nat} {cs : List Char} (hplaces : 0 < places)
    (hcs : ∀ c ∈ cs, c.isDigit = true) :
    read? (withPoint places cs) = some (Nat.ofDigitChars 10 cs 0 / 10 ^ places : ℚ) := by
  rw [withPoint]
  generalize hpadded : List.replicate (places + 1 - cs.length) '0' ++ cs = padded
  have hlength : places + 1 ≤ padded.length := by
    rw [← hpadded, List.length_append, List.length_replicate]
    omega
  have hvalue : Nat.ofDigitChars 10 padded 0 = Nat.ofDigitChars 10 cs 0 := by
    rw [← hpadded, Nat.ofDigitChars_append, Nat.ofDigitChars_replicate_zero, Nat.mul_zero]
  have hdigits : ∀ c ∈ padded, c.isDigit = true := by
    intro c hc
    rw [← hpadded, List.mem_append] at hc
    exact isDigit_of_mem_zeros hcs hc
  have hlast : (padded.drop (padded.length - places)).length = places := by
    rw [List.length_drop]
    omega
  rw [read?_point, List.take_append_drop, hvalue, hlast]
  · apply List.ne_nil_of_length_pos
    rw [List.length_take]
    omega
  · apply List.ne_nil_of_length_pos
    omega
  · rwa [List.take_append_drop]

/-- The positional text of a decimal reads as the decimal. -/
theorem read?_chars (d : Decimal) : read? d.chars = some d.toRat := by
  rw [chars, toRat]
  by_cases hexponent : 0 ≤ d.exponent
  · obtain ⟨k, hk⟩ := Int.eq_ofNat_of_zero_le hexponent
    rw [if_pos hexponent, hk, Int.toNat_natCast, zpow_natCast, read?_digits,
      Nat.ofDigitChars_append, Nat.ofDigitChars_replicate_zero, ofDigitChars_digitChars,
      Nat.mul_comm]
    · push_cast
      rfl
    · exact List.append_ne_nil_of_left_ne_nil Nat.toDigits_ne_nil _
    · intro c hc
      exact isDigit_of_mem_zeros (fun c => isDigit_digitChars) (List.mem_append.1 hc).symm
  · obtain ⟨k, hk⟩ : ∃ k : Nat, d.exponent = -k := ⟨(-d.exponent).toNat, by omega⟩
    rw [if_neg hexponent, hk, neg_neg, Int.toNat_natCast,
      read?_withPoint (by omega) fun c => isDigit_digitChars, ofDigitChars_digitChars, zpow_neg,
      zpow_natCast, div_eq_mul_inv]

/-- The same for a text with a sign. -/
theorem readText?_chars (negative : Bool) (d : Decimal) :
    readText? (String.ofList ((if negative then ['-'] else []) ++ d.chars)) =
      some (if negative then -d.toRat else d.toRat) := by
  have hread := read?_chars d
  rw [readText?, String.toList_ofList]
  cases negative with
  | true => simp [hread]
  | false =>
    simp only [Bool.false_eq_true, if_false, List.nil_append]
    split
    · rename_i cs hcs
      rw [hcs] at hread
      simp [read?] at hread
    · exact hread

end ExprLowering.Decimal

namespace ExprLowering.Binary64

open Decimal (readText?)

variable {x : Binary64} {v : ℚ}

/-- Rounding a number to the nearest double, with ties to even, gives the double. Numbers from the
middle between the largest double and `2 ^ 1024` on are rounded to an infinity. -/
structure RoundsTo (v : ℚ) (x : Binary64) : Prop where
  nearest : IsNearest v x
  inRange : |v| < 2 ^ 1024 - 2 ^ 970

/-- The digits of a double are those of a decimal in its rounding interval. -/
theorem exists_decimal (hx : x.significand ≠ 0) :
    ∃ d : Decimal, x.magnitudeChars = d.chars ∧ x.InInterval d.toRat := by
  have hshortest : x.InInterval (Shortest.decimal x).toRat :=
    (rounds_iff ..).1 (rounds_search hx _)
  rw [magnitudeChars]
  cases hwhole : x.toNat? with
  | none => exact ⟨_, rfl, hshortest⟩
  | some n =>
    by_cases hlimit : n < wholeLimit
    · refine ⟨⟨n, 0⟩, if_pos hlimit, ?_⟩
      rw [Decimal.toRat, zpow_zero, mul_one, ← toNat?_eq_some_iff.1 hwhole]
      exact inInterval_magnitude hx
    · exact ⟨_, if_neg hlimit, hshortest⟩

/-- A double is what the numbers in its rounding interval are rounded to, with its sign. -/
theorem InInterval.roundsTo (h : x.InInterval v) (hv : 0 ≤ v) (hfinite : x.isFinite = true)
    (hx : x.significand ≠ 0) : RoundsTo (if x.negative then -v else v) x := by
  have hrange : |v| < 2 ^ 1024 - 2 ^ 970 := by
    rw [abs_of_nonneg hv]
    exact h.lt_overflow hfinite
  cases hsign : x.negative with
  | false => exact ⟨h.isNearest hfinite hsign hx, hrange⟩
  | true =>
    have hopposite : x.opposite.InInterval v := ⟨h.lower, h.upper, h.even⟩
    have hpositive : x.opposite.negative = false := by rw [opposite, hsign]; rfl
    have hback : x.opposite.opposite = x := by simp [opposite]
    have hnearest := (hopposite.isNearest hfinite hpositive hx).opposite
    rw [hback] at hnearest
    rw [if_pos rfl]
    exact ⟨hnearest, by rwa [abs_neg]⟩

/-- A double that is an integer below `10 ^ 21` is written with all its digits. -/
theorem text_of_toRat_eq {z : ℤ} (hfinite : x.isFinite = true) (hz : x.toRat = z)
    (hlimit : |z| < 10 ^ 21) : x.text = toString z := by
  have hmagnitude : x.magnitude = z.natAbs := by
    have hnonneg : 0 ≤ x.magnitude := by rw [magnitude]; positivity
    have habs : |x.toRat| = x.magnitude := by
      rw [toRat_eq]
      split
      · rw [abs_neg, abs_of_nonneg hnonneg]
      · rw [abs_of_nonneg hnonneg]
    rw [← habs, hz, Nat.cast_natAbs, Int.cast_abs]
  rw [Int.abs_eq_natAbs] at hlimit
  rw [text_of_isFinite hfinite]
  rw [toRat_eq, hmagnitude] at hz
  generalize z.natAbs = n at hz hmagnitude hlimit
  by_cases hx : x.significand = 0
  · have hn : (n : ℚ) = 0 := by rw [← hmagnitude, magnitude, hx, Nat.cast_zero, zero_mul]
    rw [hn, neg_zero, ite_self] at hz
    obtain rfl : z = 0 := by exact_mod_cast hz.symm
    rw [if_pos hx]
    rfl
  · have hchars : x.magnitudeChars = Nat.toDigits 10 n :=
      magnitudeChars_of_lt (toNat?_eq_some_iff.2 hmagnitude) (by rw [wholeLimit]; omega)
    have hpositive : 0 < n := by
      have : (0 : ℚ) < n := by
        rw [← hmagnitude, magnitude]
        positivity
      exact_mod_cast this
    rw [if_neg hx, hchars]
    cases hsign : x.negative with
    | false =>
      rw [hsign, if_neg Bool.false_ne_true] at hz
      obtain rfl : z = n := by exact_mod_cast hz.symm
      rfl
    | true =>
      rw [hsign, if_pos rfl] at hz
      obtain rfl : z = -n := by exact_mod_cast hz.symm
      obtain ⟨k, rfl⟩ := Nat.exists_eq_add_one.2 hpositive
      show _ = "-" ++ Nat.repr (k + 1)
      simp [Nat.repr]

/-- Every finite double is written as a text that reads back as the double, and integers below
`10 ^ 21` are written with all their digits. -/
theorem number_text_reads_back {bits : UInt64} (hfinite : (ofBits bits).isFinite = true) :
    (∃ v, readText? (ofBits bits).text = some v ∧ RoundsTo v (ofBits bits)) ∧
      ∀ z : ℤ, (ofBits bits).toRat = z → |z| < 10 ^ 21 → (ofBits bits).text = toString z := by
  refine ⟨?_, fun z => text_of_toRat_eq hfinite⟩
  rw [text_of_isFinite hfinite]
  by_cases hx : (ofBits bits).significand = 0
  · have hzero : (ofBits bits).toRat = 0 := by simp [toRat, hx]
    refine ⟨0, ?_, isNearest_of_eq hfinite hzero, ?_⟩
    · rw [if_pos hx]
      decide +kernel
    · rw [abs_zero, sub_pos]
      exact pow_lt_pow_right₀ (by norm_num) (by norm_num)
  · obtain ⟨d, hchars, hinterval⟩ := exists_decimal hx
    have hnonneg : 0 ≤ d.toRat := by
      rw [Decimal.toRat]
      positivity
    refine ⟨_, ?_, hinterval.roundsTo hnonneg hfinite hx⟩
    rw [if_neg hx, hchars]
    exact Decimal.readText?_chars _ d

/-- The digits of the smallest negative double, of a double whose rounding interval ends at its
digits, and of an integer. -/
theorem extreme_numbers_read_back :
    (ofBits 0x8000000000000001).isFinite = true ∧
      (ofBits 0x8000000000000001).text =
        String.ofList ("-0.".toList ++ List.replicate 323 '0' ++ ['5']) ∧
      (∃ v, readText? (ofBits 0x8000000000000001).text = some v ∧
        RoundsTo v (ofBits 0x8000000000000001)) ∧
      (ofBits 0x44B52D02C7E14AF6).isFinite = true ∧
      (ofBits 0x44B52D02C7E14AF6).text = "100000000000000000000000" ∧
      (∃ v, readText? (ofBits 0x44B52D02C7E14AF6).text = some v ∧
        RoundsTo v (ofBits 0x44B52D02C7E14AF6)) ∧
      (ofBits 0xC415AF1D78B58C40).toRat = (-100000000000000000000 : ℤ) ∧
      (ofBits 0xC415AF1D78B58C40).text = "-100000000000000000000" := by
  have hvalue : (ofBits 0xC415AF1D78B58C40).toRat = (-100000000000000000000 : ℤ) := by
    decide +kernel
  have hfinite : (ofBits 0xC415AF1D78B58C40).isFinite = true := by decide
  have hinteger := (number_text_reads_back hfinite).2 _ hvalue (by decide)
  exact ⟨by decide, by decide +kernel, (number_text_reads_back (by decide)).1, by decide,
    by decide +kernel, (number_text_reads_back (by decide)).1, hvalue, hinteger⟩

end ExprLowering.Binary64
