import ExprLowering.Literal.Numeral
import ExprLowering.Proofs.Rounding
import Mathlib.Data.List.Forall2
import Mathlib.Data.Nat.Digits.Lemmas

/-!
# What numerals are written as

A numeral with a radix marker is read one digit after the other, and each sum is rounded. As long as
53 bits suffice, nothing is lost. The first sum that needs more bits is rounded, and the digits
after it count as zeros. So the numeral is rounded once, but too early: where the first rounded sum
lies halfway between two doubles and goes to the lower one, further digits should have tipped the
scales.

All other numerals are kept, without their separators.

## Main definitions

* `markers`: the markers and the radixes that they stand for.
* `spelled`: the number that digits stand for.
* `Spells`: a text is a numeral with a radix marker and the given digits.
* `IsOrdinary`: a character is neither a separator nor a radix marker.

## Main results

* `foldl_extend_of_lt`, `exists_foldl_extend`: what the digits add up to.
* `text_text`: the text of a double is kept.
* `small_numerals_exact`: numerals below `2 ^ 53`, and separators.
* `large_numeral_rounded_once_iff`: numerals from `2 ^ 53` on.
-/

namespace ExprLowering.Numeral

open Binary64 (roundNat IsShort IsNearest IsLowerHalfway)

/-- The number that digits stand for, the most significant one first. -/
def spelled (radix : Nat) (ds : List Nat) : Nat := Nat.ofDigits radix ds.reverse

/-- The character is the digit `d` of the radix. Letters may be written in either case. -/
def IsDigit (radix : Nat) (c : Char) (d : Nat) : Prop :=
  d < radix ∧ (c = Nat.digitChar d ∨ c = (Nat.digitChar d).toUpper)

instance (radix : Nat) (c : Char) (d : Nat) : Decidable (IsDigit radix c d) :=
  inferInstanceAs (Decidable (_ ∧ _))

/-- The markers after a leading zero, each with the radix that it stands for. -/
def markers : List (Char × Nat) :=
  [('x', 16), ('X', 16), ('o', 8), ('O', 8), ('b', 2), ('B', 2)]

/-- Up to separators, the text is a zero, a marker of the radix, and at least one digit. -/
def Spells (raw : String) (radix : Nat) (ds : List Nat) : Prop :=
  ∃ marker cs, raw.toList.filter (· != '_') = '0' :: marker :: cs ∧ (marker, radix) ∈ markers ∧
    cs ≠ [] ∧ List.Forall₂ (IsDigit radix) cs ds

theorem radix?_eq_some_iff {c : Char} {radix : Nat} :
    radix? c = some radix ↔ (c, radix) ∈ markers := by
  constructor
  · intro h
    unfold radix? at h
    split at h <;> cases h <;> decide
  · have hall : ∀ m ∈ markers, radix? m.1 = some m.2 := by decide
    exact hall (c, radix)

/-- The radixes are small powers of two. -/
theorem exists_bits_of_mem_markers {marker : Char} {radix : Nat} (h : (marker, radix) ∈ markers) :
    ∃ w ≤ 4, radix = 2 ^ w := by
  have hall : ∀ m ∈ markers, ∃ w ≤ 4, m.2 = 2 ^ w := by decide
  exact hall _ h

theorem IsDigit.digitIn?_eq {radix d : Nat} {c : Char} (h : IsDigit radix c d)
    (hradix : radix ≤ 16) : digitIn? radix c = some d := by
  obtain ⟨hd, hc⟩ := h
  have hdigit : ∀ d < 16, digit? (Nat.digitChar d) = some d ∧
      digit? (Nat.digitChar d).toUpper = some d := by decide
  have hvalue : digit? c = some d := by
    rcases hc with rfl | rfl
    · exact (hdigit d (by omega)).1
    · exact (hdigit d (by omega)).2
  rw [digitIn?, hvalue, Option.filter_some, if_pos (decide_eq_true hd)]

theorem value?_eq_foldl {radix : Nat} (hradix : radix ≤ 16) {cs : List Char} {ds : List Nat}
    (h : List.Forall₂ (IsDigit radix) cs ds) :
    value? radix cs = some (ds.foldl (extend radix) 0) := by
  rw [value?]
  generalize 0 = value
  induction h generalizing value with
  | nil => rfl
  | cons hc _ ih =>
    rw [List.foldlM_cons, hc.digitIn?_eq hradix]
    exact ih _

/-- A numeral with a marker is written as the double that its digits add up to. -/
theorem Spells.text_eq {raw : String} {radix : Nat} {ds : List Nat} (h : Spells raw radix ds) :
    text raw = (Binary64.ofNat (ds.foldl (extend radix) 0)).text := by
  obtain ⟨marker, cs, hraw, hmarker, hne, hdigits⟩ := h
  obtain ⟨w, hw, rfl⟩ := exists_bits_of_mem_markers hmarker
  have hle : 2 ^ w ≤ 16 := Nat.pow_le_pow_right (by decide : 0 < 2) hw
  have hradix := radix?_eq_some_iff.2 hmarker
  have hvalue : markedValue? ('0' :: marker :: cs) = some (ds.foldl (extend (2 ^ w)) 0) := by
    simp [markedValue?, marked?, hradix, hne, value?_eq_foldl hle hdigits]
  rw [text, withoutSeparators, hraw]
  simp only [hvalue]

theorem Spells.exists_bits {raw : String} {radix : Nat} {ds : List Nat} (h : Spells raw radix ds) :
    ∃ w, radix = 2 ^ w ∧ ∀ d ∈ ds, d < 2 ^ w := by
  obtain ⟨marker, cs, -, hmarker, -, hdigits⟩ := h
  obtain ⟨w, -, rfl⟩ := exists_bits_of_mem_markers hmarker
  refine ⟨w, rfl, ?_⟩
  clear hmarker
  induction hdigits with
  | nil => simp
  | cons hc _ ih => exact List.forall_mem_cons.2 ⟨hc.1, ih⟩

-- ════════════════════════════════════════════════════════════════════════
-- Digits one after the other
-- ════════════════════════════════════════════════════════════════════════

theorem spelled_append_digit (radix : Nat) (ds : List Nat) (d : Nat) :
    spelled radix (ds ++ [d]) = spelled radix ds * radix + d := by
  simp [spelled, Nat.ofDigits_cons, Nat.add_comm, Nat.mul_comm]

/-- Digits add up without rounding as long as 53 bits suffice. -/
theorem foldl_extend_of_lt {w : Nat} {ds : List Nat} (h : spelled (2 ^ w) ds < 2 ^ 53) :
    ds.foldl (extend (2 ^ w)) 0 = spelled (2 ^ w) ds := by
  induction ds using List.reverseRecOn with
  | nil => rfl
  | append_singleton ds d ih =>
    rw [spelled_append_digit] at h ⊢
    have hle := Nat.le_mul_of_pos_right (spelled (2 ^ w) ds) (Nat.two_pow_pos w)
    rw [List.foldl_append, ih (by omega)]
    exact Binary64.roundNat_of_lt h

/-- From the first digit on for which 53 bits do not suffice, the sum is rounded once, and all
further digits count as zeros. -/
theorem exists_foldl_extend {w : Nat} {ds : List Nat} (hds : ∀ d ∈ ds, d < 2 ^ w)
    (h : 2 ^ 53 ≤ spelled (2 ^ w) ds) :
    ∃ k, spelled (2 ^ w) ds / (2 ^ w) ^ (k + 1) < 2 ^ 53 ∧
      2 ^ 53 ≤ spelled (2 ^ w) ds / (2 ^ w) ^ k ∧
      ds.foldl (extend (2 ^ w)) 0 = roundNat (spelled (2 ^ w) ds / (2 ^ w) ^ k) * (2 ^ w) ^ k := by
  induction ds using List.reverseRecOn with
  | nil => simp [spelled] at h
  | append_singleton ds d ih =>
    have hd : d < 2 ^ w := hds d (by simp)
    have hquotient : spelled (2 ^ w) (ds ++ [d]) / 2 ^ w = spelled (2 ^ w) ds := by
      rw [spelled_append_digit, Nat.mul_comm, Nat.mul_add_div (Nat.two_pow_pos w),
        Nat.div_eq_of_lt hd, Nat.add_zero]
    have hfurther (k : Nat) : spelled (2 ^ w) (ds ++ [d]) / (2 ^ w) ^ (k + 1) =
        spelled (2 ^ w) ds / (2 ^ w) ^ k := by
      rw [Nat.pow_succ', ← Nat.div_div_eq_div_mul, hquotient]
    rw [List.foldl_append]
    by_cases hsmall : spelled (2 ^ w) ds < 2 ^ 53
    · refine ⟨0, ?_, ?_, ?_⟩
      · rwa [hfurther, Nat.pow_zero, Nat.div_one]
      · rwa [Nat.pow_zero, Nat.div_one]
      · rw [foldl_extend_of_lt hsmall, Nat.pow_zero, Nat.div_one, Nat.mul_one,
          spelled_append_digit]
        rfl
    · obtain ⟨k, hbefore, hlarge, hfold⟩ := ih (fun c hc => hds c (by simp [hc])) (by omega)
      refine ⟨k + 1, ?_, ?_, ?_⟩
      · rwa [hfurther]
      · rwa [hfurther]
      · have hshort := (Binary64.isShort_roundNat (spelled (2 ^ w) ds / (2 ^ w) ^ k)).mul_two_pow
          (w * k)
        rw [Nat.pow_mul] at hshort
        have hrounded := (Binary64.two_pow_le_roundNat hlarge).trans
          (Nat.le_mul_of_pos_right _ (Nat.pow_pos (Nat.two_pow_pos w) : 0 < (2 ^ w) ^ k))
        rw [hfold, hfurther, Nat.pow_succ, ← Nat.mul_assoc]
        exact Binary64.roundNat_append_of_isShort hshort hrounded hd

-- ════════════════════════════════════════════════════════════════════════
-- Texts that are kept
-- ════════════════════════════════════════════════════════════════════════

/-- The character is neither a separator nor the marker of a radix. -/
def IsOrdinary (c : Char) : Prop := c ≠ '_' ∧ ∀ m ∈ markers, c ≠ m.1

instance : DecidablePred IsOrdinary := fun _ => inferInstanceAs (Decidable (_ ∧ _))

theorem isOrdinary_of_isDigit {c : Char} (h : c.isDigit = true) : IsOrdinary c := by
  constructor
  · rintro rfl
    cases h
  · rintro m hm rfl
    have hall : ∀ m ∈ markers, m.1.isDigit = false := by decide
    cases (hall m hm).symm.trans h

theorem isOrdinary_digitChars {n : Nat} {c : Char} (h : c ∈ Decimal.digitChars n) : IsOrdinary c :=
  isOrdinary_of_isDigit (Nat.isDigit_of_mem_toDigits (by decide) le_rfl h)

theorem isOrdinary_decimal {d : Decimal} {c : Char} (h : c ∈ d.chars) : IsOrdinary c := by
  have hzeros {k : Nat} (hc : c ∈ List.replicate k '0') : IsOrdinary c := by
    rw [List.eq_of_mem_replicate hc]
    decide
  rw [Decimal.chars] at h
  split at h
  · rcases List.mem_append.1 h with hc | hc
    · exact isOrdinary_digitChars hc
    · exact hzeros hc
  · have hpadded {k : Nat} (hc : c ∈ List.replicate k '0' ++ Decimal.digitChars d.digits) :
        IsOrdinary c := by
      rcases List.mem_append.1 hc with hc | hc
      · exact hzeros hc
      · exact isOrdinary_digitChars hc
    rcases List.mem_append.1 h with hc | hc
    · exact hpadded (List.mem_of_mem_take hc)
    · rcases List.mem_cons.1 hc with rfl | hc
      · decide
      · exact hpadded (List.mem_of_mem_drop hc)

/-- The text of a double has neither separators nor markers. -/
theorem isOrdinary_text {x : Binary64} {c : Char} (h : c ∈ x.text.toList) : IsOrdinary c := by
  have hfixed {text : String} (htext : text.toList.all (IsOrdinary ·) = true)
      (hc : c ∈ text.toList) : IsOrdinary c := of_decide_eq_true (List.all_eq_true.1 htext c hc)
  have hmagnitude (hc : c ∈ x.magnitudeChars) : IsOrdinary c := by
    rw [Binary64.magnitudeChars] at hc
    split at hc
    · split at hc
      · exact isOrdinary_decimal hc
      · exact isOrdinary_decimal hc
    · exact isOrdinary_decimal hc
  rw [Binary64.text] at h
  split at h
  · exact hfixed (by decide) h
  split at h
  · split at h
    · exact hfixed (by decide) h
    · exact hfixed (by decide) h
  split at h
  · exact hfixed (by decide) h
  · rw [String.toList_ofList, List.mem_append] at h
    rcases h with hc | hc
    · split at hc
      · obtain rfl := List.mem_singleton.1 hc
        decide
      · cases hc
    · exact hmagnitude hc

theorem marked?_of_ordinary {cs : List Char} (h : ∀ c ∈ cs, IsOrdinary c) : marked? cs = none := by
  rw [marked?.eq_def]
  split
  · rename_i marker digits
    have hnone : radix? marker = none := by
      refine Option.eq_none_iff_forall_ne_some.2 fun radix hradix => ?_
      exact (h marker (by simp)).2 _ (radix?_eq_some_iff.1 hradix) rfl
    rw [hnone]
    rfl
  · rfl

theorem text_of_markedValue? {raw : String} (h : markedValue? (withoutSeparators raw) = none) :
    text raw = String.ofList (withoutSeparators raw) := by
  rw [text]
  simp only [h]

/-- The text of a double is kept. -/
theorem text_text (x : Binary64) : text x.text = x.text := by
  have hseparators : withoutSeparators x.text = x.text.toList := by
    rw [withoutSeparators, List.filter_eq_self]
    intro c hc
    exact bne_iff_ne.2 (isOrdinary_text hc).1
  have hmarked := marked?_of_ordinary fun c (hc : c ∈ x.text.toList) => isOrdinary_text hc
  rw [text_of_markedValue?, hseparators, String.ofList_toList]
  rw [hseparators, markedValue?, hmarked]
  rfl

theorem withoutSeparators_ofList (raw : String) :
    withoutSeparators (String.ofList (withoutSeparators raw)) = withoutSeparators raw := by
  simp [withoutSeparators]

/-- Every numeral is written as a double or without its separators. -/
theorem text_cases (raw : String) :
    (∃ x : Binary64, text raw = x.text) ∨
      (markedValue? (withoutSeparators raw) = none ∧
        text raw = String.ofList (withoutSeparators raw)) := by
  cases h : markedValue? (withoutSeparators raw) with
  | some value =>
    left
    refine ⟨Binary64.ofNat value, ?_⟩
    rw [text]
    simp only [h]
  | none => exact .inr ⟨rfl, text_of_markedValue? h⟩

/-- Numerals with a marker are exact below `2 ^ 53`, and separators never matter. -/
theorem small_numerals_exact :
    (∀ (raw : String) (radix : Nat) (ds : List Nat), Spells raw radix ds →
        spelled radix ds < 2 ^ 53 → text raw = Nat.repr (spelled radix ds)) ∧
      ∀ s : String, '_' ∉ (text s).toList ∧
        text s = text (String.ofList (s.toList.filter (· != '_'))) ∧ text (text s) = text s := by
  constructor
  · intro raw radix ds hraw hlt
    obtain ⟨w, rfl, -⟩ := hraw.exists_bits
    have hlimit : 2 ^ 53 ≤ Binary64.wholeLimit := by decide
    rw [hraw.text_eq, foldl_extend_of_lt hlt]
    exact Binary64.text_ofNat (Binary64.isShort_of_lt hlt) (by omega)
  · intro s
    refine ⟨?_, ?_, ?_⟩
    · rcases text_cases s with ⟨x, hx⟩ | ⟨-, hs⟩
      · rw [hx]
        intro hmem
        exact (isOrdinary_text hmem).1 rfl
      · rw [hs, String.toList_ofList]
        simp [withoutSeparators]
    · show text s = text (String.ofList (withoutSeparators s))
      rw [text, text, withoutSeparators_ofList]
    · rcases text_cases s with ⟨x, hx⟩ | ⟨hunmarked, hs⟩
      · rw [hx, text_text]
      · rw [hs, text_of_markedValue?, withoutSeparators_ofList]
        rw [withoutSeparators_ofList, hunmarked]

/-- One numeral for each radix, with leading zeros, separators and letters of either case. -/
theorem numerals_of_each_radix_exact :
    (Spells "_0X0_0_1fF_" 16 [0, 0, 1, 15, 15] ∧ text "_0X0_0_1fF_" = "511") ∧
      (Spells "0o1_7" 8 [1, 7] ∧ text "0o1_7" = "15") ∧
      (Spells "0B_1010" 2 [1, 0, 1, 0] ∧ text "0B_1010" = "10") := by
  have hhex : Spells "_0X0_0_1fF_" 16 [0, 0, 1, 15, 15] :=
    ⟨'X', ['0', '0', '1', 'f', 'F'], by decide, by decide, by decide, by decide⟩
  have hoctal : Spells "0o1_7" 8 [1, 7] :=
    ⟨'o', ['1', '7'], by decide, by decide, by decide, by decide⟩
  have hbinary : Spells "0B_1010" 2 [1, 0, 1, 0] :=
    ⟨'B', ['1', '0', '1', '0'], by decide, by decide, by decide, by decide⟩
  exact ⟨⟨hhex, small_numerals_exact.1 _ _ _ hhex (by decide)⟩,
    ⟨hoctal, small_numerals_exact.1 _ _ _ hoctal (by decide)⟩,
    ⟨hbinary, small_numerals_exact.1 _ _ _ hbinary (by decide)⟩⟩

/-- A numeral between `2 ^ 53` and `10 ^ 21` is written as the nearest double exactly if rounding
early does no harm. The digits but the last `k` are the first ones to need more than 53 bits. Their
number is rounded, and the last `k` digits count as zeros. This gives a smaller double than the
nearest one if the rounded number was halfway, the lower neighbour is even, and one of the last `k`
digits is not zero, and the nearest double otherwise. -/
theorem large_numeral_rounded_once_iff {raw : String} {radix : Nat} {ds : List Nat}
    (hraw : Spells raw radix ds) (hlower : 2 ^ 53 ≤ spelled radix ds)
    (hupper : spelled radix ds ≤ 10 ^ 21) :
    ∃ (x : Binary64) (m k : Nat), IsNearest (spelled radix ds) x ∧ x.toRat = m ∧
      spelled radix ds / radix ^ (k + 1) < 2 ^ 53 ∧ 2 ^ 53 ≤ spelled radix ds / radix ^ k ∧
      text raw = Nat.repr (roundNat (spelled radix ds / radix ^ k) * radix ^ k) ∧
      roundNat (spelled radix ds / radix ^ k) * radix ^ k ≤ m ∧
      (text raw = Nat.repr m ↔
        ¬(IsLowerHalfway (spelled radix ds / radix ^ k) ∧ spelled radix ds % radix ^ k ≠ 0)) := by
  obtain ⟨w, rfl, hds⟩ := hraw.exists_bits
  obtain ⟨k, hbefore, hlarge, hfold⟩ := exists_foldl_extend hds hlower
  have hlimit : roundNat (spelled (2 ^ w) ds) ≤ Binary64.wholeLimit :=
    Binary64.roundNat_le hupper ⟨5 ^ 21, 21, by decide, by decide⟩
  have hpower : (2 ^ w) ^ k = 2 ^ (w * k) := (Nat.pow_mul ..).symm
  have htail : spelled (2 ^ w) ds % (2 ^ w) ^ k < 2 ^ (w * k) := by
    rw [hpower]
    exact Nat.mod_lt _ (Nat.two_pow_pos _)
  obtain ⟨hle, hiff⟩ := Binary64.roundNat_append hlarge htail
  rw [← hpower, Nat.div_add_mod'] at hle hiff
  have hshort : IsShort (roundNat (spelled (2 ^ w) ds / (2 ^ w) ^ k) * (2 ^ w) ^ k) := by
    rw [hpower]
    exact (Binary64.isShort_roundNat _).mul_two_pow _
  have htext : text raw =
      Nat.repr (roundNat (spelled (2 ^ w) ds / (2 ^ w) ^ k) * (2 ^ w) ^ k) := by
    rw [hraw.text_eq, hfold]
    exact Binary64.text_ofNat hshort (hle.trans hlimit)
  have hlog := Binary64.log2_lt_of_le hlimit
  refine ⟨Binary64.ofNat (spelled (2 ^ w) ds), roundNat (spelled (2 ^ w) ds), k,
    Binary64.isNearest_ofNat hlog, ?_, hbefore, hlarge, htext, hle, ?_⟩
  · rw [Binary64.ofNat_of_log2_lt hlog]
    exact Binary64.toRat_ofShortNat (Binary64.isShort_roundNat _) hlog
  · have hrepr {a b : Nat} : Nat.repr a = Nat.repr b ↔ a = b := by
      refine ⟨fun h => ?_, congrArg Nat.repr⟩
      have hvalue := congrArg (fun s => Nat.ofDigitChars 10 s.toList 0) h
      simpa [Nat.repr] using hvalue
    rw [htext, hrepr]
    exact hiff

/-- The first fourteen digits lie halfway between two doubles, of which the upper one is even. -/
theorem tie_rounded_up :
    let ds := [2, 0, 0, 0, 0, 0, 0, 0, 0, 0, 0, 0, 0, 3, 1]
    Spells "0x20000000000003_1" 16 ds ∧ spelled 16 ds = 144115188075855921 ∧
      ∃ (x : Binary64) (m : Nat), IsNearest (144115188075855921 : Nat) x ∧ x.toRat = m ∧
        text "0x20000000000003_1" = Nat.repr m ∧
        text "0x20000000000003_1" = "144115188075855936" := by
  intro ds
  have hraw : Spells "0x20000000000003_1" 16 ds :=
    ⟨'x', _, rfl, by decide, by decide, by decide⟩
  have hvalue : spelled 16 ds = 144115188075855921 := by decide
  obtain ⟨x, m, k, hnearest, hm, hbefore, hlarge, htext, -, hiff⟩ :=
    large_numeral_rounded_once_iff hraw (by decide) (by decide)
  rw [hvalue] at hnearest hbefore hlarge htext hiff
  obtain rfl : k = 1 := by
    rcases k with _ | _ | k
    · exact absurd hbefore (by decide)
    · rfl
    · have hpower : 16 ^ 2 ≤ 16 ^ (k + 2) := Nat.pow_le_pow_right (by decide) (by omega)
      have hle := Nat.div_le_div_left (a := 144115188075855921) hpower (by decide)
      exact absurd (hlarge.trans hle) (by decide)
  have hsplit : Binary64.Splits (144115188075855921 / 16 ^ 1) (2 ^ 52 + 1) 1 1 :=
    ⟨by decide, by decide, by decide, by decide⟩
  rw [hsplit.isLowerHalfway_iff] at hiff
  exact ⟨hraw, hvalue, x, m, hnearest, hm, hiff.2 (by decide), htext.trans (by decide)⟩

/-- The first fourteen digits lie halfway between two doubles and are rounded to the lower one. The
last digit would have made the upper one the nearest. -/
theorem digit_after_tie_is_lost :
    let ds := [2, 0, 0, 0, 0, 0, 0, 0, 0, 0, 0, 0, 0, 1, 1]
    Spells "0x200000000000011" 16 ds ∧ spelled 16 ds = 144115188075855889 ∧
      2 ^ 53 ≤ spelled 16 ds ∧ spelled 16 ds ≤ 10 ^ 21 ∧
      IsNearest (144115188075855889 : Nat) (Binary64.ofNat 144115188075855889) ∧
      (Binary64.ofNat 144115188075855889).toRat = 144115188075855904 ∧
      text "0x200000000000011" = "144115188075855872" := by
  intro ds
  have hraw : Spells "0x200000000000011" 16 ds :=
    ⟨'x', _, rfl, by decide, by decide, by decide⟩
  have hround : roundNat 144115188075855889 = 144115188075855904 := by decide
  have hlog : (roundNat 144115188075855889).log2 < 1024 := by decide
  refine ⟨hraw, by decide, by decide, by decide, Binary64.isNearest_ofNat hlog, ?_,
    by decide +kernel⟩
  rw [Binary64.ofNat_of_log2_lt hlog, Binary64.toRat_ofShortNat (Binary64.isShort_roundNat _) hlog,
    hround]
  norm_num

end ExprLowering.Numeral
