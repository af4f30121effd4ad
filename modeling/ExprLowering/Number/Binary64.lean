/-!
# Double-precision numbers

A `Binary64` is given by its three fields. A finite one stands for
`± significand * 2 ^ scale`.

## Main definitions

* `Binary64.ofBits`: the number that a 64-bit word encodes.
* `Binary64.roundNat`: the nearest natural number with at most 53 significant bits.
* `Binary64.ofNat`: the nearest double of a natural number, infinite from `2 ^ 1024` on.

## Design notes

The fields are bounded by their types, so that every number has one form and the arithmetic
below is exact arithmetic on natural numbers.
-/

namespace ExprLowering

/-- The weight of the leading bit of a normal significand, `2 ^ 52`; fractions are below it. -/
abbrev Binary64.leadingBit : Nat := 0x10000000000000

/-- A double-precision number: sign, biased exponent and fraction. -/
structure Binary64 where
  negative : Bool
  exponent : Fin 2048
  fraction : Fin Binary64.leadingBit
deriving DecidableEq, Repr

namespace Binary64

/-- The number that a 64-bit word encodes. -/
def ofBits (w : UInt64) : Binary64 where
  negative := decide (2048 * leadingBit ≤ w.toNat)
  exponent := Fin.ofNat 2048 (w.toNat / leadingBit)
  fraction := Fin.ofNat leadingBit w.toNat

/-- Whether the number is not a number. -/
def isNaN (x : Binary64) : Bool := x.exponent.val == 2047 && x.fraction.val != 0

/-- Whether the number is one of the two infinities. -/
def isInfinite (x : Binary64) : Bool := x.exponent.val == 2047 && x.fraction.val == 0

/-- The integer part of the finite number's form `significand * 2 ^ scale`. The leading bit is
implicit unless the number is subnormal. -/
def significand (x : Binary64) : Nat :=
  if x.exponent.val = 0 then x.fraction.val else leadingBit + x.fraction.val

/-- The binary exponent of the finite number's form `significand * 2 ^ scale`. -/
def scale (x : Binary64) : Int :=
  if x.exponent.val = 0 then -1074 else (x.exponent.val : Int) - 1075

/-- Whether the next smaller double is only half as far away as the next larger one, as it is
for a normal power of two. -/
def isBinadeStart (x : Binary64) : Bool := x.fraction.val == 0 && decide (1 < x.exponent.val)

/-- The magnitude as a natural number, when it is one. -/
def toNat? (x : Binary64) : Option Nat :=
  if 0 ≤ x.scale then some (x.significand <<< x.scale.toNat)
  else
    let places := (-x.scale).toNat
    if x.significand % (1 <<< places) = 0 then some (x.significand >>> places) else none

/-- `n / 2 ^ k` rounded to the nearest natural number, a half to the even one. -/
def shiftRound (n k : Nat) : Nat :=
  let quotient := n >>> k
  let twice := 2 * (n % (1 <<< k))
  if 1 <<< k < twice ∨ (twice = 1 <<< k ∧ quotient % 2 = 1) then quotient + 1 else quotient

/-- The nearest natural number with at most 53 significant bits, a half to the even one. -/
def roundNat (n : Nat) : Nat :=
  let excess := n.log2 - 52
  shiftRound n excess <<< excess

/-- The positive infinity. -/
def infinity : Binary64 := ⟨false, 2047, 0⟩

/-- The double of a natural number that is below `2 ^ 1024` and has at most 53 significant
bits. -/
def ofShortNat (n : Nat) : Binary64 :=
  if n = 0 then ⟨false, 0, 0⟩
  else
    let magnitude := n.log2
    let significand := if magnitude ≤ 52 then n <<< (52 - magnitude) else n >>> (magnitude - 52)
    ⟨false, Fin.ofNat 2048 (magnitude + 1023), Fin.ofNat leadingBit significand⟩

/-- The nearest double of a natural number, a half to the even one; numbers too large for any
double are infinite. -/
def ofNat (n : Nat) : Binary64 :=
  let rounded := roundNat n
  if 1024 ≤ rounded.log2 then infinity else ofShortNat rounded

end Binary64

end ExprLowering
