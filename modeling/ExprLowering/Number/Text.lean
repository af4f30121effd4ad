import ExprLowering.Number.Shortest

/-!
# Numbers as target text

The target language has no literal for the special numbers, so they are written as expressions.
Whole numbers below `10 ^ 21` are written with all their digits and every other number with the
fewest digits that read back, always without an exponent. Both zeros are written `0`.
-/

namespace ExprLowering.Binary64

/-- From this magnitude on, `10 ^ 21`, whole numbers are written with their shortest digits. -/
def wholeLimit : Nat := 1000000000000000000000

/-- The characters of a finite magnitude that is not zero. -/
def magnitudeChars (x : Binary64) : List Char :=
  match x.toNat? with
  | some n => if n < wholeLimit then Decimal.chars ⟨n, 0⟩ else (Shortest.decimal x).chars
  | none => (Shortest.decimal x).chars

/-- The number as an expression of the target language. -/
def text (x : Binary64) : String :=
  if x.isNaN then "0/0"
  else if x.isInfinite then (if x.negative then "-math.huge" else "math.huge")
  else if x.significand = 0 then "0"
  else String.ofList ((if x.negative then ['-'] else []) ++ x.magnitudeChars)

end ExprLowering.Binary64
