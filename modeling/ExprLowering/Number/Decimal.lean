/-!
# Decimal numbers and their positional text

A `Decimal` is a natural number times a power of ten. Its text is positional: no exponent is
ever written, zeros fill the places on either side of the digits.
-/

namespace ExprLowering

/-- The number `digits * 10 ^ exponent`. -/
structure Decimal where
  digits : Nat
  exponent : Int
deriving DecidableEq, Repr

namespace Decimal

/-- The decimal digits of a number, the most significant first. -/
def digitChars (n : Nat) : List Char := Nat.toDigits 10 n

/-- Puts a point before the last `places` characters, with zeros in front so that at least one
digit stands before it. -/
def withPoint (places : Nat) (cs : List Char) : List Char :=
  let padded := List.replicate (places + 1 - cs.length) '0' ++ cs
  padded.take (padded.length - places) ++ '.' :: padded.drop (padded.length - places)

/-- The characters of the positional text. -/
def chars (d : Decimal) : List Char :=
  if 0 ≤ d.exponent then digitChars d.digits ++ List.replicate d.exponent.toNat '0'
  else withPoint (-d.exponent).toNat (digitChars d.digits)

end Decimal

end ExprLowering
