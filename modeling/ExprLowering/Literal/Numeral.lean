import ExprLowering.Number.Text

/-!
# Numerals

The text of a numeric literal becomes decimal text of the target language. Separators `_` are
dropped. A numeral with a radix marker is read digit by digit in double precision, each step
rounded, and written as that double; any other text is kept, as is one whose digits do not fit
the radix.
-/

namespace ExprLowering.Numeral

/-- The radix that a marker after the leading zero stands for. -/
def radix? : Char → Option Nat
  | 'x' | 'X' => some 16
  | 'o' | 'O' => some 8
  | 'b' | 'B' => some 2
  | _ => none

/-- The value of an ASCII digit or letter, counting letters from ten on. -/
def digit? (c : Char) : Option Nat :=
  if '0' ≤ c ∧ c ≤ '9' then some (c.toNat - '0'.toNat)
  else if 'a' ≤ c ∧ c ≤ 'z' then some (c.toNat - 'a'.toNat + 10)
  else if 'A' ≤ c ∧ c ≤ 'Z' then some (c.toNat - 'A'.toNat + 10)
  else none

/-- The value of a digit of the given radix. -/
def digitIn? (radix : Nat) (c : Char) : Option Nat := (digit? c).filter (· < radix)

/-- One more digit, in double precision: the radixes are powers of two, so only the sum is
rounded. -/
def extend (radix value digit : Nat) : Nat := Binary64.roundNat (value * radix + digit)

/-- The value of a string of digits read from the left in double precision, if all of them fit
the radix. -/
def value? (radix : Nat) (digits : List Char) : Option Nat :=
  digits.foldlM (fun value c => (digitIn? radix c).map (extend radix value)) 0

/-- The numeral without its separators. -/
def withoutSeparators (raw : String) : List Char := raw.toList.filter (· != '_')

/-- The radix and digits of a numeral with a radix marker. -/
def marked? : List Char → Option (Nat × List Char)
  | '0' :: marker :: digits => (radix? marker).map (·, digits)
  | _ => none

/-- The value of a numeral with a radix marker and at least one digit. -/
def markedValue? (numeral : List Char) : Option Nat := do
  let (radix, digits) ← marked? numeral
  if digits.isEmpty then none else value? radix digits

/-- The numeral as decimal text of the target language. -/
def text (raw : String) : String :=
  let numeral := withoutSeparators raw
  match markedValue? numeral with
  | some value => (Binary64.ofNat value).text
  | none => String.ofList numeral

end ExprLowering.Numeral
