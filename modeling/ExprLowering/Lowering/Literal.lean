import ExprLowering.Facts
import ExprLowering.Literal.Numeral
import ExprLowering.Literal.StringBody
import ExprLowering.Target.Expr

/-!
# Names, literals and constants

What lowers to a target expression without looking at anything else.
-/

namespace ExprLowering.Lowering

/-- A name stands for itself; the absent value has a name in the source language only. -/
def nameValue (text : String) : Target.Expr := if text = "undefined" then .nil else .name text

/-- The value of a literal. -/
def literalValue : Source.Literal → Target.Expr
  | .bool value => .bool value
  | .number raw => .number (Numeral.text raw)
  | .string raw => .string (StringBody.ofQuoted raw)
  | .template raw => .string (StringBody.ofQuotedTemplate raw)

/-- A constant as a literal. -/
def constantValue : Constant → Target.Expr
  | .text value => .string (StringBody.ofText value)
  | .number value => .number value.text

end ExprLowering.Lowering
