import ExprLowering.Facts
import ExprLowering.Literal.StringBody
import ExprLowering.Target.Expr

/-!
# Templates

A template becomes a chain of concatenations, from left to right, of its texts and its
substituted values. Values that are not known to be strings are converted first, and empty texts
are left out.
-/

namespace ExprLowering.Lowering

open Source (Substitution)

/-- A text of a template as a segment of the chain; an empty text is none. -/
def textSegment (text : String) : List Target.Expr :=
  if text.isEmpty then [] else [.string (StringBody.ofTemplate text)]

/-- A substituted value as a segment of the chain, converted unless it is a string. -/
def valueSegment (facts : Facts) (source : Source.Expr) (value : Target.Expr) : Target.Expr :=
  if (facts.typeOf source).isString then value else .call (.name "tostring") [value]

/-- The segments for the substitutions and the texts after them. -/
def partSegments (facts : Facts) :
    List (Substitution Source.Expr) → List Target.Expr → List Target.Expr
  | part :: parts, value :: values =>
    valueSegment facts part.expr value :: (textSegment part.text ++ partSegments facts parts values)
  | _, _ => []

/-- The concatenation of segments, grouped to the left. -/
def concatenation : List Target.Expr → Target.Expr
  | [] => .string ""
  | first :: rest => rest.foldl (fun chain segment => .binary chain .concat segment) first

/-- The value of a template, given the values of its substitutions. -/
def templateValue (facts : Facts) (head : String) (parts : List (Substitution Source.Expr))
    (values : List Target.Expr) : Target.Expr :=
  concatenation (textSegment head ++ partSegments facts parts values)

end ExprLowering.Lowering
