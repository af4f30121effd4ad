import ExprLowering.Lowering.Literal
import ExprLowering.Lowering.Monad

/-!
# Member accesses

`readProperty` and `readElement` lower a member access whose parts are lowered already. A
property access is checked in a fixed order, and the first check that applies decides:

1. the object has type `any`: a diagnostic and the placeholder;
2. calls of the member are expanded: a diagnostic and the placeholder;
3. the member is a method and is not called: a diagnostic and the placeholder;
4. the name is `prototype`: a diagnostic, and lowering goes on;
5. the member has a constant value: that value;
6. the access is deleted: an assignment of `nil`, and the value `nil`;
7. otherwise the access itself.

Of these an element access knows 1, 6 and 7.
-/

namespace ExprLowering.Lowering

open Target (Expr)

/-- Reads a member, or removes it if the access is deleted. -/
def readOrRemove (member : Expr) : LowerM Expr := do
  if (← currentRole) = some .deleted then
    assign member .set .nil
    return .nil
  else
    return member

/-- The constant to put in the place of the member access at a span. -/
def foldedConstant? (ctx : Context) (span : Span) : Option Constant :=
  if ctx.options.foldConstants then ctx.facts.constantAt? span else none

/-- The access `object.name`, given the value of the object. -/
def readProperty (ctx : Context) (object : Source.Expr) (name : String) (nameSpan span : Span)
    (value : Expr) : LowerM Expr := do
  if (ctx.facts.typeOf object).isAny then
    refuse .anyValue object.span
  else if (ctx.facts.expanderAt? span).isSome then
    refuse .uncalledExpansion span
  else if ctx.facts.isMethodAt span && (← currentRole) != some .callee then
    refuse .uncalledMethod span
  else
    if name = "prototype" then
      diagnose .prototype nameSpan
    match foldedConstant? ctx span with
    | some constant => return constantValue constant
    | none => readOrRemove (.property value.toIndexable name)

/-- The access `object[index]`, given the values of both. -/
def readElement (ctx : Context) (object : Source.Expr) (value index : Expr) : LowerM Expr :=
  if (ctx.facts.typeOf object).isAny then
    refuse .anyValue object.span
  else
    readOrRemove (.index value.toIndexable index)

end ExprLowering.Lowering
