import ExprLowering.Lowering.Sequence

/-!
# Calls

A call `object.member(args)` is lowered in one of four ways, and the first that applies is taken:
the object has type `any` and the call is refused; calls of the member are expanded; the member
is a method; or the callee is lowered like any value and called.
-/

namespace ExprLowering.Lowering

open Target (Expr)

/-- How a call is lowered. -/
inductive CallForm where
  /-- The object, at this span, has type `any`. -/
  | refused (object : Span)
  /-- Calls of the member are expanded. -/
  | expanded (expander : Expander)
  /-- A call of a method. -/
  | method (name : String)
  /-- A call of a value. -/
  | plain
deriving Repr

/-- How a call of `callee` is lowered. -/
def callForm (facts : Facts) (callee : Source.Expr) : CallForm :=
  match callee.unwrap with
  | .property object name _ false span =>
    if (facts.typeOf object).isAny then .refused object.span
    else match facts.expanderAt? span with
      | some expander => .expanded expander
      | none => if facts.isMethodAt span then .method name else .plain
  | _ => .plain

/-- The expansion of a call, given the values of the object and of the arguments. -/
def applyExpander (expander : Expander) (object : Expr) (args : List Expr) : LowerM Expr :=
  match expander with
  | .unit => return .nil
  | .length => return .call (.name "rawlen") [object]
  | .push => do
    let object ← hoistUnlessAtom object
    return .call (.property (.name "table") "insert") (object :: args)
  | .fail => fault (.operandNotDeletable (.point 7 7))
  | .effect => do
    let object ← hoist object
    assign (.name "effect") .set object
    diagnose .prototype (.point 8 8)
    return .method object "expanded" args

/-- A call in a given form. `receiver` computes the object of the member access that is called,
and `callee` the value of the whole callee. -/
def call (form : CallForm) (receiver callee : LowerM Expr) (args : List (LowerM Expr)) :
    LowerM Expr :=
  match form with
  | .refused object => refuse .anyValue object
  | .expanded expander => do
    let (object, args) ← withArgs receiver args
    applyExpander expander object args
  | .method name => do
    let (object, args) ← withArgs receiver args
    return .method object.toIndexable name args
  | .plain => do
    let (callee, args) ← withArgs callee args
    return .call callee.toIndexable args

end ExprLowering.Lowering
