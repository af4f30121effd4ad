import ExprLowering.Lowering.Invocation
import ExprLowering.Lowering.Location
import ExprLowering.Lowering.Member
import ExprLowering.Lowering.Template

/-!
# Lowering of expressions

`lowerNode` goes down the source expression. What is done at each kind of node is defined in the
modules before this one, as a function of the computations for the children; here the children
are plugged in.

## Main definitions

* `lowerExpr`: the value of an expression that stands alone or is an operand.
* `lowerIn`: the same for an expression in any role.
* `lowerInFrame`: the value together with the statements to run before it.
* `locate`: the location that an assignment writes to.
-/

namespace ExprLowering.Lowering

open Target (Expr)

/-- Counts a logical operator. -/
def countLogical : LowerM Unit := .update fun s => { s with logicalCount := s.logicalCount + 1 }

/-- Lowers a logical operator, given the computations for its sides. -/
def logical (left right : LowerM Expr) : LowerM Expr := do
  countLogical
  let (left, right) ← both left right
  return .call (.name "logical") [left, right]

/-- Counts an optional access. -/
def countChain : LowerM Unit := .update fun s => { s with chainCount := s.chainCount + 1 }

/-- Lowers `object?.name`: the object is saved unless it is an atom. -/
def chainProperty (ctx : Context) (object : Source.Expr) (name : String) (nameSpan span : Span)
    (value : LowerM Expr) : LowerM Expr := do
  countChain
  let value ← hoistUnlessAtom (← value)
  readProperty ctx object name nameSpan span value

/-- Lowers `object?.[index]`. -/
def chainElement (ctx : Context) (object : Source.Expr) (value index : LowerM Expr) :
    LowerM Expr := do
  countChain
  let (value, index) ← both value index
  readElement ctx object value index

/-- Whether `delete` may be applied to an expression: a member access, whatever its wrappers. -/
def isDeletable (operand : Source.Expr) : Bool :=
  match operand.unwrap with
  | .property .. => true
  | .element .. => true
  | _ => false

mutual

/-- Lowers an expression in the role that the state gives to it. -/
def lowerNode (ctx : Context) : Source.Expr → LowerM Expr
  | .name text _ => pure (nameValue text)
  | .literal value _ => pure (literalValue value)
  | .template head parts _ => do
    let values ← sequence (lowerParts ctx parts)
    return templateValue ctx.facts head parts values
  | .binary left op right span =>
    match operatorKind op span with
    | .error f => fault f
    | .ok (.refused replacement) => fault (.operatorRefused op.token replacement span)
    | .ok .logical =>
      logical (inRole .operand (lowerNode ctx left)) (inRole .operand (lowerNode ctx right))
    | .ok .assignment =>
      assignValue (lowerLocation ctx left.span left) (inRole .operand (lowerNode ctx right))
    | .ok (.compound calculation) =>
      assignResult ctx.options calculation (lowerLocation ctx left.span left)
        (inRole .operand (lowerNode ctx right))
    | .ok (.simple form) => do
      let (left, right) ←
        both (inRole .operand (lowerNode ctx left)) (inRole .operand (lowerNode ctx right))
      return form.build left right
  | .property object name nameSpan true span =>
    chainProperty ctx object name nameSpan span (inRole .operand (lowerNode ctx object))
  | .property object name nameSpan false span => do
    let value ← inRole .operand (lowerNode ctx object)
    readProperty ctx object name nameSpan span value
  | .element object index true _ =>
    chainElement ctx object (inRole .operand (lowerNode ctx object))
      (inRole .operand (lowerNode ctx index))
  | .element object index false _ => do
    let (value, index) ←
      both (inRole .operand (lowerNode ctx object)) (inRole .operand (lowerNode ctx index))
    readElement ctx object value index
  | .call callee args _ =>
    call (callForm ctx.facts callee) (lowerReceiver ctx callee)
      (inRole .callee (lowerNode ctx callee)) (lowerEach ctx args)
  | .delete operand _ =>
    if isDeletable operand then inRole .deleted (lowerNode ctx operand)
    else fault (.operandNotDeletable operand.span)
  | .wrap _ inner _ => inRole .wrapped (lowerNode ctx inner)

/-- Lowers the object of the member access inside all wrappers of a callee; other callees have
none. -/
def lowerReceiver (ctx : Context) : Source.Expr → LowerM Expr
  | .property object _ _ _ _ => inRole .operand (lowerNode ctx object)
  | .wrap _ inner _ => lowerReceiver ctx inner
  | _ => pure .nil

/-- Resolves the target of an assignment, inside all its wrappers; `written` is the span of the
target with them. -/
def lowerLocation (ctx : Context) (written : Span) : Source.Expr → LowerM Location
  | .name text _ => pure ⟨nameValue text, none⟩
  | .property object name _ false _ =>
    propertyLocation (inRole .operand (lowerNode ctx object)) name
  | .element object index false _ =>
    elementLocation (inRole .operand (lowerNode ctx object)) (inRole .operand (lowerNode ctx index))
  | .wrap _ inner _ => lowerLocation ctx written inner
  | _ => fault (.targetNotAssignable written)

/-- The computations that lower operands. -/
def lowerEach (ctx : Context) : List Source.Expr → List (LowerM Expr)
  | [] => []
  | e :: es => inRole .operand (lowerNode ctx e) :: lowerEach ctx es

/-- The computations that lower the substitutions of a template. -/
def lowerParts (ctx : Context) : List (Source.Substitution Source.Expr) → List (LowerM Expr)
  | [] => []
  | ⟨e, _, _⟩ :: parts => inRole .operand (lowerNode ctx e) :: lowerParts ctx parts

end

/-- Lowers an expression that stands in the given role. -/
def lowerIn (ctx : Context) (role : Role) (e : Source.Expr) : LowerM Expr :=
  inRole role (lowerNode ctx e)

/-- Lowers an expression that stands alone or is an operand. -/
def lowerExpr (ctx : Context) (e : Source.Expr) : LowerM Expr := lowerIn ctx .operand e

/-- Lowers an expression and hands out the statements to run before it. -/
def lowerInFrame (ctx : Context) (e : Source.Expr) : LowerM Framed := inFrame (lowerExpr ctx e)

/-- Lowers a fixed number of expressions from left to right. -/
def lowerVector {n : Nat} (ctx : Context) (es : Vector Source.Expr n) : LowerM (Vector Expr n) :=
  sequenceVector (es.map (lowerExpr ctx))

/-- Lowers a list of expressions from left to right. -/
def lowerAll (ctx : Context) (es : List Source.Expr) : LowerM (List Expr) :=
  sequence (es.map (lowerExpr ctx))

/-- Resolves the target of an assignment. -/
def locate (ctx : Context) (target : Source.Expr) : LowerM Location :=
  lowerLocation ctx target.span target

/-- Lowers an expression as an optional access, whether it is written as one or not. -/
def lowerChain (ctx : Context) : Source.Expr → LowerM Expr
  | .property object name nameSpan _ span =>
    chainProperty ctx object name nameSpan span (lowerExpr ctx object)
  | .element object index _ _ =>
    chainElement ctx object (lowerExpr ctx object) (lowerExpr ctx index)
  | e => do
    countChain
    lowerExpr ctx e

/-- Lowers two expressions as the sides of a logical operator. -/
def lowerLogical (ctx : Context) (left right : Source.Expr) : LowerM Expr :=
  logical (lowerExpr ctx left) (lowerExpr ctx right)

end ExprLowering.Lowering
