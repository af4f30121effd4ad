import ExprLowering.Fault
import ExprLowering.Source.Operator
import ExprLowering.Target.Expr

/-!
# What becomes of an operator

Every binary operator of the source language is of one kind: it is refused, logical, an
assignment, or simple. The operators `in`, `instanceof` and `,` are of none. A simple operator
becomes an operator of the target, or a function of its library `bit32`.
-/

namespace ExprLowering.Lowering

open Source (Arithmetic Bitwise Calculation Comparison)
open Target (AssignOp Binop)

/-- The functions of the target's library for bits. -/
inductive BitFunction where
  | band | bor | bxor | lshift | arshift | rshift
deriving DecidableEq, Repr

/-- The name of a function for bits. -/
def BitFunction.name : BitFunction → String
  | band => "band"
  | bor => "bor"
  | bxor => "bxor"
  | lshift => "lshift"
  | arshift => "arshift"
  | rshift => "rshift"

/-- How the target computes a simple operator. -/
inductive SimpleForm where
  | native (op : Binop)
  | bits (function : BitFunction)
deriving DecidableEq, Repr

/-- The target expression for a simple operator on two values. -/
def SimpleForm.build : SimpleForm → Target.Expr → Target.Expr → Target.Expr
  | native op, left, right => .binary left op right
  | bits function, left, right => .call (.property (.name "bit32") function.name) [left, right]

/-- The target's operator for a comparison. -/
def comparisonOp : Comparison → Binop
  | .eq => .eq
  | .ne => .ne
  | .lt => .lt
  | .le => .le
  | .gt => .gt
  | .ge => .ge

/-- The target's operator for an arithmetic operator. -/
def arithmeticOp : Arithmetic → Binop
  | .add => .add
  | .sub => .sub
  | .mul => .mul
  | .div => .div
  | .mod => .mod
  | .pow => .pow

/-- The target's function for an operator on bits. -/
def bitFunction : Bitwise → BitFunction
  | .and => .band
  | .or => .bor
  | .xor => .bxor
  | .shl => .lshift
  | .shr => .arshift
  | .ushr => .rshift

/-- How the target computes a calculation. -/
def calculationForm : Calculation → SimpleForm
  | .arithmetic op => .native (arithmeticOp op)
  | .bitwise op => .bits (bitFunction op)

/-- The target's compound assignment for a calculation, if it has one. -/
def compoundOp? : Calculation → Option AssignOp
  | .arithmetic .add => some .add
  | .arithmetic .sub => some .sub
  | .arithmetic .mul => some .mul
  | .arithmetic .div => some .div
  | .arithmetic .mod => some .mod
  | _ => none

/-- The kind of an operator. -/
inductive OperatorKind where
  /-- Refused, with the operator to use instead. -/
  | refused (replacement : String)
  | logical
  | assignment
  | compound (operand : Calculation)
  | simple (form : SimpleForm)
deriving DecidableEq, Repr

/-- How the target computes a simple operator; all others are unknown here. -/
def simpleForm (op : Source.Operator) (span : Span) : Except Fault SimpleForm :=
  match op with
  | .comparison c => .ok (.native (comparisonOp c))
  | .calculation c => .ok (calculationForm c)
  | _ => .error (.operatorUnknown op.token span)

/-- The kind of an operator, or the fault of having none. -/
def operatorKind (op : Source.Operator) (span : Span) : Except Fault OperatorKind :=
  match op with
  | .looseEq => .ok (.refused "===")
  | .looseNe => .ok (.refused "!==")
  | .logical _ => .ok .logical
  | .assign => .ok .assignment
  | .assignWith c => .ok (.compound c)
  | .comparison c => .ok (.simple (.native (comparisonOp c)))
  | .calculation c => .ok (.simple (calculationForm c))
  | .membership | .instanceOf | .comma => .error (.operatorUnknown op.token span)

/-- The target's compound assignment for an operator that is a calculation. -/
def compoundAssign? : Source.Operator → Option AssignOp
  | .calculation c => compoundOp? c
  | _ => none

end ExprLowering.Lowering
