import ExprLowering.Lowering.Expr

/-!
# Lowering of one expression

`lowerAlone` starts from an empty state and gives out everything that the lowering produced. A
failure gives out nothing else.
-/

namespace ExprLowering.Lowering

/-- What the lowering of one expression produced. -/
structure Output where
  /-- The statements to run before the value is computed. -/
  stmts : List Target.Stmt
  /-- The value. -/
  value : Target.Expr
  /-- The problems found, in order. -/
  diagnostics : List Diagnostic
  /-- How many logical operators were lowered. -/
  logicalCount : Nat
  /-- How many optional accesses were lowered. -/
  chainCount : Nat
deriving Repr

/-- Whether problems were found. -/
def Output.hasErrors (o : Output) : Bool := Diagnostic.hasErrors o.diagnostics

/-- Lowers an expression on its own. -/
def lowerAlone (ctx : Context) (e : Source.Expr) : Except Failure Output :=
  let (outcome, s) := (lowerInFrame ctx e).run .initial
  outcome.map fun lowered =>
    ⟨lowered.stmts, lowered.value, s.diagnostics, s.logicalCount, s.chainCount⟩

end ExprLowering.Lowering
