import ExprLowering.Span

/-!
# Diagnostics

A diagnostic reports a problem that lowering can step over. Diagnostics are kept in a list in
the order in which they were reported, repetitions included.
-/

namespace ExprLowering

/-- The problems that lowering reports and then steps over. -/
inductive Problem where
  /-- A member of a value of type `any` is used. -/
  | anyValue
  /-- A member that stands for a call expansion is used without being called. -/
  | uncalledExpansion
  /-- A method is read without being called. -/
  | uncalledMethod
  /-- The member `prototype` is used. -/
  | prototype
deriving DecidableEq, Repr

/-- The wording of a problem. -/
def Problem.message : Problem → String
  | anyValue => "using values of type `any` is not supported! Use `unknown` instead"
  | uncalledExpansion => "macro methods must be called directly"
  | uncalledMethod => "cannot index a method without calling it"
  | prototype => "`prototype` is not supported"

/-- A problem and the place where it was found. -/
structure Diagnostic where
  problem : Problem
  span : Span
deriving DecidableEq, Repr

namespace Diagnostic

/-- The line that reports the problem, without the line break. -/
def text (d : Diagnostic) : String := d.span.start ++ ": error: " ++ d.problem.message

/-- A line for each diagnostic, in the order of reporting. -/
def listing (ds : List Diagnostic) : String :=
  ds.foldl (fun text d => text ++ d.text ++ "\n") ""

/-- How many diagnostics report one problem. -/
def count (problem : Problem) (ds : List Diagnostic) : Nat :=
  ds.countP (·.problem == problem)

/-- Every diagnostic is an error, so a list of them has errors as soon as it is not empty. -/
def hasErrors (ds : List Diagnostic) : Bool := !ds.isEmpty

end Diagnostic

end ExprLowering
