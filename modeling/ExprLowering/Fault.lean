import ExprLowering.Span

/-!
# Fatal faults

A `Fault` is a reason why an expression cannot be lowered at all. It is located at one span and
has one wording. Problems that lowering can step over are a `Diagnostic` instead.
-/

namespace ExprLowering

/-- Why an expression cannot be lowered. -/
inductive Fault where
  /-- The operator exists in the source language and is refused; another one is to be used. -/
  | operatorRefused (operator replacement : String) (span : Span)
  /-- The left side of an assignment is neither a name nor a plain member access. -/
  | targetNotAssignable (span : Span)
  /-- The operand of `delete` is not a member access. -/
  | operandNotDeletable (span : Span)
  /-- The operator is of no kind that lowering knows. -/
  | operatorUnknown (operator : String) (span : Span)
deriving DecidableEq, Repr

namespace Fault

/-- Where the fault lies. -/
def span : Fault → Span
  | operatorRefused _ _ s => s
  | targetNotAssignable s => s
  | operandNotDeletable s => s
  | operatorUnknown _ s => s

/-- An internal fault points at a gap in the lowering and not at the user's program. -/
def isInternal : Fault → Bool
  | operatorUnknown .. => true
  | _ => false

/-- What is wrong, without the place. -/
def description : Fault → String
  | operatorRefused operator replacement _ =>
    "operator '" ++ operator ++ "' is not supported! Use '" ++ replacement ++ "' instead."
  | targetNotAssignable _ => "invalid assignment target"
  | operandNotDeletable _ => "the operand of a 'delete' operator must be a property reference"
  | operatorUnknown operator _ => "unrecognized operator token '" ++ operator ++ "'"

/-- The full wording: the place, then what is wrong. -/
def message (f : Fault) : String := "at " ++ f.span.start ++ ": " ++ f.description

end Fault

end ExprLowering
