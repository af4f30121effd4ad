import ExprLowering.Span
import ExprLowering.Source.Operator

/-!
# Source expressions

The expressions that lowering reads. Every node carries its span. Parentheses, non-null
assertions and type assertions do not change a value: they are the wrappers, and
`Expr.unwrap` looks through them.
-/

namespace ExprLowering.Source

/-- A literal. Numbers, strings and templates keep the text they are written with, delimiters
included. -/
inductive Literal where
  | bool (value : Bool)
  | number (raw : String)
  | string (raw : String)
  | template (raw : String)
deriving DecidableEq, Repr

/-- Ways to write an expression around another one without changing its value. -/
inductive Wrapper where
  /-- `(e)` -/
  | parens
  /-- `e!` -/
  | nonNull
  /-- `e as type` -/
  | assertion (type : String)
deriving DecidableEq, Repr

/-- A substitution in a template, with the text that follows it. -/
structure Substitution (α : Type) where
  expr : α
  text : String
  span : Span
deriving Repr

/-- An expression of the source language. -/
inductive Expr where
  | name (text : String) (span : Span)
  | literal (value : Literal) (span : Span)
  | template (head : String) (parts : List (Substitution Expr)) (span : Span)
  | binary (left : Expr) (op : Operator) (right : Expr) (span : Span)
  /-- `object.name`, or `object?.name` when optional. -/
  | property (object : Expr) (name : String) (nameSpan : Span) (optional : Bool) (span : Span)
  /-- `object[index]`, or `object?.[index]` when optional. -/
  | element (object index : Expr) (optional : Bool) (span : Span)
  | call (callee : Expr) (args : List Expr) (span : Span)
  | delete (operand : Expr) (span : Span)
  | wrap (wrapper : Wrapper) (inner : Expr) (span : Span)
deriving Repr

namespace Expr

/-- Where the expression stands, as written. -/
def span : Expr → Span
  | name _ s => s
  | literal _ s => s
  | template _ _ s => s
  | binary _ _ _ s => s
  | property _ _ _ _ s => s
  | element _ _ _ s => s
  | call _ _ s => s
  | delete _ s => s
  | wrap _ _ s => s

/-- Whether the expression is a wrapper around another one. -/
def isWrapper : Expr → Bool
  | wrap .. => true
  | _ => false

/-- The expression inside all wrappers. -/
def unwrap : Expr → Expr
  | wrap _ inner _ => unwrap inner
  | e => e

/-- Looking through the wrappers leaves none. -/
@[simp] theorem isWrapper_unwrap (e : Expr) : e.unwrap.isWrapper = false := by
  fun_induction unwrap e with
  | case1 _ inner _ ih => exact ih
  | case2 e h => cases e <;> first | rfl | exact absurd rfl (h _ _ _)

/-- Looking through the wrappers twice is looking once. -/
@[simp] theorem unwrap_unwrap (e : Expr) : e.unwrap.unwrap = e.unwrap := by
  have h := isWrapper_unwrap e
  cases hu : e.unwrap <;> simp_all [unwrap, isWrapper]

end Expr

end ExprLowering.Source
