import ExprLowering.Target.Operator

/-!
# Expressions and statements of the target language

Lowering produces expressions and two kinds of statement, assignments and declarations of
temporaries. The predicates below say how an expression may be used.

## Main definitions

* `Expr.isAtom`: evaluating the expression again costs nothing and has no effect.
* `Expr.isSettled`: an atom whose value no statement can change.
* `Expr.isIndexable`: the expression may stand before `.name`, `[key]` or `(args)`.
* `Expr.isAssignable`: the expression may stand on the left of an assignment.
-/

namespace ExprLowering.Target

/-- A temporary variable, known by its number. -/
structure Temp where
  id : Nat
deriving DecidableEq, Repr

/-- The name under which a temporary is written. -/
def Temp.text (t : Temp) : String := "_" ++ toString t.id

/-- An expression of the target language. -/
inductive Expr where
  | nil
  | bool (value : Bool)
  | number (text : String)
  | string (body : String)
  | name (text : String)
  | temp (id : Temp)
  | binary (left : Expr) (op : Binop) (right : Expr)
  | property (object : Expr) (name : String)
  | index (object key : Expr)
  | call (callee : Expr) (args : List Expr)
  /-- `object:name(args)` -/
  | method (object : Expr) (name : String) (args : List Expr)
  | paren (inner : Expr)
deriving Repr

/-- A statement of the target language. -/
inductive Stmt where
  | assign (left : Expr) (op : AssignOp) (right : Expr)
  /-- `local temp = value` -/
  | declare (temp : Temp) (value : Expr)
deriving Repr

namespace Expr

instance : Inhabited Expr := ⟨nil⟩

/-- What stands in the place of a value that a diagnostic refused: a name without letters. -/
def placeholder : Expr := name ""

/-- Whether the expression is the placeholder. -/
def isPlaceholder : Expr → Bool
  | name text => text == ""
  | _ => false

/-- Literals and variables: evaluating them again has no effect. -/
def isAtom : Expr → Bool
  | nil | bool _ | number _ | string _ | name _ | temp _ => true
  | _ => false

/-- Literals and temporaries: no statement in between can change their value. -/
def isSettled : Expr → Bool
  | name _ => false
  | e => e.isAtom

/-- What the target's grammar admits before an index or a call. -/
def isIndexable : Expr → Bool
  | name _ | temp _ | property .. | index .. | call .. | method .. | paren _ => true
  | _ => false

/-- What the target's grammar admits on the left of an assignment. -/
def isAssignable : Expr → Bool
  | name _ | temp _ | property .. | index .. => true
  | _ => false

/-- The expression, in parentheses if it could not be indexed otherwise. -/
def toIndexable (e : Expr) : Expr := if e.isIndexable then e else paren e

/-- What `toIndexable` gives may be indexed. -/
@[simp] theorem isIndexable_toIndexable (e : Expr) : e.toIndexable.isIndexable = true := by
  unfold toIndexable
  split
  · assumption
  · rfl

/-- Settled expressions are atoms. -/
theorem isAtom_of_isSettled {e : Expr} (h : e.isSettled = true) : e.isAtom = true := by
  cases e <;> first | exact h | rfl

end Expr

end ExprLowering.Target
