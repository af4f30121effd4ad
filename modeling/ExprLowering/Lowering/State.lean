import ExprLowering.Diagnostic
import ExprLowering.Target.Expr

/-!
# The state of a lowering

While an expression is lowered, statements are collected in a stack of frames, the ancestors of
the expression at hand are remembered by the roles they give to it, diagnostics are collected,
and temporaries are counted.

## Main definitions

* `State.openFrame`, `State.closeFrame`: a frame of its own for a part of the work.
* `State.enter`, `State.leave`: a step down to a child and back.
* `State.role?`: the role that counts, wrappers left aside.
-/

namespace ExprLowering.Lowering

open Target

/-- How an expression stands in its parent. -/
inductive Role where
  /-- It is called. -/
  | callee
  /-- It is deleted. -/
  | deleted
  /-- It is inside a wrapper, which has a role of its own. -/
  | wrapped
  /-- Anything else. -/
  | operand
deriving DecidableEq, Repr

/-- The state of a lowering. -/
structure State where
  /-- The statements of the innermost frame, in order. -/
  frame : List Stmt
  /-- The frames around it, the nearest first. -/
  outer : List (List Stmt)
  /-- The roles on the way down to the expression at hand, the nearest first. -/
  roles : List Role
  /-- The diagnostics reported so far, in order. -/
  diagnostics : List Diagnostic
  /-- The number of the next temporary. It has no upper bound: that a counter of 32 bits would come
  to an end, and stop the program there, is left out. -/
  nextTemp : Nat
  /-- How many logical operators were lowered. -/
  logicalCount : Nat
  /-- How many optional accesses were lowered. -/
  chainCount : Nat
deriving Repr

namespace State

/-- The state before anything was lowered. -/
def initial : State := ⟨[], [], [], [], 0, 0, 0⟩

instance : Inhabited State := ⟨initial⟩

/-- Opens an empty frame inside the present one. -/
def openFrame (s : State) : State := { s with frame := [], outer := s.frame :: s.outer }

/-- Closes the innermost frame and hands out its statements. -/
def closeFrame (s : State) : List Stmt × State :=
  match s.outer with
  | [] => (s.frame, { s with frame := [] })
  | frame :: outer => (s.frame, { s with frame := frame, outer := outer })

/-- Adds statements at the end of the innermost frame. -/
def emit (stmts : List Stmt) (s : State) : State := { s with frame := s.frame ++ stmts }

/-- Empties the innermost frame and hands out its statements. -/
def takeFrame (s : State) : List Stmt × State := (s.frame, { s with frame := [] })

/-- Adds a diagnostic at the end. -/
def diagnose (d : Diagnostic) (s : State) : State :=
  { s with diagnostics := s.diagnostics ++ [d] }

/-- Hands out a temporary that was not handed out before. -/
def takeTemp (s : State) : Temp × State := (⟨s.nextTemp⟩, { s with nextTemp := s.nextTemp + 1 })

/-- Steps down to a child that stands in the given role. -/
def enter (role : Role) (s : State) : State := { s with roles := role :: s.roles }

/-- Steps back up from a child. -/
def leave (s : State) : State := { s with roles := s.roles.tail }

/-- The nearest role that is not that of a wrapped expression. -/
def role? (s : State) : Option Role := s.roles.find? (· != .wrapped)

/-- Opening and closing a frame changes nothing. -/
@[simp] theorem closeFrame_openFrame (s : State) : s.openFrame.closeFrame = ([], s) := rfl

/-- Stepping down and back changes nothing. -/
@[simp] theorem leave_enter (role : Role) (s : State) : (s.enter role).leave = s := rfl

/-- A wrapper passes its own role on. -/
@[simp] theorem role?_enter_wrapped (s : State) : (s.enter .wrapped).role? = s.role? := rfl

/-- Any role but that of a wrapped expression is the one that counts. -/
theorem role?_enter {role : Role} (h : role ≠ .wrapped) (s : State) :
    (s.enter role).role? = some role := by
  cases role <;> first | rfl | exact absurd rfl h

/-- Statements go in one after the other. -/
@[simp] theorem emit_emit (xs ys : List Stmt) (s : State) :
    emit ys (emit xs s) = emit (xs ++ ys) s := by
  simp [emit]

end State

end ExprLowering.Lowering
