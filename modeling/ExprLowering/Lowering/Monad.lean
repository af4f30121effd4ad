import ExprLowering.Facts
import ExprLowering.Fault
import ExprLowering.Lowering.State

/-!
# Computations that lower

A lowering computation changes the state and yields a result or fails. The state survives a
failure: what was emitted, reported and counted before it stays.

## Main definitions

* `LowerM`: the computations, with `LowerM.run` to run one from a state.
* `inFrame`: runs a computation in a frame of its own and hands out what it emitted.
* `inRole`: runs a computation as that of a child in a given role.
* `hoist`, `hoistUnlessAtom`: save a value in a temporary.
* `assign`: emits an assignment, whose left side must be writable.
-/

namespace ExprLowering.Lowering

open Target

/-- What the user may choose. -/
structure Options where
  /-- Members with a constant value are replaced by it. -/
  foldConstants : Bool
  /-- Compound assignments are kept where the target has them. -/
  keepCompound : Bool
deriving DecidableEq, Repr

instance : Inhabited Options := ⟨⟨true, true⟩⟩

/-- What lowering may ask for: facts about the program, and the options. -/
structure Context where
  facts : Facts
  options : Options
deriving Repr

/-- Why a lowering stops. -/
inductive Failure where
  /-- The program has a fault. -/
  | fault (fault : Fault)
  /-- The left side of an assignment cannot be written to. -/
  | unassignable
deriving DecidableEq, Repr

/-- The wording of a failure. -/
def Failure.message : Failure → String
  | fault f => f.message
  | unassignable => "assignment to non-writable expression"

/-- Computations on the state of a lowering that may fail; a failure keeps the state. -/
def LowerM (α : Type) : Type := State → Except Failure α × State

namespace LowerM

variable {α β : Type}

/-- Runs a computation from a state: how it ends, and the state afterwards. -/
def run (m : LowerM α) (s : State) : Except Failure α × State := m s

instance : Monad LowerM where
  pure value := fun s => (.ok value, s)
  bind m f := fun s =>
    match m.run s with
    | (.ok value, t) => (f value).run t
    | (.error failure, t) => (.error failure, t)

/-- Two computations are the same if they do the same from every state. -/
@[ext] theorem ext {m n : LowerM α} (h : ∀ s, m.run s = n.run s) : m = n := funext h

/-- A plain value leaves the state alone. -/
@[simp] theorem run_pure (value : α) (s : State) :
    (pure value : LowerM α).run s = (.ok value, s) := rfl

/-- The second computation starts where the first one ended, and not at all after a failure. -/
theorem run_bind (m : LowerM α) (f : α → LowerM β) (s : State) :
    (m >>= f).run s =
      match m.run s with
      | (.ok value, t) => (f value).run t
      | (.error failure, t) => (.error failure, t) := rfl

/-- A computation after one that succeeds. -/
theorem run_bind_ok {m : LowerM α} {s t : State} {value : α} (h : m.run s = (.ok value, t))
    (f : α → LowerM β) : (m >>= f).run s = (f value).run t := by
  rw [run_bind, h]

/-- No computation runs after one that fails. -/
theorem run_bind_error {m : LowerM α} {s t : State} {failure : Failure}
    (h : m.run s = (.error failure, t)) (f : α → LowerM β) :
    (m >>= f).run s = (.error failure, t) := by
  rw [run_bind, h]

instance : LawfulMonad LowerM :=
  LawfulMonad.mk' LowerM
    (fun m => by
      ext1 s
      change (match m.run s with
        | (.ok value, t) => (Except.ok value, t)
        | (.error failure, t) => (.error failure, t)) = m.run s
      rcases m.run s with ⟨_ | _, t⟩ <;> rfl)
    (fun _ _ => rfl)
    (fun m f g => by
      ext1 s
      rw [run_bind, run_bind, run_bind]
      rcases m.run s with ⟨_ | _, t⟩ <;> rfl)

/-- Stops with a failure. -/
def fail (failure : Failure) : LowerM α := fun s => (.error failure, s)

/-- Changes the state. -/
def update (f : State → State) : LowerM Unit := fun s => (.ok (), f s)

/-- Changes the state and yields something taken from it. -/
def take (f : State → α × State) : LowerM α := fun s => (.ok (f s).1, (f s).2)

/-- Looks at the state. -/
def ask (f : State → α) : LowerM α := fun s => (.ok (f s), s)

/-- A failure leaves the state alone. -/
@[simp] theorem run_fail (failure : Failure) (s : State) :
    (fail failure : LowerM α).run s = (.error failure, s) := rfl

/-- A change of the state has no other effect. -/
@[simp] theorem run_update (f : State → State) (s : State) : (update f).run s = (.ok (), f s) := rfl

/-- What is taken from the state is yielded. -/
@[simp] theorem run_take (f : State → α × State) (s : State) :
    (take f).run s = (.ok (f s).1, (f s).2) := rfl

/-- Looking at the state leaves it alone. -/
@[simp] theorem run_ask (f : State → α) (s : State) : (ask f).run s = (.ok (f s), s) := rfl

end LowerM

/-- The value of an expression, with the statements that are to run before it. -/
structure Framed where
  stmts : List Stmt
  value : Expr
deriving Repr

/-- Stops with a fault. -/
def fault {α : Type} (f : Fault) : LowerM α := .fail (.fault f)

/-- Emits statements. -/
def emitAll (stmts : List Stmt) : LowerM Unit := .update (State.emit stmts)

/-- Emits a statement. -/
def emit (stmt : Stmt) : LowerM Unit := emitAll [stmt]

/-- Takes all statements out of the innermost frame. -/
def takeStmts : LowerM (List Stmt) := .take State.takeFrame

/-- Reports a problem. -/
def diagnose (problem : Problem) (span : Span) : LowerM Unit :=
  .update (State.diagnose ⟨problem, span⟩)

/-- A temporary that was not used before. -/
def freshTemp : LowerM Temp := .take State.takeTemp

/-- The role that counts for the expression at hand, if it has a parent. -/
def currentRole : LowerM (Option Role) := .ask State.role?

/-- Saves a value in a fresh temporary and yields the temporary. -/
def hoist (value : Expr) : LowerM Expr := do
  let temp ← freshTemp
  emit (.declare temp value)
  return .temp temp

/-- Saves a value in a fresh temporary unless it is an atom. -/
def hoistUnlessAtom (value : Expr) : LowerM Expr :=
  if value.isAtom then pure value else hoist value

/-- Emits an assignment; its left side must be writable. -/
def assign (left : Expr) (op : AssignOp) (right : Expr) : LowerM Unit :=
  if left.isAssignable then emit (.assign left op right) else .fail .unassignable

/-- Reports a problem and yields the placeholder. -/
def refuse (problem : Problem) (span : Span) : LowerM Expr := do
  diagnose problem span
  return .placeholder

/-- Runs a computation in a frame of its own and hands out what it emitted. The frame is closed
in any case; after a failure its statements are lost. -/
def inFrame (op : LowerM Expr) : LowerM Framed := fun s =>
  let (outcome, inner) := op.run s.openFrame
  let (stmts, t) := inner.closeFrame
  (outcome.map fun value => ⟨stmts, value⟩, t)

/-- Runs a computation as that of a child in the given role. -/
def inRole {α : Type} (role : Role) (op : LowerM α) : LowerM α := fun s =>
  let (outcome, inner) := op.run (s.enter role)
  (outcome, inner.leave)

/-- Saving a value takes one temporary and emits one declaration. -/
theorem run_hoist (value : Expr) (s : State) :
    (hoist value).run s =
      (.ok (.temp ⟨s.nextTemp⟩), s.takeTemp.2.emit [.declare ⟨s.nextTemp⟩ value]) := rfl

/-- A computation in a frame of its own ends as it would without, and the frame is closed. -/
theorem run_inFrame (op : LowerM Expr) (s : State) :
    (inFrame op).run s =
      ((op.run s.openFrame).1.map fun value => ⟨(op.run s.openFrame).2.closeFrame.1, value⟩,
        (op.run s.openFrame).2.closeFrame.2) := rfl

/-- A computation in a role ends as it would without, and the role is left. -/
theorem run_inRole {α : Type} (role : Role) (op : LowerM α) (s : State) :
    (inRole role op).run s =
      ((op.run (s.enter role)).1, (op.run (s.enter role)).2.leave) := rfl

end ExprLowering.Lowering
