import ExprLowering.Lowering.Operator
import ExprLowering.Lowering.Sequence

/-!
# Assignments

Assignments are statements in the target language, so an assignment inside an expression is
emitted, and the value of the expression is the value assigned:

```text
y = (x = f())    becomes    local _0 = f()
                            x = _0
                            y = _0
```

The target of an assignment is resolved to a `Location` first. Its parts are saved unless they
are atoms, so that a compound assignment can read and write it without evaluating them again.
-/

namespace ExprLowering.Lowering

open Source (Calculation)
open Target (Expr)

/-- How a member is picked. -/
inductive Selector where
  | name (text : String)
  | index (key : Expr)
deriving Repr

/-- A place that can be read and written: a variable, or a member of a value. -/
structure Location where
  base : Expr
  selector : Option Selector
deriving Repr

/-- The expression that reads a location and, on the left of an assignment, writes it. -/
def Location.toExpr : Location → Expr
  | ⟨base, none⟩ => base
  | ⟨base, some (.name text)⟩ => .property base text
  | ⟨base, some (.index key)⟩ => .index base key

/-- The location `object.name`. -/
def propertyLocation (object : LowerM Expr) (name : String) : LowerM Location := do
  let base ← hoistUnlessAtom (← object)
  return ⟨base.toIndexable, some (.name name)⟩

/-- The location `object[index]`. -/
def elementLocation (object index : LowerM Expr) : LowerM Location := do
  let (object, index) ← both object index
  let base ← hoistUnlessAtom object
  let key ← hoistUnlessAtom index
  return ⟨base.toIndexable, some (.index key)⟩

/-- Assigns a value to a location and yields the value. -/
def assignValue (location : LowerM Location) (value : LowerM Expr) : LowerM Expr := do
  let location ← location
  let value ← hoistUnlessAtom (← value)
  assign location.toExpr .set value
  return value

/-- Assigns the result of a calculation on the old value of a location and a new value, and
yields the location. The target's own compound assignment is used where there is one and the
options allow it. -/
def assignResult (options : Options) (op : Calculation) (location : LowerM Location)
    (value : LowerM Expr) : LowerM Expr := do
  let location ← location
  let value ← value
  let place := location.toExpr
  match if options.keepCompound then compoundOp? op else none with
  | some compound => assign place compound value
  | none => assign place .set ((calculationForm op).build place value)
  return place

end ExprLowering.Lowering
