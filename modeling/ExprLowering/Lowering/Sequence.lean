import ExprLowering.Lowering.Monad

/-!
# Operands from left to right

Statements run before the expression that holds the operand values. So when an operand emits
statements, the values of all operands before it are saved in temporaries first, unless no
statement can change them: they must be read before those statements run.

```text
a + (a = 5)    becomes    local _0 = a
                          a = 5
                          _0 + 5
```

## Main definitions

* `step`: one operand, after earlier ones.
* `sequence`: operands as a list.
* `sequenceVector`: a fixed number of operands.
* `withArgs`: a first operand without a frame of its own, and a list of further ones.
-/

namespace ExprLowering.Lowering

open Target

/-- Saves a value in a temporary if a statement could change it. -/
def settle (value : Expr) : LowerM Expr := if value.isSettled then pure value else hoist value

/-- Runs the computation of an operand. If it emits statements, the earlier values are settled
before them. -/
def step {σ : Type} (settleAll : σ → LowerM σ) (earlier : σ) (op : LowerM Expr) :
    LowerM (σ × Expr) := do
  let ⟨stmts, value⟩ ← inFrame op
  if stmts.isEmpty then
    return (earlier, value)
  else
    let earlier ← settleAll earlier
    emitAll stmts
    return (earlier, value)

/-- The remaining operands of a list, after the values of earlier ones. -/
def sequenceAfter (earlier : List Expr) : List (LowerM Expr) → LowerM (List Expr)
  | [] => pure earlier
  | op :: ops => do
    let (earlier, value) ← step (List.mapM settle) earlier op
    sequenceAfter (earlier ++ [value]) ops

/-- The values of operands, computed from left to right. -/
def sequence (ops : List (LowerM Expr)) : LowerM (List Expr) := sequenceAfter [] ops

/-- Settles a fixed number of values, from left to right. -/
def settleVector {n : Nat} (values : Vector Expr n) : LowerM (Vector Expr n) :=
  values.mapFinIdxM fun _ value _ => settle value

/-- Settling from some slot on, seen as a list. -/
theorem toList_settleVector_loop {n : Nat} (values : Vector Expr n) (count i : Nat)
    (h : count + i = n) (done : Vector Expr (n - count)) :
    Vector.toList <$> Vector.mapFinIdxM.map values (fun _ value _ => settle value) count i h done =
      (done.toList ++ ·) <$> (values.toList.drop i).mapM settle := by
  induction count generalizing i with
  | zero =>
    obtain rfl : i = n := by omega
    have hdrop : values.toList.drop i = [] := by simp
    rw [hdrop]
    simp [Vector.mapFinIdxM.map]
  | succ count ih =>
    have hlt : i < values.toList.length := by
      rw [Vector.length_toList]
      omega
    have hdrop : values.toList.drop i = values[i] :: values.toList.drop (i + 1) := by
      rw [List.drop_eq_getElem_cons hlt, Vector.getElem_toList]
    rw [hdrop]
    simp only [Vector.mapFinIdxM.map, map_bind, ih, List.mapM_cons, bind_pure_comp, Functor.map_map]
    congr 1
    funext value
    simp [Vector.toList, Vector.toArray_cast, Vector.toArray_push]

/-- Settling a vector is settling its list. -/
theorem toList_settleVector {n : Nat} (values : Vector Expr n) :
    Vector.toList <$> settleVector values = values.toList.mapM settle := by
  simp [settleVector, Vector.mapFinIdxM, toList_settleVector_loop]

/-- The last `count` operands of a fixed number, after the values of those before them. -/
def sequenceVectorAfter {n : Nat} (ops : Vector (LowerM Expr) n) :
    (count : Nat) → {i : Nat} → i + count = n → Vector Expr i → LowerM (Vector Expr n)
  | 0, _, h, earlier => pure (earlier.cast h)
  | count + 1, i, h, earlier => do
    let (earlier, value) ← step settleVector earlier ops[i]
    sequenceVectorAfter ops count (by omega) (earlier.push value)

/-- The values of a fixed number of operands, computed from left to right. -/
def sequenceVector {n : Nat} (ops : Vector (LowerM Expr) n) : LowerM (Vector Expr n) :=
  sequenceVectorAfter ops n (Nat.zero_add n) #v[]

/-- The values of two operands, computed from left to right. -/
def both (first second : LowerM Expr) : LowerM (Expr × Expr) := do
  let values ← sequenceVector #v[first, second]
  return (values[0], values[1])

/-- Settles a first value and those of a list. -/
def settleArgs (values : Expr × List Expr) : LowerM (Expr × List Expr) := do
  let head ← settle values.1
  return (head, ← values.2.mapM settle)

/-- The remaining arguments, after a head and the values of earlier arguments. -/
def argsAfter (earlier : Expr × List Expr) : List (LowerM Expr) → LowerM (Expr × List Expr)
  | [] => pure earlier
  | op :: ops => do
    let ((head, args), value) ← step settleArgs earlier op
    argsAfter (head, args ++ [value]) ops

/-- The values of a head and of arguments. The head runs in the present frame, so that what it
emits stays there even if it fails. -/
def withArgs (head : LowerM Expr) (args : List (LowerM Expr)) : LowerM (Expr × List Expr) := do
  let value ← head
  argsAfter (value, []) args

end ExprLowering.Lowering
