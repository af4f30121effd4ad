import ExprLowering.Proofs.Failures
import ExprLowering.Proofs.Independence

/-!
# Loops over operands agree

Operands are lowered from left to right by three loops: over a list, over a fixed number of
operands, and over the arguments after a head. This file compares them, also where an operand
fails, and says what a loop leaves behind when it stops.

## Main definitions

* `StopsAt`: a loop over expressions stops at a position.

## Main results

* `run_withArgs_of_run_head`: once the head is lowered, its loop is the loop over a list.
* `run_lowerAll_eq_error_iff`: a loop fails exactly by stopping at a position.
* `loops_over_operands_agree`: the three loops, whatever the expressions and the state.
-/

namespace ExprLowering.Lowering

open Target

-- ════════════════════════════════════════════════════════════════════════
-- Where a loop stops
-- ════════════════════════════════════════════════════════════════════════

theorem sequenceAfter_append (earlier : List Expr) (ops ops' : List (LowerM Expr)) :
    sequenceAfter earlier (ops ++ ops') =
      sequenceAfter earlier ops >>= fun values => sequenceAfter values ops' := by
  induction ops generalizing earlier with
  | nil => rfl
  | cons op ops ih =>
    rw [List.cons_append, sequenceAfter, sequenceAfter, bind_assoc]
    congr 1
    funext result
    exact ih (result.1 ++ [result.2])

/-- Settling earlier values never fails, so a step fails only with its operand. -/
theorem run_step_eq_error_iff {earlier : List Expr} {op : LowerM Expr} {s t : State}
    {failure : Failure} :
    (step (List.mapM settle) earlier op).run s = (.error failure, t) ↔
      (inFrame op).run s = (.error failure, t) := by
  rw [step]
  rcases hframe : (inFrame op).run s with ⟨failed | ⟨stmts, value⟩, u⟩
  · rw [LowerM.run_bind_error hframe]
    simp
  · rw [LowerM.run_bind_ok hframe]
    cases stmts with
    | nil => simp
    | cons stmt stmts =>
      simp only [List.isEmpty_cons, Bool.false_eq_true, if_false]
      rw [LowerM.run_bind_ok (run_mapM_settle earlier u), LowerM.run_bind_ok (run_emitAll _ _)]
      simp

/-- A loop fails exactly if an operand fails in its own frame, after all operands before it
succeeded. -/
theorem run_sequenceAfter_eq_error_iff {earlier : List Expr} {ops : List (LowerM Expr)}
    {s t : State} {failure : Failure} :
    (sequenceAfter earlier ops).run s = (.error failure, t) ↔
      ∃ done op rest values u, ops = done ++ op :: rest ∧
        (sequenceAfter earlier done).run s = (.ok values, u) ∧
        (inFrame op).run u = (.error failure, t) := by
  constructor
  · intro h
    induction ops generalizing earlier s with
    | nil => cases h
    | cons op ops ih =>
      rw [sequenceAfter] at h
      rcases hstep : (step (List.mapM settle) earlier op).run s with ⟨failed | ⟨settled, value⟩, u⟩
      · rw [LowerM.run_bind_error hstep] at h
        cases h
        exact ⟨[], op, ops, earlier, s, rfl, rfl, run_step_eq_error_iff.1 hstep⟩
      · rw [LowerM.run_bind_ok hstep] at h
        obtain ⟨done, op', rest, values, v, rfl, hdone, hfails⟩ := ih h
        refine ⟨op :: done, op', rest, values, v, rfl, ?_, hfails⟩
        rw [sequenceAfter, LowerM.run_bind_ok hstep]
        exact hdone
  · rintro ⟨done, op, rest, values, u, rfl, hdone, hfails⟩
    rw [sequenceAfter_append, LowerM.run_bind_ok hdone, sequenceAfter]
    exact LowerM.run_bind_error (run_step_eq_error_iff.2 hfails) _

/-- From `s`, the loop over `es` reaches position `j` in the state `u` and stops there: the
expression at `j` fails, and the state afterwards is `t`. -/
structure StopsAt (ctx : Context) (s : State) (es : List Source.Expr) (j : Nat) (u : State)
    (failure : Failure) (t : State) : Prop where
  /-- The expressions before the position are lowered. -/
  before : ∃ values, (lowerAll ctx (es.take j)).run s = (.ok values, u)
  /-- The expression at the position fails in a frame of its own. -/
  fails : ∃ e, es[j]? = some e ∧ (lowerInFrame ctx e).run u = (.error failure, t)
  /-- Nothing that it emitted is in the innermost frame. -/
  frame : t.frame = u.frame
  /-- Nor is it in any frame around it. -/
  outer : t.outer = u.outer

/-- An expression in a frame of its own leaves all frames as they were, also if it fails. -/
theorem frames_of_run_lowerInFrame {ctx : Context} {e : Source.Expr} {s t : State}
    {outcome : Except Failure Framed} (h : (lowerInFrame ctx e).run s = (outcome, t)) :
    t.frame = s.frame ∧ t.outer = s.outer := by
  obtain ⟨_, g, hrun, -, -⟩ := ends_lowerExpr ctx e s.openFrame
  rw [lowerInFrame, run_inFrame_outcome hrun] at h
  cases h
  exact ⟨by simp [State.grow, Growth.withoutStmts], rfl⟩

theorem run_lowerAll_eq_error_iff {ctx : Context} {s t : State} {es : List Source.Expr}
    {failure : Failure} :
    (lowerAll ctx es).run s = (.error failure, t) ↔ ∃ j u, StopsAt ctx s es j u failure t := by
  rw [lowerAll, sequence, run_sequenceAfter_eq_error_iff]
  constructor
  · rintro ⟨done, op, rest, values, u, hops, hdone, hfails⟩
    obtain ⟨before, after, rfl, rfl, hafter⟩ := List.map_eq_append_iff.1 hops
    obtain ⟨e, after, rfl, rfl, rfl⟩ := List.map_eq_cons_iff.1 hafter
    obtain ⟨hframe, houter⟩ := frames_of_run_lowerInFrame hfails
    refine ⟨before.length, u, ⟨values, ?_⟩, ⟨e, ?_, hfails⟩, hframe, houter⟩
    · rw [List.take_left]
      exact hdone
    · simp
  · rintro ⟨j, u, hstop⟩
    obtain ⟨values, hdone⟩ := hstop.before
    obtain ⟨e, he, hfails⟩ := hstop.fails
    obtain ⟨hj, rfl⟩ := List.getElem?_eq_some_iff.1 he
    refine ⟨(es.take j).map (lowerExpr ctx), lowerExpr ctx es[j],
      (es.drop (j + 1)).map (lowerExpr ctx), values, u, ?_, hdone, hfails⟩
    rw [← List.map_cons, ← List.map_append, ← List.drop_eq_getElem_cons hj, List.take_append_drop]

-- ════════════════════════════════════════════════════════════════════════
-- The loop after a head
-- ════════════════════════════════════════════════════════════════════════

/-- What lowering an expression yields and adds depends on the state only by the number of the next
temporary. -/
theorem exists_growth_lowerExpr (ctx : Context) (e : Source.Expr) (s : State) :
    ∃ g, ∀ t, t.nextTemp = s.nextTemp →
      (lowerExpr ctx e).run t = (((lowerExpr ctx e).run s).1, t.grow g) := by
  have hafter := run_lowerExpr_after ctx e
  generalize (lowerExpr ctx e).run .initial = fresh at hafter
  refine ⟨⟨fresh.2.frame.map (Stmt.renumber (· + s.nextTemp)), fresh.2.diagnostics,
    fresh.2.nextTemp, fresh.2.logicalCount, fresh.2.chainCount⟩, ?_⟩
  intro t ht
  rw [hafter s, hafter t, State.after, ht]
  simp [State.grow, ht]

/-- Once the head is lowered, the loop over its arguments is the loop over the list of all, however
it ends. -/
theorem run_withArgs_of_run_head {ctx : Context} {head : Source.Expr} {args : List Source.Expr}
    {s u : State} {value : Expr} (h : (lowerExpr ctx head).run s = (.ok value, u)) :
    ((fun p : Expr × List Expr => p.1 :: p.2) <$>
        withArgs (lowerExpr ctx head) (lowerEach ctx args)).run s =
      (lowerAll ctx (head :: args)).run s := by
  obtain ⟨g, hg⟩ := exists_growth_lowerExpr ctx head s
  have hhere := hg s rfl
  have hframe := hg s.openFrame rfl
  rw [h] at hhere hframe
  cases hhere
  have hstep : (step (List.mapM settle) [] (lowerExpr ctx head)).run s =
      (.ok ([], value), s.grow g) := by
    simpa using run_step hframe []
  rw [lowerAll, List.map_cons, sequence, sequenceAfter, LowerM.run_bind_ok hstep, withArgs,
    map_bind, LowerM.run_bind_ok h, cons_argsAfter, lowerEach_eq_map]
  rfl

/-- If the head fails, both loops fail with it. -/
theorem run_withArgs_of_head_error {ctx : Context} {head : Source.Expr} {s u : State}
    {failure : Failure} (h : (lowerExpr ctx head).run s = (.error failure, u))
    (args : List Source.Expr) :
    ((withArgs (lowerExpr ctx head) (lowerEach ctx args)).run s).1 = .error failure ∧
      ((lowerAll ctx (head :: args)).run s).1 = .error failure := by
  obtain ⟨g, hg⟩ := exists_growth_lowerExpr ctx head s
  have hframe := run_inFrame_outcome (hg s.openFrame rfl)
  rw [h] at hframe
  refine ⟨?_, ?_⟩
  · rw [withArgs, LowerM.run_bind_error h]
  · rw [lowerAll, List.map_cons, sequence, sequenceAfter,
      LowerM.run_bind_error (run_step_eq_error_iff.2 hframe)]

-- ════════════════════════════════════════════════════════════════════════
-- All three loops
-- ════════════════════════════════════════════════════════════════════════

/-- The loops over operands agree, whatever the expressions and the state. A fixed number of
expressions and the list of them give the same values or the same failure and leave the same state.
A head with its arguments gives what the list of all gives, and the same state if it succeeds. A
loop that fails has stopped at a position, and its frames hold what the positions before it
emitted. -/
theorem loops_over_operands_agree (ctx : Context) (s : State) :
    (∀ {n : Nat} (es : Vector Source.Expr n),
      ((lowerVector ctx es).run s).1.map Vector.toList = ((lowerAll ctx es.toList).run s).1 ∧
        ((lowerVector ctx es).run s).2 = ((lowerAll ctx es.toList).run s).2) ∧
    (∀ (head : Source.Expr) (args : List Source.Expr),
      let headed := (withArgs (lowerExpr ctx head) (lowerEach ctx args)).run s
      let all := (lowerAll ctx (head :: args)).run s
      headed.1.map (fun p => p.1 :: p.2) = all.1 ∧
        (failure? headed.1 = none → headed.2 = all.2)) ∧
    ∀ {n : Nat} (es : Vector Source.Expr n) (failure : Failure) (t : State),
      ((lowerVector ctx es).run s = (.error failure, t) ↔
          ∃ j u, StopsAt ctx s es.toList j u failure t) ∧
        ((lowerAll ctx es.toList).run s = (.error failure, t) ↔
          ∃ j u, StopsAt ctx s es.toList j u failure t) := by
  have hvector {n : Nat} (es : Vector Source.Expr n) :
      (lowerAll ctx es.toList).run s =
        (((lowerVector ctx es).run s).1.map Vector.toList, ((lowerVector ctx es).run s).2) := by
    rw [← toList_lowerVector, LowerM.run_map]
  refine ⟨fun es => ?_, fun head args => ?_, fun es failure t => ⟨?_, run_lowerAll_eq_error_iff⟩⟩
  · rw [hvector]
    exact ⟨rfl, rfl⟩
  · rcases hhead : (lowerExpr ctx head).run s with ⟨failure | value, u⟩
    · obtain ⟨hheaded, hall⟩ := run_withArgs_of_head_error hhead args
      dsimp only
      rw [hheaded, hall]
      exact ⟨rfl, fun h => by cases h⟩
    · dsimp only
      rw [← run_withArgs_of_run_head hhead, LowerM.run_map]
      exact ⟨rfl, fun _ => rfl⟩
  · rw [← run_lowerAll_eq_error_iff, hvector]
    rcases (lowerVector ctx es).run s with ⟨failed | values, u⟩
    · simp [Except.map]
    · simp [Except.map]

/-- After a failure the states can differ: as a head, `(x = y) + (a == b)` leaves the assignment
behind, and as an operand it does not. -/
example :
    let ctx : Context := ⟨.empty, default⟩
    let write : Source.Expr :=
      .binary (.name "x" (.point 1 1)) .assign (.name "y" (.point 1 2)) (.point 1 3)
    let loose : Source.Expr :=
      .binary (.name "a" (.point 1 4)) .looseEq (.name "b" (.point 1 5)) (.point 1 6)
    let head : Source.Expr := .binary write (.calculation (.arithmetic .add)) loose (.point 1 7)
    ((withArgs (lowerExpr ctx head) []).run .initial).2.frame =
        [.assign (.name "x") .set (.name "y")] ∧
      ((lowerAll ctx [head]).run .initial).2.frame = [] :=
  ⟨rfl, rfl⟩

end ExprLowering.Lowering
