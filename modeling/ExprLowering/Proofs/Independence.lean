import ExprLowering.Proofs.Likeness

/-!
# What lowering does not depend on

The state that a lowering starts from decides nothing but the numbers of its temporaries: the
lowering adds to any state what it adds to the initial one, whether it fails or not. And the option
to keep compound assignments decides nothing but how these are written.

## Main definitions

* `State.after`: a state, and after it what a run from the initial state left.
* `Stmt.expanded`: a compound assignment written as a plain one.

## Main results

* `lowering_in_any_state`: a run from any state, compared with the run from the initial state.
* `kept_compounds_expand`: the outcomes with and without compound assignments.
-/

namespace ExprLowering.Target

/-- A compound assignment `l op= r` as `l = l op r`; other statements stay as they are. -/
def Stmt.expanded : Stmt → Stmt
  | .assign left op right =>
    match op.binop? with
    | some binop => .assign left .set (.binary left binop right)
    | none => .assign left op right
  | .declare t value => .declare t value

end ExprLowering.Target

namespace ExprLowering.Lowering

open Target

-- ════════════════════════════════════════════════════════════════════════
-- The state at the start
-- ════════════════════════════════════════════════════════════════════════

/-- The state `s` with all that a run from the initial state left in `fresh`: statements at the end
of the innermost frame, with temporaries numbered from those of `s` on, diagnostics at the end, and
counts. -/
def State.after (s fresh : State) : State :=
  { s with
    frame := s.frame ++ fresh.frame.map (Stmt.renumber (· + s.nextTemp))
    diagnostics := s.diagnostics ++ fresh.diagnostics
    nextTemp := s.nextTemp + fresh.nextTemp
    logicalCount := s.logicalCount + fresh.logicalCount
    chainCount := s.chainCount + fresh.chainCount }

/-- The temporaries of the second run are numbered from `n` on. -/
def Likeness.shift (fold keep : Bool) (n : Nat) : Likeness fold keep keep :=
  .ofSameSource (· + n) (Stmt.renumber (· + n)) (fun t _ => Nat.succ_add t n) (fun _ _ => rfl)
    (fun _ _ => rfl) (compoundStmt_renumber _ ⟨fold, keep⟩)

theorem run_lowerExpr_after (ctx : Context) (e : Source.Expr) (s : State) :
    (lowerExpr ctx e).run s =
      (((lowerExpr ctx e).run .initial).1.map (Expr.renumber (· + s.nextTemp)),
        s.after ((lowerExpr ctx e).run .initial).2) := by
  obtain ⟨facts, fold, keep⟩ := ctx
  have hnext : s.nextTemp = (Likeness.shift fold keep s.nextTemp).temp State.initial.nextTemp :=
    (Nat.zero_add _).symm
  obtain ⟨end₁, end₂, g₁, g₂, hrun₁, hrun₂, hend, hgrown⟩ :=
    Likeness.run_lowerExpr (L := Likeness.shift fold keep s.nextTemp) (rfl : e = e) facts
      .initial s hnext
  have hstmts : g₂.stmts = g₁.stmts.map (Stmt.renumber (· + s.nextTemp)) := hgrown.stmts
  have hreports : g₁.diagnostics = g₂.diagnostics := List.forall₂_eq_eq_eq ▸ hgrown.reports
  rw [hrun₁, hrun₂]
  refine Prod.ext ?_ ?_
  · cases hend with
    | ok value => rfl
    | error hfailure => exact congrArg Except.error hfailure.symm
  · simp [State.after, State.grow, State.initial, hstmts, hreports, hgrown.temps, hgrown.logicals,
      hgrown.chains]

/-- Lowering is independent of its context. From any state it ends as it does from the initial
state, with the same failure or with the same value up to the numbers of temporaries, and it adds
the same to the state; all frames and roles around it stay. In a frame of its own it hands out its
statements and leaves every frame as it was, also if it fails. -/
theorem lowering_in_any_state (ctx : Context) (e : Source.Expr) (s : State) :
    let fresh := (lowerExpr ctx e).run .initial
    (lowerExpr ctx e).run s =
        (fresh.1.map (Expr.renumber (· + s.nextTemp)), s.after fresh.2) ∧
      (lowerInFrame ctx e).run s =
        (fresh.1.map fun value => ⟨fresh.2.frame.map (Stmt.renumber (· + s.nextTemp)),
            value.renumber (· + s.nextTemp)⟩,
          { s.after fresh.2 with frame := s.frame }) := by
  refine ⟨run_lowerExpr_after ctx e s, ?_⟩
  rw [lowerInFrame, run_inFrame, run_lowerExpr_after ctx e s.openFrame]
  refine Prod.ext ?_ rfl
  cases ((lowerExpr ctx e).run .initial).1 with
  | error failure => rfl
  | ok value => rfl

-- ════════════════════════════════════════════════════════════════════════
-- Compound assignments
-- ════════════════════════════════════════════════════════════════════════

/-- The output with all compound assignments written as plain ones. -/
def Output.expanded (out : Output) : Output := { out with stmts := out.stmts.map Stmt.expanded }

theorem expanded_declare (t : Temp) (value : Expr) :
    (Stmt.declare t value).expanded = (Stmt.declare t value).renumber id :=
  (Stmt.renumber_id _).symm

theorem expanded_set (left right : Expr) :
    (Stmt.assign left .set right).expanded = (Stmt.assign left .set right).renumber id :=
  (Stmt.renumber_id _).symm

theorem expanded_compoundStmt (fold : Bool) (op : Source.Calculation) (place value : Expr) :
    (compoundStmt ⟨fold, true⟩ op place value).expanded =
      compoundStmt ⟨fold, false⟩ op (place.renumber id) (value.renumber id) := by
  rw [Expr.renumber_id, Expr.renumber_id]
  cases op with
  | arithmetic op => cases op <;> rfl
  | bitwise op => rfl

/-- The first run keeps compound assignments, and the second one does not. -/
def Likeness.expansion (fold : Bool) : Likeness fold true false :=
  .ofSameSource id Stmt.expanded gapless_id expanded_declare expanded_set
    (expanded_compoundStmt fold)

/-- Kept and expanded compound assignments are the same program: without them the outcome is the one
with them, each written as a plain assignment. -/
theorem kept_compounds_expand (facts : Facts) (fold : Bool) (e : Source.Expr) :
    lowerAlone ⟨facts, ⟨fold, false⟩⟩ e =
      (lowerAlone ⟨facts, ⟨fold, true⟩⟩ e).map Output.expanded := by
  obtain ⟨end₁, end₂, g₁, g₂, hrun₁, hrun₂, hend, hgrown⟩ :=
    Likeness.lowerAlone_alike (L := Likeness.expansion fold) (rfl : e = e) facts rfl
  have hstmts : g₂.stmts = g₁.stmts.map Stmt.expanded := hgrown.stmts
  have hreports : g₁.diagnostics = g₂.diagnostics := List.forall₂_eq_eq_eq ▸ hgrown.reports
  rw [hrun₁, hrun₂]
  cases hend with
  | error hfailure => exact congrArg Except.error hfailure.symm
  | ok value =>
    have hvalue : value.renumber (Likeness.expansion fold).temp = value := Expr.renumber_id value
    rw [hvalue]
    simp [Except.map, Growth.output, Output.expanded, hstmts, hreports, hgrown.logicals,
      hgrown.chains]

end ExprLowering.Lowering
