import ExprLowering.Lowering.Expr

/-!
# What a computation adds to the state

A lowering computation never takes anything out of the state it starts from. It appends
statements to the innermost frame, appends diagnostics, takes temporaries and counts. A `Growth`
records what was added, and `State.grow` adds it.

## Main definitions

* `Growth`, `State.grow`: what is added, and the state with it.
* `saved`: what `hoistUnlessAtom` yields and adds.
* `settleAll`, `displaced`: what becomes of the values of earlier operands.

## Main results

* `run_step`: one operand after earlier ones.
* `toList_sequenceVector`, `cons_argsAfter`: the three loops over operands are one.
-/

namespace ExprLowering.Lowering

open Target

/-- What a computation adds to the state. -/
@[ext] structure Growth where
  /-- Statements at the end of the innermost frame. -/
  stmts : List Stmt
  /-- Diagnostics at the end. -/
  diagnostics : List Diagnostic
  /-- How many temporaries were taken. -/
  temps : Nat
  /-- How many logical operators were counted. -/
  logicals : Nat
  /-- How many optional accesses were counted. -/
  chains : Nat

namespace Growth

instance : EmptyCollection Growth := ⟨⟨[], [], 0, 0, 0⟩⟩

instance : Append Growth where
  append g h :=
    ⟨g.stmts ++ h.stmts, g.diagnostics ++ h.diagnostics, g.temps + h.temps,
      g.logicals + h.logicals, g.chains + h.chains⟩

/-- Statements and nothing else. -/
def ofStmts (stmts : List Stmt) : Growth := ⟨stmts, [], 0, 0, 0⟩

/-- A diagnostic and nothing else. -/
def ofDiagnostic (problem : Problem) (span : Span) : Growth := ⟨[], [⟨problem, span⟩], 0, 0, 0⟩

/-- The declaration of the temporary with number `n`. -/
def declaring (n : Nat) (value : Expr) : Growth := ⟨[.declare ⟨n⟩ value], [], 1, 0, 0⟩

/-- One logical operator. -/
def oneLogical : Growth := ⟨[], [], 0, 1, 0⟩

/-- One optional access. -/
def oneChain : Growth := ⟨[], [], 0, 0, 1⟩

/-- The same without its statements. -/
def withoutStmts (g : Growth) : Growth := { g with stmts := [] }

@[simp] theorem empty_stmts : (∅ : Growth).stmts = [] := rfl
@[simp] theorem empty_diagnostics : (∅ : Growth).diagnostics = [] := rfl
@[simp] theorem empty_temps : (∅ : Growth).temps = 0 := rfl
@[simp] theorem empty_logicals : (∅ : Growth).logicals = 0 := rfl
@[simp] theorem empty_chains : (∅ : Growth).chains = 0 := rfl

@[simp] theorem append_stmts (g h : Growth) : (g ++ h).stmts = g.stmts ++ h.stmts := rfl
@[simp] theorem append_diagnostics (g h : Growth) :
    (g ++ h).diagnostics = g.diagnostics ++ h.diagnostics := rfl
@[simp] theorem append_temps (g h : Growth) : (g ++ h).temps = g.temps + h.temps := rfl
@[simp] theorem append_logicals (g h : Growth) : (g ++ h).logicals = g.logicals + h.logicals := rfl
@[simp] theorem append_chains (g h : Growth) : (g ++ h).chains = g.chains + h.chains := rfl

@[simp] theorem empty_append (g : Growth) : ∅ ++ g = g := by
  ext1 <;> simp

@[simp] theorem append_empty (g : Growth) : g ++ ∅ = g := by
  ext1 <;> simp

theorem append_assoc (g h k : Growth) : g ++ h ++ k = g ++ (h ++ k) := by
  ext1 <;> simp [Nat.add_assoc]

end Growth

/-- The state with something added to it. -/
def State.grow (s : State) (g : Growth) : State :=
  { s with
    frame := s.frame ++ g.stmts
    diagnostics := s.diagnostics ++ g.diagnostics
    nextTemp := s.nextTemp + g.temps
    logicalCount := s.logicalCount + g.logicals
    chainCount := s.chainCount + g.chains }

namespace State

@[simp] theorem grow_nextTemp (s : State) (g : Growth) :
    (s.grow g).nextTemp = s.nextTemp + g.temps := rfl

@[simp] theorem grow_role? (s : State) (g : Growth) : (s.grow g).role? = s.role? := rfl

@[simp] theorem openFrame_nextTemp (s : State) : s.openFrame.nextTemp = s.nextTemp := rfl

@[simp] theorem openFrame_role? (s : State) : s.openFrame.role? = s.role? := rfl

@[simp] theorem enter_nextTemp (s : State) (role : Role) : (s.enter role).nextTemp = s.nextTemp :=
  rfl

@[simp] theorem grow_empty (s : State) : s.grow ∅ = s := by
  cases s
  simp [grow]

theorem grow_append (s : State) (g h : Growth) : s.grow (g ++ h) = (s.grow g).grow h := by
  simp [grow, List.append_assoc, Nat.add_assoc]

/-- What was added can be read off the state. -/
theorem grow_injective (s : State) {g h : Growth} (heq : s.grow g = s.grow h) : g = h := by
  simp only [grow, State.mk.injEq, List.append_cancel_left_eq, Nat.add_left_cancel_iff] at heq
  obtain ⟨hstmts, -, -, hdiagnostics, htemps, hlogicals, hchains⟩ := heq
  exact Growth.ext hstmts hdiagnostics htemps hlogicals hchains

end State

-- ════════════════════════════════════════════════════════════════════════
-- Runs of the elementary computations
-- ════════════════════════════════════════════════════════════════════════

/-- A computation followed by another one succeeds exactly if both succeed. -/
theorem LowerM.run_bind_eq_ok {α β : Type} {m : LowerM α} {f : α → LowerM β} {s t : State} {b : β} :
    (m >>= f).run s = (.ok b, t) ↔
      ∃ a u, m.run s = (.ok a, u) ∧ (f a).run u = (.ok b, t) := by
  rw [LowerM.run_bind]
  rcases m.run s with ⟨_ | a, u⟩
  · simp
  · constructor
    · intro h
      exact ⟨a, u, rfl, h⟩
    · rintro ⟨a', u', heq, h⟩
      cases heq
      exact h

/-- A function applied to the result leaves the run alone otherwise. -/
theorem LowerM.run_map {α β : Type} (f : α → β) (m : LowerM α) (s : State) :
    (f <$> m).run s = ((m.run s).1.map f, (m.run s).2) := by
  rw [← bind_pure_comp, LowerM.run_bind]
  rcases m.run s with ⟨_ | a, u⟩ <;> rfl

/-- How a computation succeeds can be seen on a function of its result. -/
theorem LowerM.run_map_eq_ok {α β : Type} {f : α → β} {m : LowerM α} {s t : State} {b : β} :
    (f <$> m).run s = (.ok b, t) ↔ ∃ a, m.run s = (.ok a, t) ∧ f a = b := by
  rw [LowerM.run_map]
  rcases m.run s with ⟨_ | a, u⟩
  · simp [Except.map]
  · simp only [Except.map, Prod.mk.injEq, Except.ok.injEq]
    constructor
    · rintro ⟨hb, rfl⟩
      exact ⟨a, ⟨rfl, rfl⟩, hb⟩
    · rintro ⟨a', ⟨rfl, rfl⟩, hb⟩
      exact ⟨hb, rfl⟩

/-- Emitting adds statements. -/
theorem run_emitAll (stmts : List Stmt) (s : State) :
    (emitAll stmts).run s = (.ok (), s.grow (.ofStmts stmts)) := by
  simp [emitAll, State.emit, State.grow, Growth.ofStmts]

/-- Reporting adds a diagnostic. -/
theorem run_diagnose (problem : Problem) (span : Span) (s : State) :
    (diagnose problem span).run s = (.ok (), s.grow (.ofDiagnostic problem span)) := by
  simp [diagnose, State.diagnose, State.grow, Growth.ofDiagnostic]

/-- Refusing adds a diagnostic and yields the placeholder. -/
theorem run_refuse (problem : Problem) (span : Span) (s : State) :
    (refuse problem span).run s = (.ok .placeholder, s.grow (.ofDiagnostic problem span)) := by
  rw [refuse, LowerM.run_bind_ok (run_diagnose problem span s)]
  rfl

/-- Saving a value adds one declaration. -/
theorem run_hoist_grow (value : Expr) (s : State) :
    (hoist value).run s = (.ok (.temp ⟨s.nextTemp⟩), s.grow (.declaring s.nextTemp value)) := by
  rw [run_hoist]
  simp [State.takeTemp, State.emit, State.grow, Growth.declaring]

/-- What becomes of a value that is saved unless it is an atom; `n` is the next temporary. -/
def saved (n : Nat) (value : Expr) : Expr × Growth :=
  if value.isAtom then (value, ∅) else (.temp ⟨n⟩, .declaring n value)

theorem saved_atom {value : Expr} (h : value.isAtom = true) (n : Nat) :
    saved n value = (value, ∅) := if_pos h

theorem saved_complex {value : Expr} (h : value.isAtom = false) (n : Nat) :
    saved n value = (.temp ⟨n⟩, .declaring n value) := if_neg (by simp [h])

theorem saved_isAtom (n : Nat) (value : Expr) : (saved n value).1.isAtom = true := by
  rw [saved]
  split
  · assumption
  · rfl

/-- Saving a value unless it is an atom. -/
theorem run_hoistUnlessAtom (value : Expr) (s : State) :
    (hoistUnlessAtom value).run s =
      (.ok (saved s.nextTemp value).1, s.grow (saved s.nextTemp value).2) := by
  cases h : value.isAtom with
  | true => simp [hoistUnlessAtom, saved, h]
  | false => simp [hoistUnlessAtom, saved, h, run_hoist_grow]

/-- An assignment to a writable expression adds the assignment. -/
theorem run_assign {left : Expr} (h : left.isAssignable = true) (op : AssignOp) (right : Expr)
    (s : State) :
    (assign left op right).run s = (.ok (), s.grow (.ofStmts [.assign left op right])) := by
  rw [assign, if_pos h]
  exact run_emitAll _ s

/-- An assignment succeeds only if its left side is writable. -/
theorem isAssignable_of_run_assign {left right : Expr} {op : AssignOp} {s t : State}
    (h : (assign left op right).run s = (.ok (), t)) : left.isAssignable = true := by
  rw [assign] at h
  split at h
  · assumption
  · cases h

/-- A computation in a frame of its own adds all but its statements, which it hands out. -/
theorem run_inFrame_grow {op : LowerM Expr} {s : State} {value : Expr} {g : Growth}
    (h : op.run s.openFrame = (.ok value, s.openFrame.grow g)) :
    (inFrame op).run s = (.ok ⟨g.stmts, value⟩, s.grow g.withoutStmts) := by
  rw [run_inFrame, h]
  simp [State.openFrame, State.closeFrame, State.grow, Growth.withoutStmts, Except.map]

/-- A computation in a role adds what it adds without. -/
theorem run_inRole_grow {α : Type} {role : Role} {op : LowerM α} {s : State} {a : α} {g : Growth}
    (h : op.run (s.enter role) = (.ok a, (s.enter role).grow g)) :
    (inRole role op).run s = (.ok a, s.grow g) := by
  rw [run_inRole, h]
  rfl

/-- A computation in a role succeeds only if it does so when run there. -/
theorem run_inRole_eq_ok {α : Type} {role : Role} {op : LowerM α} {s t : State} {a : α}
    (h : (inRole role op).run s = (.ok a, t)) : ∃ u, op.run (s.enter role) = (.ok a, u) := by
  rw [run_inRole] at h
  exact ⟨_, Prod.ext (Prod.mk.inj h).1 rfl⟩

/-- A computation in a frame succeeds only if it does so when run there. -/
theorem run_inFrame_eq_ok {op : LowerM Expr} {s t : State} {framed : Framed}
    (h : (inFrame op).run s = (.ok framed, t)) :
    ∃ u, op.run s.openFrame = (.ok framed.value, u) := by
  rw [run_inFrame] at h
  rcases hrun : op.run s.openFrame with ⟨_ | value, u⟩
  · rw [hrun] at h
    cases h
  · rw [hrun] at h
    obtain ⟨hframed, -⟩ := Prod.mk.inj h
    cases hframed
    exact ⟨u, rfl⟩

-- ════════════════════════════════════════════════════════════════════════
-- One operand after earlier ones
-- ════════════════════════════════════════════════════════════════════════

/-- The values of earlier operands after all of them were settled, and the declarations that save
those that were not; `n` is the next temporary. -/
def settleAll (n : Nat) : List Expr → List Expr × Growth
  | [] => ([], ∅)
  | value :: values =>
    if value.isSettled then
      let (rest, g) := settleAll n values
      (value :: rest, g)
    else
      let (rest, g) := settleAll (n + 1) values
      (.temp ⟨n⟩ :: rest, .declaring n value ++ g)

@[simp] theorem settleAll_nil (n : Nat) : settleAll n [] = ([], ∅) := rfl

theorem settleAll_cons_settled {value : Expr} (h : value.isSettled = true) (n : Nat)
    (values : List Expr) :
    settleAll n (value :: values) = (value :: (settleAll n values).1, (settleAll n values).2) := by
  simp [settleAll, h]

theorem settleAll_cons_unsettled {value : Expr} (h : value.isSettled = false) (n : Nat)
    (values : List Expr) :
    settleAll n (value :: values) =
      (.temp ⟨n⟩ :: (settleAll (n + 1) values).1,
        .declaring n value ++ (settleAll (n + 1) values).2) := by
  simp [settleAll, h]

/-- Settling adds declarations only, one for each temporary it takes. -/
theorem settleAll_growth (n : Nat) (values : List Expr) :
    (settleAll n values).2 =
      ⟨(settleAll n values).2.stmts, [], (settleAll n values).2.stmts.length, 0, 0⟩ := by
  induction values generalizing n with
  | nil => rfl
  | cons value values ih =>
    cases h : value.isSettled with
    | true =>
      rw [settleAll_cons_settled h]
      exact ih n
    | false =>
      rw [settleAll_cons_unsettled h]
      dsimp only
      rw [ih (n + 1)]
      ext1 <;> simp [Growth.declaring, Nat.add_comm]

/-- Settling values one after the other. -/
theorem run_mapM_settle (values : List Expr) (s : State) :
    (values.mapM settle).run s =
      (.ok (settleAll s.nextTemp values).1, s.grow (settleAll s.nextTemp values).2) := by
  induction values generalizing s with
  | nil => simp
  | cons value values ih =>
    rw [List.mapM_cons]
    cases h : value.isSettled with
    | true =>
      have hhead : (settle value).run s = (.ok value, s) := by simp [settle, h]
      rw [LowerM.run_bind_ok hhead, LowerM.run_bind_ok (ih s), settleAll_cons_settled h]
      rfl
    | false =>
      have hhead : (settle value).run s =
          (.ok (.temp ⟨s.nextTemp⟩), s.grow (.declaring s.nextTemp value)) := by
        simp [settle, h, run_hoist_grow]
      rw [LowerM.run_bind_ok hhead, LowerM.run_bind_ok (ih _), settleAll_cons_unsettled h,
        State.grow_append]
      rfl

/-- What becomes of the values of earlier operands when an operand with the given statements
follows: nothing if it has none. -/
def displaced (n : Nat) (earlier : List Expr) (stmts : List Stmt) : List Expr × Growth :=
  if stmts.isEmpty then (earlier, ∅) else settleAll n earlier

@[simp] theorem displaced_nil (n : Nat) (earlier : List Expr) :
    displaced n earlier [] = (earlier, ∅) := rfl

@[simp] theorem displaced_cons (n : Nat) (earlier : List Expr) (stmt : Stmt) (stmts : List Stmt) :
    displaced n earlier (stmt :: stmts) = settleAll n earlier := rfl

@[simp] theorem displaced_empty (n : Nat) (stmts : List Stmt) :
    displaced n [] stmts = ([], ∅) := by
  cases stmts with
  | nil => rfl
  | cons stmt stmts => rfl

/-- One operand after earlier ones. The declarations of the earlier values are numbered after the
operand's own temporaries and stand before its statements. -/
theorem run_step {op : LowerM Expr} {s : State} {value : Expr} {g : Growth}
    (h : op.run s.openFrame = (.ok value, s.openFrame.grow g)) (earlier : List Expr) :
    (step (List.mapM settle) earlier op).run s =
      (.ok ((displaced (s.nextTemp + g.temps) earlier g.stmts).1, value),
        s.grow ((displaced (s.nextTemp + g.temps) earlier g.stmts).2 ++ g)) := by
  rw [step, LowerM.run_bind_ok (run_inFrame_grow h)]
  obtain ⟨stmts, diagnostics, temps, logicals, chains⟩ := g
  cases stmts with
  | nil => simp [Growth.withoutStmts]
  | cons stmt stmts =>
    simp only [List.isEmpty_cons, Bool.false_eq_true, if_false, displaced_cons]
    rw [LowerM.run_bind_ok (run_mapM_settle earlier _), LowerM.run_bind_ok (run_emitAll _ _)]
    simp only [LowerM.run_pure, State.grow_nextTemp, Growth.withoutStmts]
    -- The temporaries are counted in the other order than the statements are emitted.
    rw [settleAll_growth]
    simp [State.grow, Growth.ofStmts, Nat.add_assoc]
    omega

/-- An operand after earlier ones succeeds only if it does so in a frame of its own. -/
theorem run_step_eq_ok {σ : Type} {settle : σ → LowerM σ} {earlier : σ} {op : LowerM Expr}
    {s t : State} {result : σ × Expr} (h : (step settle earlier op).run s = (.ok result, t)) :
    ∃ value u, op.run s.openFrame = (.ok value, u) := by
  rw [step, LowerM.run_bind_eq_ok] at h
  obtain ⟨framed, u, hframe, -⟩ := h
  obtain ⟨v, hrun⟩ := run_inFrame_eq_ok hframe
  exact ⟨_, _, hrun⟩

-- ════════════════════════════════════════════════════════════════════════
-- The three loops over operands
-- ════════════════════════════════════════════════════════════════════════

/-- One operand after earlier ones does the same however the earlier values are kept. -/
theorem map_step {σ ρ : Type} (f : σ → ρ) {settleσ : σ → LowerM σ} {settleρ : ρ → LowerM ρ}
    {earlier : σ} (h : f <$> settleσ earlier = settleρ (f earlier)) (op : LowerM Expr) :
    (fun p : σ × Expr => (f p.1, p.2)) <$> step settleσ earlier op =
      step settleρ (f earlier) op := by
  simp only [step, map_bind]
  congr 1
  funext framed
  split
  · simp
  · simp only [map_bind, map_pure, ← h, bind_map_left]

/-- The loop over the last operands of a fixed number is the loop over a list. -/
theorem toList_sequenceVectorAfter {n : Nat} (ops : Vector (LowerM Expr) n) (count : Nat) {i : Nat}
    (h : i + count = n) (earlier : Vector Expr i) :
    Vector.toList <$> sequenceVectorAfter ops count h earlier =
      sequenceAfter earlier.toList (ops.toList.drop i) := by
  induction count generalizing i with
  | zero =>
    obtain rfl : i = n := h
    have hdrop : ops.toList.drop i = [] := by simp
    simp [sequenceVectorAfter, sequenceAfter, hdrop]
  | succ count ih =>
    have hlt : i < ops.toList.length := by
      rw [Vector.length_toList]
      omega
    have hdrop : ops.toList.drop i = ops[i] :: ops.toList.drop (i + 1) := by
      rw [List.drop_eq_getElem_cons hlt, Vector.getElem_toList]
    rw [hdrop, sequenceAfter, ← map_step Vector.toList (toList_settleVector earlier), bind_map_left]
    simp only [sequenceVectorAfter, map_bind, ih, Vector.toList_push]

/-- A fixed number of operands is lowered like the list of them. -/
theorem toList_sequenceVector {n : Nat} (ops : Vector (LowerM Expr) n) :
    Vector.toList <$> sequenceVector ops = sequence ops.toList := by
  rw [sequenceVector, toList_sequenceVectorAfter]
  rfl

/-- Settling a head and arguments is settling the list of them. -/
theorem cons_settleArgs (values : Expr × List Expr) :
    (fun p : Expr × List Expr => p.1 :: p.2) <$> settleArgs values =
      (values.1 :: values.2).mapM settle := by
  simp [settleArgs, List.mapM_cons]

/-- The loop over arguments after a head is the loop over a list. -/
theorem cons_argsAfter (earlier : Expr × List Expr) (ops : List (LowerM Expr)) :
    (fun p : Expr × List Expr => p.1 :: p.2) <$> argsAfter earlier ops =
      sequenceAfter (earlier.1 :: earlier.2) ops := by
  induction ops generalizing earlier with
  | nil => simp [argsAfter, sequenceAfter]
  | cons op ops ih =>
    have hstep := map_step (fun p : Expr × List Expr => p.1 :: p.2) (cons_settleArgs earlier) op
    rw [sequenceAfter, ← hstep, bind_map_left]
    simp only [argsAfter, map_bind]
    congr 1
    funext ⟨⟨head, args⟩, value⟩
    exact ih (head, args ++ [value])

/-- Two operands are lowered like the list of them. -/
theorem pair_both (first second : LowerM Expr) :
    (fun p : Expr × Expr => [p.1, p.2]) <$> both first second = sequence [first, second] := by
  have hlist (values : Vector Expr 2) : [values[0], values[1]] = values.toList := by
    obtain ⟨⟨_ | ⟨a, _ | ⟨b, _ | ⟨c, l⟩⟩⟩⟩, hsize⟩ := values
    · simp at hsize
    · simp at hsize
    · rfl
    · simp at hsize
  rw [both, bind_pure_comp, Functor.map_map]
  simp only [hlist]
  exact toList_sequenceVector #v[first, second]

/-- A fixed number of expressions is lowered like the list of them. -/
theorem toList_lowerVector {n : Nat} (ctx : Context) (es : Vector Source.Expr n) :
    Vector.toList <$> lowerVector ctx es = lowerAll ctx es.toList := by
  rw [lowerVector, toList_sequenceVector, Vector.toList_map]
  rfl

end ExprLowering.Lowering
