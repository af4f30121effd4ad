import ExprLowering.Proofs.Failures

/-!
# Temporaries over many requests

One state may serve many requests: expressions are lowered one after the other, with the statements
left in the frame or handed out at once, and the frame is emptied from time to time. A request that
fails leaves some of its statements in the frame and loses others. No temporary is declared twice in
all of what is handed out.

## Main definitions

* `Request`, `runRequests`: what can be asked of one state, and the statements handed out.
* `Distinct`: the invariant.

## Main results

* `distinct_step`, `nodup_runRequests`: one request, and many.
* `temporaries_declared_once`: temporaries of one expression and of many requests.
-/

namespace ExprLowering.Target

/-- Statements in scope read only what was declared before them. -/
theorem Scoped.temps_subset {known : List Nat} {before after : List Stmt} {stmt : Stmt}
    (h : Scoped known (before ++ stmt :: after)) : stmt.temps ⊆ declared before ++ known := by
  induction before generalizing known with
  | nil =>
    cases stmt with
    | declare t value => exact h.1
    | assign left op right => exact List.append_subset.2 ⟨h.2.1, h.2.2.1⟩
  | cons first before ih =>
    cases first with
    | assign left op right => exact ih h.2.2.2
    | declare t value =>
      intro u hu
      have hmem := ih h.2.2 hu
      simp only [declared_declare, List.mem_append, List.mem_cons] at hmem ⊢
      rcases hmem with hmem | rfl | hmem
      · exact .inl (.inr hmem)
      · exact .inl (.inl rfl)
      · exact .inr hmem

end ExprLowering.Target

namespace ExprLowering.Lowering

open Target

-- ════════════════════════════════════════════════════════════════════════
-- Requests
-- ════════════════════════════════════════════════════════════════════════

/-- What can be asked of a state. -/
inductive Request where
  /-- An expression is lowered in the present frame. -/
  | lower (e : Source.Expr)
  /-- An expression is lowered in a frame of its own, which is handed out. -/
  | capture (e : Source.Expr)
  /-- A fixed number of expressions is lowered. -/
  | inOrder {n : Nat} (es : Vector Source.Expr n)
  /-- A list of expressions is lowered. -/
  | all (es : List Source.Expr)
  /-- The present frame is handed out and emptied. -/
  | flush

/-- The computation hands out nothing: its statements stay in the frame. -/
def handingOutNothing {α : Type} (m : LowerM α) : LowerM (List Stmt) := (fun _ => []) <$> m

/-- Serves a request and yields the statements that it hands out. -/
def Request.serve (ctx : Context) : Request → LowerM (List Stmt)
  | lower e => handingOutNothing (lowerExpr ctx e)
  | capture e => Framed.stmts <$> lowerInFrame ctx e
  | inOrder es => handingOutNothing (lowerVector ctx es)
  | all es => handingOutNothing (lowerAll ctx es)
  | flush => takeStmts

/-- The statements handed out by requests one after the other. A fault does not end the run, but an
assignment to what cannot be written does. -/
def runRequests (ctx : Context) : List Request → State → List Stmt
  | [], _ => []
  | request :: requests, s =>
    match (request.serve ctx).run s with
    | (.ok stmts, t) => stmts ++ runRequests ctx requests t
    | (.error (.fault _), t) => runRequests ctx requests t
    | (.error .unassignable, _) => []

/-- What was handed out, if anything. -/
def handedOut : Except Failure (List Stmt) → List Stmt
  | .ok stmts => stmts
  | .error _ => []

-- ════════════════════════════════════════════════════════════════════════
-- The invariant
-- ════════════════════════════════════════════════════════════════════════

/-- No temporary is declared twice, and all that are declared were taken. -/
structure Distinct (n : Nat) (stmts : List Stmt) : Prop where
  nodup : (declared stmts).Nodup
  lt : ∀ t ∈ declared stmts, t < n

theorem Distinct.perm {n : Nat} {xs ys : List Stmt} (h : Distinct n xs)
    (hperm : (declared xs).Perm (declared ys)) : Distinct n ys where
  nodup := hperm.nodup_iff.1 h.nodup
  lt t ht := h.lt t (hperm.mem_iff.2 ht)

theorem Distinct.grow {n : Nat} {stmts : List Stmt} {g : Growth} (h : Distinct n stmts)
    (hfresh : g.Fresh n) : Distinct (n + g.temps) (stmts ++ g.stmts) := by
  constructor
  · rw [declared_append]
    refine List.nodup_append.2 ⟨h.nodup, hfresh.nodup, ?_⟩
    intro t ht u hu
    have := h.lt t ht
    have := (hfresh.own u hu).1
    omega
  · intro t ht
    rw [declared_append, List.mem_append] at ht
    rcases ht with ht | ht
    · have := h.lt t ht
      omega
    · exact (hfresh.own t ht).2

/-- A request takes the statements of the frame and fresh ones, hands out some of them and leaves
the others in the frame. -/
def Moves (s : State) (run : Except Failure (List Stmt) × State) : Prop :=
  ∃ g : Growth, g.Fresh s.nextTemp ∧ run.2.nextTemp = s.nextTemp + g.temps ∧
    (declared (s.frame ++ g.stmts)).Perm (declared (handedOut run.1 ++ run.2.frame))

theorem Ends.moves {α : Type} {m : LowerM α} {fs : List Failure} (h : Ends m fs) (s : State) :
    Moves s ((handingOutNothing m).run s) := by
  obtain ⟨outcome, g, hrun, hfresh, -⟩ := h s
  rw [handingOutNothing, LowerM.run_map, hrun]
  refine ⟨g, hfresh, rfl, ?_⟩
  cases outcome with
  | error failure => exact .refl _
  | ok a => exact .refl _

theorem moves_capture (ctx : Context) (e : Source.Expr) (s : State) :
    Moves s ((Framed.stmts <$> lowerInFrame ctx e).run s) := by
  obtain ⟨outcome, g, hrun, hfresh, -⟩ := (ends_lowerNode ctx e).inRole .operand s.openFrame
  have hframe : (lowerInFrame ctx e).run s = _ := run_inFrame_outcome hrun
  rw [LowerM.run_map, hframe]
  cases outcome with
  | error failure =>
    -- The temporaries are taken, but their declarations are lost with the frame.
    exact ⟨g.withoutStmts, .of_declared_eq_nil rfl, rfl, .refl _⟩
  | ok value =>
    refine ⟨g, hfresh, rfl, ?_⟩
    simp only [Except.map, handedOut, State.grow, Growth.withoutStmts, List.append_nil,
      declared_append]
    exact List.perm_append_comm

theorem moves_serve (ctx : Context) (request : Request) (s : State) :
    Moves s ((request.serve ctx).run s) := by
  have hall (es : List Source.Expr) :
      Ends (lowerAll ctx es) (es.flatMap (failures (callForm ctx.facts))) :=
    .operands (fun e _ => ends_lowerExpr ctx e) []
  cases request with
  | lower e => exact (ends_lowerExpr ctx e).moves s
  | capture e => exact moves_capture ctx e s
  | all es => exact (hall es).moves s
  | inOrder es =>
    have hlist := hall es.toList
    rw [← toList_lowerVector] at hlist
    exact hlist.of_map.moves s
  | flush =>
    refine ⟨∅, .of_declared_eq_nil rfl, rfl, ?_⟩
    simp [Request.serve, takeStmts, handedOut, State.takeFrame]

/-- One request keeps the invariant, whatever was handed out before. -/
theorem distinct_step {ctx : Context} {request : Request} {handed : List Stmt} {s t : State}
    {outcome : Except Failure (List Stmt)} (hrun : (request.serve ctx).run s = (outcome, t))
    (h : Distinct s.nextTemp (handed ++ s.frame)) :
    Distinct t.nextTemp (handed ++ handedOut outcome ++ t.frame) := by
  obtain ⟨g, hfresh, hnext, hperm⟩ := moves_serve ctx request s
  rw [hrun] at hnext hperm
  rw [hnext]
  refine (h.grow hfresh).perm ?_
  simp only [List.append_assoc, declared_append] at hperm ⊢
  exact hperm.append_left _

/-- All requests keep the invariant. -/
theorem nodup_runRequests (ctx : Context) (requests : List Request) {handed : List Stmt} {s : State}
    (h : Distinct s.nextTemp (handed ++ s.frame)) :
    (declared (handed ++ runRequests ctx requests s)).Nodup := by
  have hhanded {n : Nat} {xs ys : List Stmt} (h : Distinct n (xs ++ ys)) : (declared xs).Nodup := by
    have hnodup := h.nodup
    rw [declared_append] at hnodup
    exact (List.nodup_append.1 hnodup).1
  -- What a request hands out counts as handed out before for the requests after it.
  induction requests generalizing handed s with
  | nil => simpa [runRequests] using hhanded h
  | cons request requests ih =>
    rw [runRequests]
    rcases hrun : (request.serve ctx).run s with ⟨outcome, t⟩
    have hstep := distinct_step hrun h
    rcases outcome with (fault | _) | stmts
    · simpa [handedOut] using ih hstep
    · simpa [handedOut] using hhanded h
    · simpa [handedOut] using ih hstep

/-- The statements of one expression declare the temporaries below some number, each of them once,
and every temporary is declared before the statement or the value that reads it. Over any requests
one after the other, of which some may fail, no temporary is declared twice in what they hand
out. -/
theorem temporaries_declared_once (ctx : Context) :
    (∀ e out, lowerAlone ctx e = .ok out →
      ∃ k, (declared out.stmts).Perm (List.range k) ∧
        (∀ before stmt after, out.stmts = before ++ stmt :: after →
          stmt.temps ⊆ declared before) ∧
        out.value.temps ⊆ declared out.stmts) ∧
      ∀ requests, (declared (runRequests ctx requests .initial)).Nodup := by
  constructor
  · intro e out hout
    obtain ⟨value, g, hlow, rfl⟩ := lowerAlone_eq_ok_iff.1 hout
    have htidy : Tidy [] 0 [value] g := hlow.tidy Tidy.nil_lt
    refine ⟨g.temps, ?_, ?_, ?_⟩
    · rw [List.range_eq_range']
      exact htidy.declared_perm
    · intro before stmt after hsplit
      have hscoped : Scoped [] (before ++ stmt :: after) := hsplit ▸ htidy.inScope
      simpa using hscoped.temps_subset
    · simpa [Growth.output] using htidy.values_subset
  · intro requests
    have hstart : Distinct State.initial.nextTemp ([] ++ State.initial.frame) :=
      ⟨List.nodup_nil, fun t ht => absurd ht List.not_mem_nil⟩
    exact nodup_runRequests ctx requests hstart

/-- In `a + (a = f())` the temporary that saves `a` is taken last and declared first. After
`o[x = f()] = (y == z)` has failed, the statements of its target are still in the frame; they are
handed out after those of `y = g()`. -/
theorem temporaries_after_failed_request :
    let place (column : Nat) : Span := .point 1 column
    let ctx : Context := ⟨Facts.empty, default⟩
    let set (x f : String) : Source.Expr :=
      .binary (.name x (place 1)) .assign (.call (.name f (place 2)) [] (place 3)) (place 4)
    let sum : Source.Expr :=
      .binary (.name "a" (place 5)) (.calculation (.arithmetic .add)) (set "a" "f") (place 6)
    let failing : Source.Expr :=
      .binary (.element (.name "o" (place 5)) (set "x" "f") false (place 6)) .assign
        (.binary (.name "y" (place 7)) .looseEq (.name "z" (place 8)) (place 9)) (place 10)
    let requests : List Request := [.lower failing, .capture (set "y" "g"), .flush]
    (∃ out, lowerAlone ctx sum = .ok out ∧ declared out.stmts = [1, 0] ∧
      out.value.temps ⊆ declared out.stmts) ∧
    declared (runRequests ctx requests .initial) = [2, 1, 0] ∧
    (declared (runRequests ctx requests .initial)).Nodup := by
  intro place ctx set sum failing requests
  obtain ⟨k, -, -, hvalue⟩ := (temporaries_declared_once ctx).1 sum _ rfl
  exact ⟨⟨_, rfl, rfl, hvalue⟩, rfl, (temporaries_declared_once ctx).2 _⟩

end ExprLowering.Lowering
