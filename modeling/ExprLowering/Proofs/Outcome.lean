import ExprLowering.Proofs.Scope

/-!
# How computations end

A computation yields a result or stops with a failure, and in both cases it has only added to the
state. `Ends m fs` says that `m` stops with the first failure in `fs`, from every state, and yields
a result if there is none. What a computation does after another one fails later, so the list of a
sequence is the one list after the other.

## Main definitions

* `Growth.Fresh`: every temporary that was taken is declared at most once.
* `Ends`: how a computation ends.

## Main results

* `Ends.bind`, `Ends.step`: one computation after another, and one operand after others.
* `Ends.both`, `Ends.withArgs`, `Ends.operands`: the loops over operands.
-/

namespace ExprLowering.Lowering

open Target

variable {α β : Type}

-- ════════════════════════════════════════════════════════════════════════
-- Temporaries that are declared at most once
-- ════════════════════════════════════════════════════════════════════════

/-- Only temporaries that were taken are declared, and none of them twice. A failure may have kept
some of them from being declared. -/
structure Growth.Fresh (n : Nat) (g : Growth) : Prop where
  nodup : (declared g.stmts).Nodup
  own : ∀ t ∈ declared g.stmts, n ≤ t ∧ t < n + g.temps

namespace Growth.Fresh

variable {n : Nat} {g g₁ g₂ : Growth}

theorem of_declared_eq_nil (h : declared g.stmts = []) : g.Fresh n := by
  constructor
  · rw [h]
    exact List.nodup_nil
  · simp [h]

theorem of_range' (h : declared g.stmts = List.range' n g.temps) : g.Fresh n := by
  constructor
  · rw [h]
    exact List.nodup_range'
  · intro t ht
    rwa [h, List.mem_range'_1] at ht

theorem append (h₁ : g₁.Fresh n) (h₂ : g₂.Fresh (n + g₁.temps)) : (g₁ ++ g₂).Fresh n := by
  have hlt : ∀ t ∈ declared g₁.stmts, ∀ u ∈ declared g₂.stmts, t ≠ u := by
    intro t ht u hu
    have := (h₁.own t ht).2
    have := (h₂.own u hu).1
    omega
  constructor
  · rw [append_stmts, declared_append]
    exact List.nodup_append.2 ⟨h₁.nodup, h₂.nodup, hlt⟩
  · intro t ht
    rw [append_stmts, declared_append, List.mem_append] at ht
    rw [append_temps]
    rcases ht with ht | ht
    · have := h₁.own t ht
      omega
    · have := h₂.own t ht
      omega

/-- It does not matter which statements come first. -/
theorem swap (h : (g₁ ++ g₂).Fresh n) : (g₂ ++ g₁).Fresh n := by
  have hperm : (declared (g₂ ++ g₁).stmts).Perm (declared (g₁ ++ g₂).stmts) := by
    simp only [append_stmts, declared_append]
    exact List.perm_append_comm
  constructor
  · exact hperm.nodup_iff.2 h.nodup
  · intro t ht
    have := h.own t (hperm.mem_iff.1 ht)
    simp only [append_temps] at this ⊢
    omega

theorem displace (h : g.Fresh n) (earlier : List Expr) :
    ((displaced (n + g.temps) earlier g.stmts).2 ++ g).Fresh n :=
  (h.append (of_range' (declared_displaced ..))).swap

theorem saved (n : Nat) (value : Expr) : (Lowering.saved n value).2.Fresh n := by
  cases h : value.isAtom with
  | true =>
    rw [saved_atom h]
    exact of_declared_eq_nil rfl
  | false =>
    rw [saved_complex h]
    exact of_range' rfl

end Growth.Fresh

-- ════════════════════════════════════════════════════════════════════════
-- Ends of computations
-- ════════════════════════════════════════════════════════════════════════

/-- The failure in an outcome. -/
def failure? : Except Failure α → Option Failure
  | .ok _ => none
  | .error failure => some failure

@[simp] theorem failure?_map (f : α → β) (outcome : Except Failure α) :
    failure? (outcome.map f) = failure? outcome := by
  cases outcome with
  | error failure => rfl
  | ok a => rfl

theorem failure?_eq_none {outcome : Except Failure α} :
    failure? outcome = none ↔ ∃ a, outcome = .ok a := by
  cases outcome with
  | error failure => simp [failure?]
  | ok a => simp [failure?]

theorem failure?_eq_some {outcome : Except Failure α} {failure : Failure} :
    failure? outcome = some failure ↔ outcome = .error failure := by
  cases outcome with
  | error failure => simp [failure?]
  | ok a => simp [failure?]

/-- A computation in a frame of its own ends as it would without, and loses its statements if it
fails. -/
theorem run_inFrame_outcome {op : LowerM Expr} {s : State} {outcome : Except Failure Expr}
    {g : Growth} (h : op.run s.openFrame = (outcome, s.openFrame.grow g)) :
    (inFrame op).run s =
      (outcome.map fun value => ⟨g.stmts, value⟩, s.grow g.withoutStmts) := by
  rw [run_inFrame, h]
  simp [State.openFrame, State.closeFrame, State.grow, Growth.withoutStmts]

/-- A computation in a role ends as it would without and adds the same. -/
theorem run_inRole_outcome {role : Role} {op : LowerM α} {s : State} {outcome : Except Failure α}
    {g : Growth} (h : op.run (s.enter role) = (outcome, (s.enter role).grow g)) :
    (inRole role op).run s = (outcome, s.grow g) := by
  rw [run_inRole, h]
  rfl

/-- From every state the computation stops with the first of the failures, or yields a result if
there is none. In both cases it has only added to the state, and what it added is fresh. -/
def Ends (m : LowerM α) (fs : List Failure) : Prop :=
  ∀ s, ∃ outcome g, m.run s = (outcome, s.grow g) ∧ g.Fresh s.nextTemp ∧
    failure? outcome = fs.head?

namespace Ends

variable {m : LowerM α} {fs gs : List Failure}

theorem fail (failure : Failure) (fs : List Failure) :
    Ends (.fail failure : LowerM α) (failure :: fs) :=
  fun s => ⟨.error failure, ∅, by simp, .of_declared_eq_nil rfl, rfl⟩

/-- A computation that succeeds from every state. -/
theorem adds {value : State → α} {g : State → Growth}
    (hrun : ∀ s, m.run s = (.ok (value s), s.grow (g s))) (hfresh : ∀ s, (g s).Fresh s.nextTemp) :
    Ends m [] :=
  fun s => ⟨_, _, hrun s, hfresh s, rfl⟩

theorem pure (a : α) : Ends (Pure.pure a : LowerM α) [] :=
  fun s => ⟨.ok a, ∅, by simp, .of_declared_eq_nil rfl, rfl⟩

/-- The second computation runs only on results of the first. -/
theorem bind (h : Ends m fs) {f : α → LowerM β}
    (hf : ∀ a, (∃ s t, m.run s = (.ok a, t)) → Ends (f a) gs) : Ends (m >>= f) (fs ++ gs) := by
  intro s
  obtain ⟨outcome, g, hrun, hfresh, hfirst⟩ := h s
  cases outcome with
  | error failure =>
    refine ⟨.error failure, g, LowerM.run_bind_error hrun f, hfresh, ?_⟩
    rw [List.head?_append, ← hfirst]
    rfl
  | ok a =>
    obtain ⟨outcome, g₂, hrun₂, hfresh₂, hsecond⟩ := hf a ⟨s, _, hrun⟩ (s.grow g)
    refine ⟨outcome, g ++ g₂, ?_, hfresh.append hfresh₂, ?_⟩
    · rw [LowerM.run_bind_ok hrun, hrun₂, State.grow_append]
    · rw [hsecond, List.head?_append, ← hfirst]
      rfl

/-- The second computation always succeeds. -/
theorem followedBy (h : Ends m fs) {f : α → LowerM β} (hf : ∀ a, Ends (f a) []) :
    Ends (m >>= f) fs := by
  have hboth := h.bind fun a _ => hf a
  rwa [List.append_nil] at hboth

theorem bind_pure (h : Ends m fs) (f : α → β) : Ends (m >>= fun a => Pure.pure (f a)) fs :=
  h.followedBy fun a => pure (f a)

/-- Only the result is changed by a function applied to it. -/
theorem of_map {f : α → β} (h : Ends (f <$> m) fs) : Ends m fs := by
  intro s
  obtain ⟨outcome, g, hrun, hfresh, hfirst⟩ := h s
  rw [LowerM.run_map] at hrun
  obtain ⟨houtcome, hstate⟩ := Prod.mk.inj hrun
  refine ⟨(m.run s).1, g, Prod.ext rfl hstate, hfresh, ?_⟩
  rw [← hfirst, ← houtcome, failure?_map]

theorem inRole (h : Ends m fs) (role : Role) : Ends (Lowering.inRole role m) fs := by
  intro s
  obtain ⟨outcome, g, hrun, hfresh, hfirst⟩ := h (s.enter role)
  exact ⟨outcome, g, run_inRole_outcome hrun, hfresh, hfirst⟩

theorem inFrame {op : LowerM Expr} (h : Ends op fs) : Ends (Lowering.inFrame op) fs := by
  intro s
  obtain ⟨outcome, g, hrun, -, hfirst⟩ := h s.openFrame
  exact ⟨_, _, run_inFrame_outcome hrun, .of_declared_eq_nil rfl, by rw [failure?_map, hfirst]⟩

end Ends

-- ════════════════════════════════════════════════════════════════════════
-- Loops over operands
-- ════════════════════════════════════════════════════════════════════════

namespace Ends

variable {fs gs : List Failure}

theorem step {op : LowerM Expr} (h : Ends op fs) (earlier : List Expr) :
    Ends (Lowering.step (List.mapM settle) earlier op) fs := by
  intro s
  obtain ⟨outcome, g, hrun, hfresh, hfirst⟩ := h s.openFrame
  cases outcome with
  | ok value => exact ⟨_, _, run_step hrun earlier, hfresh.displace earlier, hfirst⟩
  | error failure =>
    -- The frame of the operand is closed, and what it emitted is lost.
    have hframe : (Lowering.inFrame op).run s = (.error failure, s.grow g.withoutStmts) :=
      run_inFrame_outcome hrun
    exact ⟨_, _, LowerM.run_bind_error hframe _, .of_declared_eq_nil rfl, hfirst⟩

theorem operands {ι : Type} {op : ι → LowerM Expr} {fs : ι → List Failure} {is : List ι}
    (h : ∀ i ∈ is, Ends (op i) (fs i)) (earlier : List Expr) :
    Ends (sequenceAfter earlier (is.map op)) (is.flatMap fs) := by
  induction is generalizing earlier with
  | nil => exact pure earlier
  | cons i is ih =>
    rw [List.map_cons, sequenceAfter, List.flatMap_cons]
    refine ((h i List.mem_cons_self).step earlier).bind ?_
    intro result _
    exact ih (fun j hj => h j (List.mem_cons_of_mem i hj)) _

theorem both {first second : LowerM Expr} (hfirst : Ends first fs) (hsecond : Ends second gs) :
    Ends (Lowering.both first second) (fs ++ gs) := by
  refine of_map (f := fun p : Expr × Expr => [p.1, p.2]) ?_
  rw [pair_both, sequence, sequenceAfter]
  refine (hfirst.step []).bind fun result _ => ?_
  exact (hsecond.step _).bind_pure _

theorem withArgs {ι : Type} {head : LowerM Expr} (hhead : Ends head fs) {op : ι → LowerM Expr}
    {argFails : ι → List Failure} {is : List ι} (h : ∀ i ∈ is, Ends (op i) (argFails i)) :
    Ends (Lowering.withArgs head (is.map op)) (fs ++ is.flatMap argFails) := by
  refine hhead.bind fun value _ => ?_
  refine of_map (f := fun p : Expr × List Expr => p.1 :: p.2) ?_
  rw [cons_argsAfter]
  exact operands h _

end Ends

end ExprLowering.Lowering
