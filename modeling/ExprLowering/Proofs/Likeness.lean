import ExprLowering.Proofs.LooseEquality
import ExprLowering.Proofs.Renumber
import Mathlib.Data.List.Forall2

/-!
# Runs that are alike

Two lowerings may start from different states, use different options and read expressions that
differ in details, and still do the same step by step. A `Likeness` says what may be different:
which expressions correspond, how the temporaries of the second run are numbered, which statement
stands for which, and which reports and failures count as the same. If it says nothing wrong about
single steps, then whole runs are alike.

## Main definitions

* `Source.SameNode`: expressions of one form whose parts are related.
* `Likeness`: what may be different between two runs.
* `Likeness.Alike`: two computations do the same, up to what may be different.

## Main results

* `Alike.bind`, `Alike.step`: one computation after another, and one operand after others.
* `Likeness.alike_lowerNode`: the lowerings of corresponding expressions are alike.
-/

namespace ExprLowering.Source

/-- Two expressions of the same form with the same names, operators and spans, whose parts are
related by `R`. Wrappers are of no form. -/
inductive SameNode (R : Expr → Expr → Prop) : Expr → Expr → Prop where
  | name {text span} : SameNode R (.name text span) (.name text span)
  | literal {value span} : SameNode R (.literal value span) (.literal value span)
  | template {head parts₁ parts₂ span} :
      List.Forall₂ (fun p q : Substitution Expr => R p.expr q.expr ∧ p.text = q.text)
        parts₁ parts₂ →
      SameNode R (.template head parts₁ span) (.template head parts₂ span)
  | binary {left₁ left₂ op right₁ right₂ span} : R left₁ left₂ → R right₁ right₂ →
      SameNode R (.binary left₁ op right₁ span) (.binary left₂ op right₂ span)
  | property {object₁ object₂ name nameSpan optional span} : R object₁ object₂ →
      SameNode R (.property object₁ name nameSpan optional span)
        (.property object₂ name nameSpan optional span)
  | element {object₁ object₂ index₁ index₂ optional span} : R object₁ object₂ → R index₁ index₂ →
      SameNode R (.element object₁ index₁ optional span) (.element object₂ index₂ optional span)
  | call {callee₁ callee₂ args₁ args₂ span} : R callee₁ callee₂ → List.Forall₂ R args₁ args₂ →
      SameNode R (.call callee₁ args₁ span) (.call callee₂ args₂ span)
  | delete {operand₁ operand₂ span} : R operand₁ operand₂ →
      SameNode R (.delete operand₁ span) (.delete operand₂ span)

theorem forall₂_imp_mem {α β : Type} {R S : α → β → Prop} {as : List α} {bs : List β}
    (h : List.Forall₂ R as bs) (himp : ∀ a ∈ as, ∀ b ∈ bs, R a b → S a b) :
    List.Forall₂ S as bs := by
  induction h with
  | nil => exact .nil
  | cons hab _ ih =>
    refine .cons (himp _ List.mem_cons_self _ List.mem_cons_self hab) (ih ?_)
    exact fun a ha b hb => himp a (List.mem_cons_of_mem _ ha) b (List.mem_cons_of_mem _ hb)

namespace SameNode

variable {R S : Expr → Expr → Prop} {a b : Expr}

theorem span_eq (h : SameNode R a b) : a.span = b.span := by
  cases h <;> rfl

/-- Only the parts have to be related in another way. -/
theorem imp (h : SameNode R a b) (himp : ∀ x ∈ a.children, ∀ y ∈ b.children, R x y → S x y) :
    SameNode S a b := by
  cases h with
  | name => exact .name
  | literal => exact .literal
  | template hparts =>
    refine .template (forall₂_imp_mem hparts fun p hp q hq hpq => ⟨?_, hpq.2⟩)
    exact himp _ (List.mem_map_of_mem hp) _ (List.mem_map_of_mem hq) hpq.1
  | binary hleft hright =>
    exact .binary (himp _ (by simp [Expr.children]) _ (by simp [Expr.children]) hleft)
      (himp _ (by simp [Expr.children]) _ (by simp [Expr.children]) hright)
  | property hobject => exact .property (himp _ List.mem_cons_self _ List.mem_cons_self hobject)
  | element hobject hindex =>
    exact .element (himp _ (by simp [Expr.children]) _ (by simp [Expr.children]) hobject)
      (himp _ (by simp [Expr.children]) _ (by simp [Expr.children]) hindex)
  | call hcallee hargs =>
    refine .call (himp _ List.mem_cons_self _ List.mem_cons_self hcallee)
      (forall₂_imp_mem hargs fun x hx y hy hxy => ?_)
    exact himp x (List.mem_cons_of_mem _ hx) y (List.mem_cons_of_mem _ hy) hxy
  | delete hoperand => exact .delete (himp _ List.mem_cons_self _ List.mem_cons_self hoperand)

/-- An expression inside all wrappers has the form of itself. -/
theorem unwrap_self (e : Expr) : SameNode Eq e.unwrap e.unwrap := by
  have hwrap := e.isWrapper_unwrap
  generalize e.unwrap = x at hwrap ⊢
  cases x with
  | name => exact .name
  | literal => exact .literal
  | template => exact .template (List.forall₂_same.2 fun _ _ => ⟨rfl, rfl⟩)
  | binary => exact .binary rfl rfl
  | property => exact .property rfl
  | element => exact .element rfl rfl
  | call => exact .call rfl (List.forall₂_same.2 fun _ _ => rfl)
  | delete => exact .delete rfl
  | wrap => cases hwrap

end SameNode

end ExprLowering.Source

namespace ExprLowering.Lowering

open Source (SameNode)
open Target

variable {α β : Type} {fold keep₁ keep₂ : Bool}

/-- The location with all temporaries renumbered by `f`. -/
def Location.renumber (f : Nat → Nat) : Location → Location
  | ⟨base, none⟩ => ⟨base.renumber f, none⟩
  | ⟨base, some (.name text)⟩ => ⟨base.renumber f, some (.name text)⟩
  | ⟨base, some (.index key)⟩ => ⟨base.renumber f, some (.index (key.renumber f))⟩

theorem Location.toExpr_renumber (f : Nat → Nat) (location : Location) :
    (location.renumber f).toExpr = location.toExpr.renumber f := by
  obtain ⟨base, _ | text | key⟩ := location
  · rfl
  · rfl
  · rfl

/-- What is added when earlier values make room depends only on whether there are statements. -/
theorem displaced_map (n : Nat) (earlier : List Expr) (stmts : List Stmt) (f : Stmt → Stmt) :
    displaced n earlier (stmts.map f) = displaced n earlier stmts := by
  cases stmts with
  | nil => rfl
  | cons stmt stmts => rfl

/-- A compound assignment emits one statement if the location is writable. -/
theorem assignResult_eq (options : Options) (op : Source.Calculation) (location : LowerM Location)
    (value : LowerM Expr) :
    assignResult options op location value =
      location >>= fun l => value >>= fun v =>
        (if l.toExpr.isAssignable then emit (compoundStmt options op l.toExpr v)
          else .fail .unassignable) >>= fun _ => pure l.toExpr := by
  rw [assignResult]
  congr
  funext l
  congr
  funext v
  rw [compoundStmt]
  dsimp only
  cases if options.keepCompound then compoundOp? op else none with
  | none => rfl
  | some compound => rfl

/-- An expression on its own, whether it fails or not. -/
theorem lowerAlone_of_run {ctx : Context} {e : Source.Expr} {outcome : Except Failure Expr}
    {g : Growth} (h : (lowerExpr ctx e).run State.initial.openFrame =
      (outcome, State.initial.openFrame.grow g)) : lowerAlone ctx e = outcome.map g.output := by
  rw [lowerAlone, lowerInFrame, run_inFrame_outcome h]
  cases outcome with
  | error failure => rfl
  | ok value => simp [Except.map, State.grow, State.initial, Growth.withoutStmts, Growth.output]

-- ════════════════════════════════════════════════════════════════════════
-- What may be different
-- ════════════════════════════════════════════════════════════════════════

/-- What may be different between two runs. Both fold constants or both do not, and each may keep
compound assignments or not. -/
structure Likeness (fold keep₁ keep₂ : Bool) where
  /-- The expressions that correspond. -/
  source : Source.Expr → Source.Expr → Prop
  /-- The numbers of temporaries in the second run. -/
  temp : Nat → Nat
  /-- The statements of the second run. -/
  stmt : Stmt → Stmt
  /-- The reports that count as the same. -/
  report : Diagnostic → Diagnostic → Prop
  /-- The failures that count as the same. -/
  failure : Failure → Failure → Prop
  -- Lowering looks at the form of an expression inside its wrappers, and then at the parts.
  sameNode : ∀ {a b}, source a b → SameNode source a.unwrap b.unwrap
  gapless : Gapless temp 0
  -- These are the only statements that are emitted.
  declare : ∀ t value, stmt (.declare t value) = (Stmt.declare t value).renumber temp
  set : ∀ left right, stmt (.assign left .set right) = (Stmt.assign left .set right).renumber temp
  compound : ∀ op place value, stmt (compoundStmt ⟨fold, keep₁⟩ op place value) =
    compoundStmt ⟨fold, keep₂⟩ op (place.renumber temp) (value.renumber temp)
  report_self : ∀ d, report d d
  failure_self : ∀ f, failure f f
  -- In these messages an expression is named by its span, wrappers included.
  anyValue : ∀ {a b}, source a b → report ⟨.anyValue, a.span⟩ ⟨.anyValue, b.span⟩
  targetNotAssignable : ∀ {a b}, source a b →
    failure (.fault (.targetNotAssignable a.span)) (.fault (.targetNotAssignable b.span))
  operandNotDeletable : ∀ {a b}, source a b →
    failure (.fault (.operandNotDeletable a.span)) (.fault (.operandNotDeletable b.span))

namespace Likeness

variable (L : Likeness fold keep₁ keep₂)

/-- The second growth has what stands for the first. -/
structure Grown (g₁ g₂ : Growth) : Prop where
  stmts : g₂.stmts = g₁.stmts.map L.stmt
  reports : List.Forall₂ L.report g₁.diagnostics g₂.diagnostics
  temps : g₂.temps = g₁.temps
  logicals : g₂.logicals = g₁.logicals
  chains : g₂.chains = g₁.chains

/-- The runs end in the same way; `r` turns the result of the first into that of the second. -/
inductive SameEnd (r : α → α) : Except Failure α → Except Failure α → Prop where
  | ok (a : α) : SameEnd r (.ok a) (.ok (r a))
  | error {f₁ f₂ : Failure} : L.failure f₁ f₂ → SameEnd r (.error f₁) (.error f₂)

/-- The second value and growth stand for the first. -/
def SameYield (y₁ y₂ : Expr × Growth) : Prop :=
  y₂.1 = y₁.1.renumber L.temp ∧ L.Grown y₁.2 y₂.2

/-- The states agree in what a lowering can see. -/
structure Matched (s₁ s₂ : State) : Prop where
  role : s₁.role? = s₂.role?
  next : s₂.nextTemp = L.temp s₁.nextTemp

/-- From states that agree in what a lowering can see, the computations add the same and end in the
same way, whether they fail or not. -/
def Alike (r : α → α) (m₁ m₂ : LowerM α) : Prop :=
  ∀ s₁ s₂, L.Matched s₁ s₂ → ∃ end₁ end₂ g₁ g₂,
    m₁.run s₁ = (end₁, s₁.grow g₁) ∧ m₂.run s₂ = (end₂, s₂.grow g₂) ∧
      L.SameEnd r end₁ end₂ ∧ L.Grown g₁ g₂

variable {L}

-- ════════════════════════════════════════════════════════════════════════
-- What is added
-- ════════════════════════════════════════════════════════════════════════

namespace Grown

variable {g₁ g₂ h₁ h₂ : Growth}

theorem append (hg : L.Grown g₁ g₂) (hh : L.Grown h₁ h₂) : L.Grown (g₁ ++ h₁) (g₂ ++ h₂) where
  stmts := by simp [hg.stmts, hh.stmts]
  reports := List.rel_append hg.reports hh.reports
  temps := by simp [hg.temps, hh.temps]
  logicals := by simp [hg.logicals, hh.logicals]
  chains := by simp [hg.chains, hh.chains]

theorem withoutStmts (h : L.Grown g₁ g₂) : L.Grown g₁.withoutStmts g₂.withoutStmts :=
  ⟨rfl, h.reports, h.temps, h.logicals, h.chains⟩

/-- The statements are only renumbered. -/
theorem renumber {g : Growth} (h : ∀ stmt ∈ g.stmts, L.stmt stmt = stmt.renumber L.temp) :
    L.Grown g (g.renumber L.temp) where
  stmts := (List.map_congr_left h).symm
  reports := List.forall₂_same.2 fun d _ => L.report_self d
  temps := rfl
  logicals := rfl
  chains := rfl

/-- Nothing is emitted. -/
theorem silent {g : Growth} (h : g.stmts = []) : L.Grown g g := by
  have hsame : g.renumber L.temp = g := Growth.ext (by simp [h]) rfl rfl rfl rfl
  have hgrown : L.Grown g (g.renumber L.temp) := renumber (by simp [h])
  rwa [hsame] at hgrown

theorem ofDiagnostic {problem : Problem} {span₁ span₂ : Span}
    (h : L.report ⟨problem, span₁⟩ ⟨problem, span₂⟩) :
    L.Grown (.ofDiagnostic problem span₁) (.ofDiagnostic problem span₂) :=
  ⟨rfl, .cons h .nil, rfl, rfl, rfl⟩

theorem ofStmt (stmt : Stmt) : L.Grown (.ofStmts [stmt]) (.ofStmts [L.stmt stmt]) :=
  ⟨rfl, .nil, rfl, rfl, rfl⟩

theorem saved (n : Nat) (value : Expr) :
    L.Grown (saved n value).2 ((saved n value).2.renumber L.temp) := by
  refine renumber ?_
  rw [Lowering.saved]
  split
  · simp
  · exact List.forall_mem_singleton.2 (L.declare _ _)

theorem settleAll (n : Nat) (values : List Expr) :
    L.Grown (settleAll n values).2 ((settleAll n values).2.renumber L.temp) := by
  refine renumber ?_
  induction values generalizing n with
  | nil => simp
  | cons value values ih =>
    cases h : value.isSettled with
    | true =>
      rw [settleAll_cons_settled h]
      exact ih n
    | false =>
      rw [settleAll_cons_unsettled h]
      exact List.forall_mem_cons.2 ⟨L.declare _ _, ih (n + 1)⟩

theorem memberRead (role : Option Role) (member : Expr) :
    L.Grown (memberRead role member).2 ((memberRead role member).2.renumber L.temp) := by
  refine renumber ?_
  rw [Lowering.memberRead]
  split
  · exact List.forall_mem_singleton.2 (L.set _ _)
  · simp

end Grown

theorem displaced_alike (n : Nat) (earlier : List Expr) {stmts₁ stmts₂ : List Stmt}
    (h : stmts₂ = stmts₁.map L.stmt) :
    (displaced (L.temp n) (earlier.map (Expr.renumber L.temp)) stmts₂).1 =
        (displaced n earlier stmts₁).1.map (Expr.renumber L.temp) ∧
      L.Grown (displaced n earlier stmts₁).2
        (displaced (L.temp n) (earlier.map (Expr.renumber L.temp)) stmts₂).2 := by
  rw [h, displaced_map]
  cases stmts₁ with
  | nil => exact ⟨rfl, .silent rfl⟩
  | cons stmt stmts =>
    rw [displaced_cons, displaced_cons, settleAll_renumber L.gapless (Nat.zero_le n)]
    exact ⟨rfl, .settleAll n earlier⟩

-- ════════════════════════════════════════════════════════════════════════
-- Rules for computations
-- ════════════════════════════════════════════════════════════════════════

namespace Matched

variable {s₁ s₂ : State}

theorem next_add (h : L.Matched s₁ s₂) {g₁ g₂ : Growth} (hg : L.Grown g₁ g₂) :
    s₂.nextTemp + g₂.temps = L.temp (s₁.nextTemp + g₁.temps) := by
  rw [h.next, hg.temps, L.gapless.add (Nat.zero_le _)]

theorem grow (h : L.Matched s₁ s₂) {g₁ g₂ : Growth} (hg : L.Grown g₁ g₂) :
    L.Matched (s₁.grow g₁) (s₂.grow g₂) :=
  ⟨h.role, h.next_add hg⟩

theorem openFrame (h : L.Matched s₁ s₂) : L.Matched s₁.openFrame s₂.openFrame := ⟨h.role, h.next⟩

theorem enter (h : L.Matched s₁ s₂) (role : Role) : L.Matched (s₁.enter role) (s₂.enter role) := by
  refine ⟨?_, h.next⟩
  by_cases hrole : role = .wrapped
  · subst hrole
    exact h.role
  · rw [State.role?_enter hrole, State.role?_enter hrole]

end Matched

theorem SameEnd.eq_of_ok {r : α → α} {a b : α} (h : L.SameEnd r (.ok a) (.ok b)) : b = r a := by
  cases h
  rfl

theorem SameEnd.of_map {r : α → α} {q : β → β} {f : α → β} (hf : Function.Injective f)
    (hr : ∀ a, q (f a) = f (r a)) {end₁ end₂ : Except Failure α}
    (h : L.SameEnd q (end₁.map f) (end₂.map f)) : L.SameEnd r end₁ end₂ := by
  cases end₁ with
  | error f₁ =>
    cases end₂ with
    | error f₂ =>
      cases h with
      | error hfailure => exact .error hfailure
    | ok b => cases h
  | ok a =>
    cases end₂ with
    | error f₂ => cases h
    | ok b =>
      obtain rfl : b = r a := hf (h.eq_of_ok.trans (hr a))
      exact .ok a

namespace Alike

variable {r : α → α} {q : β → β} {m₁ m₂ : LowerM α}

theorem fail {f₁ f₂ : Failure} (h : L.failure f₁ f₂) :
    L.Alike r (.fail f₁ : LowerM α) (.fail f₂) :=
  fun s₁ s₂ _ => ⟨_, _, ∅, ∅, by simp, by simp, .error h, .silent rfl⟩

/-- Computations that succeed from every state. -/
theorem adds {a₁ a₂ : State → α} {g₁ g₂ : State → Growth}
    (hrun₁ : ∀ s, m₁.run s = (.ok (a₁ s), s.grow (g₁ s)))
    (hrun₂ : ∀ s, m₂.run s = (.ok (a₂ s), s.grow (g₂ s)))
    (h : ∀ s₁ s₂, L.Matched s₁ s₂ → a₂ s₂ = r (a₁ s₁) ∧ L.Grown (g₁ s₁) (g₂ s₂)) :
    L.Alike r m₁ m₂ := by
  intro s₁ s₂ hmatched
  obtain ⟨hvalue, hgrown⟩ := h s₁ s₂ hmatched
  refine ⟨_, _, _, _, hrun₁ s₁, hrun₂ s₂, ?_, hgrown⟩
  rw [hvalue]
  exact .ok _

theorem pure {a₁ a₂ : α} (h : a₂ = r a₁) : L.Alike r (Pure.pure a₁) (Pure.pure a₂) := by
  have hrun (a : α) (s : State) : (Pure.pure a : LowerM α).run s = (.ok a, s.grow ∅) := by simp
  exact adds (hrun a₁) (hrun a₂) fun _ _ _ => ⟨h, .silent rfl⟩

theorem bind (h : L.Alike r m₁ m₂) {f₁ f₂ : α → LowerM β}
    (hf : ∀ a, L.Alike q (f₁ a) (f₂ (r a))) : L.Alike q (m₁ >>= f₁) (m₂ >>= f₂) := by
  intro s₁ s₂ hmatched
  obtain ⟨_, _, g₁, g₂, hrun₁, hrun₂, hend, hgrown⟩ := h s₁ s₂ hmatched
  cases hend with
  | error hfailure =>
    exact ⟨_, _, g₁, g₂, LowerM.run_bind_error hrun₁ f₁, LowerM.run_bind_error hrun₂ f₂,
      .error hfailure, hgrown⟩
  | ok a =>
    obtain ⟨_, _, h₁, h₂, hthen₁, hthen₂, hend, hmore⟩ := hf a _ _ (hmatched.grow hgrown)
    refine ⟨_, _, g₁ ++ h₁, g₂ ++ h₂, ?_, ?_, hend, hgrown.append hmore⟩
    · rw [LowerM.run_bind_ok hrun₁, hthen₁, State.grow_append]
    · rw [LowerM.run_bind_ok hrun₂, hthen₂, State.grow_append]

/-- It is enough to see the results through a function that tells them apart. -/
theorem of_map {f : α → β} (hf : Function.Injective f) (hr : ∀ a, q (f a) = f (r a))
    (h : L.Alike q (f <$> m₁) (f <$> m₂)) : L.Alike r m₁ m₂ := by
  intro s₁ s₂ hmatched
  obtain ⟨end₁, end₂, g₁, g₂, hrun₁, hrun₂, hend, hgrown⟩ := h s₁ s₂ hmatched
  rw [LowerM.run_map] at hrun₁ hrun₂
  obtain ⟨hend₁, hstate₁⟩ := Prod.mk.inj hrun₁
  obtain ⟨hend₂, hstate₂⟩ := Prod.mk.inj hrun₂
  rw [← hend₁, ← hend₂] at hend
  exact ⟨_, _, g₁, g₂, Prod.ext rfl hstate₁, Prod.ext rfl hstate₂, hend.of_map hf hr, hgrown⟩

theorem inRole (h : L.Alike r m₁ m₂) (role : Role) :
    L.Alike r (Lowering.inRole role m₁) (Lowering.inRole role m₂) := by
  intro s₁ s₂ hmatched
  obtain ⟨_, _, g₁, g₂, hrun₁, hrun₂, hend, hgrown⟩ := h _ _ (hmatched.enter role)
  exact ⟨_, _, g₁, g₂, run_inRole_outcome hrun₁, run_inRole_outcome hrun₂, hend, hgrown⟩

/-- A wrapper passes its own role on. -/
theorem wrappedLeft (h : L.Alike r m₁ m₂) : L.Alike r (Lowering.inRole .wrapped m₁) m₂ := by
  intro s₁ s₂ hmatched
  obtain ⟨_, _, g₁, g₂, hrun₁, hrun₂, hend, hgrown⟩ :=
    h (s₁.enter .wrapped) s₂ ⟨hmatched.role, hmatched.next⟩
  exact ⟨_, _, g₁, g₂, run_inRole_outcome hrun₁, hrun₂, hend, hgrown⟩

theorem wrappedRight (h : L.Alike r m₁ m₂) : L.Alike r m₁ (Lowering.inRole .wrapped m₂) := by
  intro s₁ s₂ hmatched
  obtain ⟨_, _, g₁, g₂, hrun₁, hrun₂, hend, hgrown⟩ :=
    h s₁ (s₂.enter .wrapped) ⟨hmatched.role, hmatched.next⟩
  exact ⟨_, _, g₁, g₂, hrun₁, run_inRole_outcome hrun₂, hend, hgrown⟩

/-- Wrappers change nothing. -/
theorem of_unwrap {q : Expr → Expr} {ctx₁ ctx₂ : Context} {a b : Source.Expr}
    (h : L.Alike q (lowerNode ctx₁ a.unwrap) (lowerNode ctx₂ b.unwrap)) :
    L.Alike q (lowerNode ctx₁ a) (lowerNode ctx₂ b) := by
  have hleft : L.Alike q (lowerNode ctx₁ a) (lowerNode ctx₂ b.unwrap) := by
    fun_induction Source.Expr.unwrap a with
    | case1 wrapper inner span ih =>
      rw [lowerNode]
      exact (ih h).wrappedLeft
    | case2 a _ => exact h
  clear h
  fun_induction Source.Expr.unwrap b with
  | case1 wrapper inner span ih =>
    rw [lowerNode]
    exact (ih hleft).wrappedRight
  | case2 b _ => exact hleft

-- ════════════════════════════════════════════════════════════════════════
-- Loops over operands
-- ════════════════════════════════════════════════════════════════════════

theorem step {op₁ op₂ : LowerM Expr} (h : L.Alike (Expr.renumber L.temp) op₁ op₂)
    (earlier : List Expr) :
    L.Alike (Prod.map (List.map (Expr.renumber L.temp)) (Expr.renumber L.temp))
      (Lowering.step (List.mapM settle) earlier op₁)
      (Lowering.step (List.mapM settle) (earlier.map (Expr.renumber L.temp)) op₂) := by
  intro s₁ s₂ hmatched
  obtain ⟨_, _, g₁, g₂, hrun₁, hrun₂, hend, hgrown⟩ := h _ _ hmatched.openFrame
  cases hend with
  | error hfailure =>
    -- The frame of the operand is closed, and what it emitted is lost.
    have hframe₁ := run_inFrame_outcome hrun₁
    have hframe₂ := run_inFrame_outcome hrun₂
    exact ⟨_, _, _, _, LowerM.run_bind_error hframe₁ _, LowerM.run_bind_error hframe₂ _,
      .error hfailure, hgrown.withoutStmts⟩
  | ok value =>
    have hstep₁ := run_step hrun₁ earlier
    have hstep₂ := run_step hrun₂ (earlier.map (Expr.renumber L.temp))
    obtain ⟨hvalues, hmoved⟩ := displaced_alike (s₁.nextTemp + g₁.temps) earlier hgrown.stmts
    rw [hmatched.next_add hgrown] at hstep₂
    refine ⟨_, _, _, _, hstep₁, hstep₂, ?_, hmoved.append hgrown⟩
    rw [hvalues]
    exact .ok _

theorem operands {ops₁ ops₂ : List (LowerM Expr)}
    (h : List.Forall₂ (L.Alike (Expr.renumber L.temp)) ops₁ ops₂) (earlier : List Expr) :
    L.Alike (List.map (Expr.renumber L.temp)) (sequenceAfter earlier ops₁)
      (sequenceAfter (earlier.map (Expr.renumber L.temp)) ops₂) := by
  induction h generalizing earlier with
  | nil => exact pure rfl
  | cons hop _ ih =>
    rw [sequenceAfter, sequenceAfter]
    refine (hop.step earlier).bind fun result => ?_
    have hrest := ih (result.1 ++ [result.2])
    rwa [List.map_append] at hrest

theorem both {first₁ first₂ second₁ second₂ : LowerM Expr}
    (hfirst : L.Alike (Expr.renumber L.temp) first₁ first₂)
    (hsecond : L.Alike (Expr.renumber L.temp) second₁ second₂) :
    L.Alike (Prod.map (Expr.renumber L.temp) (Expr.renumber L.temp))
      (Lowering.both first₁ second₁) (Lowering.both first₂ second₂) := by
  have hinjective : Function.Injective fun p : Expr × Expr => [p.1, p.2] := by
    intro p q hpq
    simpa [Prod.ext_iff] using hpq
  refine of_map (q := List.map (Expr.renumber L.temp)) hinjective (fun _ => rfl) ?_
  rw [pair_both, pair_both]
  exact operands (.cons hfirst (.cons hsecond .nil)) []

theorem withArgs {head₁ head₂ : LowerM Expr} {args₁ args₂ : List (LowerM Expr)}
    (hhead : L.Alike (Expr.renumber L.temp) head₁ head₂)
    (hargs : List.Forall₂ (L.Alike (Expr.renumber L.temp)) args₁ args₂) :
    L.Alike (Prod.map (Expr.renumber L.temp) (List.map (Expr.renumber L.temp)))
      (Lowering.withArgs head₁ args₁) (Lowering.withArgs head₂ args₂) := by
  have hinjective : Function.Injective fun p : Expr × List Expr => p.1 :: p.2 := by
    intro p q hpq
    simpa [Prod.ext_iff] using hpq
  refine hhead.bind fun value => ?_
  refine of_map (q := List.map (Expr.renumber L.temp)) hinjective (fun _ => rfl) ?_
  rw [cons_argsAfter, cons_argsAfter]
  exact operands hargs [value]

-- ════════════════════════════════════════════════════════════════════════
-- Elementary computations
-- ════════════════════════════════════════════════════════════════════════

theorem hoistUnlessAtom (value : Expr) :
    L.Alike (Expr.renumber L.temp) (hoistUnlessAtom value)
      (hoistUnlessAtom (value.renumber L.temp)) := by
  refine adds (run_hoistUnlessAtom _) (run_hoistUnlessAtom _) fun s₁ s₂ hmatched => ?_
  rw [hmatched.next, saved_renumber]
  exact ⟨rfl, .saved ..⟩

theorem hoist (value : Expr) :
    L.Alike (Expr.renumber L.temp) (hoist value) (hoist (value.renumber L.temp)) := by
  refine adds (run_hoist_grow _) (run_hoist_grow _) fun s₁ s₂ hmatched => ?_
  rw [hmatched.next]
  exact ⟨rfl, .renumber (List.forall_mem_singleton.2 (L.declare _ _))⟩

theorem refuse {problem : Problem} {span₁ span₂ : Span}
    (h : L.report ⟨problem, span₁⟩ ⟨problem, span₂⟩) :
    L.Alike (Expr.renumber L.temp) (refuse problem span₁) (refuse problem span₂) :=
  adds (run_refuse _ _) (run_refuse _ _) fun _ _ _ => ⟨rfl, .ofDiagnostic h⟩

/-- A statement that is emitted if its left side is writable. -/
theorem emitIf (writable : Bool) {stmt₁ stmt₂ : Stmt} (h : stmt₂ = L.stmt stmt₁) :
    L.Alike id (if writable then emit stmt₁ else .fail .unassignable)
      (if writable then emit stmt₂ else .fail .unassignable) := by
  subst h
  cases writable with
  | true => exact adds (run_emitAll _) (run_emitAll _) fun _ _ _ => ⟨rfl, .ofStmt stmt₁⟩
  | false => exact fail (L.failure_self _)

theorem assign (left right : Expr) :
    L.Alike id (assign left .set right)
      (assign (left.renumber L.temp) .set (right.renumber L.temp)) := by
  rw [Lowering.assign, Lowering.assign, Expr.isAssignable_renumber]
  exact emitIf _ (L.set left right).symm

theorem applyExpander (expander : Expander) (object : Expr) (args : List Expr) :
    L.Alike (Expr.renumber L.temp) (applyExpander expander object args)
      (applyExpander expander (object.renumber L.temp) (args.map (Expr.renumber L.temp))) := by
  cases expander with
  | unit => exact pure rfl
  | length => exact pure rfl
  | push =>
    refine (hoistUnlessAtom object).bind fun saved => pure ?_
    simp only [Expr.renumber, renumberAll, renumberAll_eq_map]
  | fail => exact fail (L.failure_self _)
  | effect =>
    refine (hoist object).bind fun saved => ?_
    refine (assign (.name "effect") saved).bind fun _ => ?_
    have hreport : L.Alike id (diagnose .prototype (.point 8 8))
        (diagnose .prototype (.point 8 8)) :=
      adds (run_diagnose _ _) (run_diagnose _ _) fun _ _ _ =>
        ⟨rfl, .ofDiagnostic (L.report_self _)⟩
    refine hreport.bind fun _ => pure ?_
    simp only [Expr.renumber, renumberAll_eq_map]

end Alike

-- ════════════════════════════════════════════════════════════════════════
-- Member accesses
-- ════════════════════════════════════════════════════════════════════════

theorem typeOf_eq {a b : Source.Expr} (h : L.source a b) (facts : Facts) :
    facts.typeOf a = facts.typeOf b := by
  rw [Facts.typeOf, Facts.typeOf, (L.sameNode h).span_eq]

theorem SameYield.memberRead (role : Option Role) (member : Expr) :
    L.SameYield (memberRead role member) (memberRead role (member.renumber L.temp)) := by
  rw [memberRead_renumber]
  exact ⟨rfl, .memberRead ..⟩

theorem SameYield.constantOrMember (facts : Facts) (role : Option Role) (span : Span)
    (member : Expr) :
    L.SameYield (constantOrMember ⟨facts, ⟨fold, keep₁⟩⟩ role span member)
      (constantOrMember ⟨facts, ⟨fold, keep₂⟩⟩ role span (member.renumber L.temp)) := by
  have hfolded : foldedConstant? ⟨facts, ⟨fold, keep₂⟩⟩ span =
      foldedConstant? ⟨facts, ⟨fold, keep₁⟩⟩ span := rfl
  rw [Lowering.constantOrMember, Lowering.constantOrMember, hfolded]
  cases foldedConstant? ⟨facts, ⟨fold, keep₁⟩⟩ span with
  | some constant => exact ⟨(constantValue_renumber ..).symm, .silent rfl⟩
  | none => exact .memberRead role member

theorem SameYield.propertyRead {object₁ object₂ : Source.Expr} (h : L.source object₁ object₂)
    (facts : Facts) (role : Option Role) (name : String) (nameSpan span : Span) (value : Expr) :
    L.SameYield (propertyRead ⟨facts, ⟨fold, keep₁⟩⟩ role object₁ name nameSpan span value)
      (propertyRead ⟨facts, ⟨fold, keep₂⟩⟩ role object₂ name nameSpan span
        (value.renumber L.temp)) := by
  rw [Lowering.propertyRead, Lowering.propertyRead, typeOf_eq h, Expr.toIndexable_renumber]
  split
  · exact ⟨rfl, .ofDiagnostic (L.anyValue h)⟩
  split
  · exact ⟨rfl, .silent rfl⟩
  split
  · exact ⟨rfl, .silent rfl⟩
  · have hmember : L.SameYield _ _ :=
      .constantOrMember facts role span (.property value.toIndexable name)
    exact ⟨hmember.1, (Grown.silent (nameNote_stmts ..)).append hmember.2⟩

theorem SameYield.elementRead {object₁ object₂ : Source.Expr} (h : L.source object₁ object₂)
    (facts : Facts) (role : Option Role) (value index : Expr) :
    L.SameYield (elementRead ⟨facts, ⟨fold, keep₁⟩⟩ role object₁ value index)
      (elementRead ⟨facts, ⟨fold, keep₂⟩⟩ role object₂ (value.renumber L.temp)
        (index.renumber L.temp)) := by
  rw [Lowering.elementRead, Lowering.elementRead, typeOf_eq h, Expr.toIndexable_renumber]
  split
  · exact ⟨rfl, .ofDiagnostic (L.anyValue h)⟩
  · exact .memberRead role (.index value.toIndexable index)

theorem Alike.readProperty {object₁ object₂ : Source.Expr} (h : L.source object₁ object₂)
    (facts : Facts) (name : String) (nameSpan span : Span) (value : Expr) :
    L.Alike (Expr.renumber L.temp)
      (readProperty ⟨facts, ⟨fold, keep₁⟩⟩ object₁ name nameSpan span value)
      (readProperty ⟨facts, ⟨fold, keep₂⟩⟩ object₂ name nameSpan span (value.renumber L.temp)) := by
  refine adds (run_readProperty _ _ _ _ _ _) (run_readProperty _ _ _ _ _ _) ?_
  intro s₁ s₂ hmatched
  rw [hmatched.role]
  exact SameYield.propertyRead h facts _ name nameSpan span value

theorem Alike.readElement {object₁ object₂ : Source.Expr} (h : L.source object₁ object₂)
    (facts : Facts) (value index : Expr) :
    L.Alike (Expr.renumber L.temp) (readElement ⟨facts, ⟨fold, keep₁⟩⟩ object₁ value index)
      (readElement ⟨facts, ⟨fold, keep₂⟩⟩ object₂ (value.renumber L.temp)
        (index.renumber L.temp)) := by
  refine adds (run_readElement _ _ _ _) (run_readElement _ _ _ _) ?_
  intro s₁ s₂ hmatched
  rw [hmatched.role]
  exact SameYield.elementRead h facts _ value index

theorem Alike.logical {left₁ left₂ right₁ right₂ : LowerM Expr}
    (hleft : L.Alike (Expr.renumber L.temp) left₁ left₂)
    (hright : L.Alike (Expr.renumber L.temp) right₁ right₂) :
    L.Alike (Expr.renumber L.temp) (logical left₁ right₁) (logical left₂ right₂) := by
  have hcount : L.Alike id countLogical countLogical :=
    adds run_countLogical run_countLogical fun _ _ _ => ⟨rfl, .silent rfl⟩
  exact hcount.bind fun _ => (hleft.both hright).bind fun _ => pure rfl

theorem Alike.countChain : L.Alike id countChain countChain :=
  adds run_countChain run_countChain fun _ _ _ => ⟨rfl, .silent rfl⟩

theorem Alike.chainProperty {object₁ object₂ : Source.Expr} (h : L.source object₁ object₂)
    (facts : Facts) (name : String) (nameSpan span : Span) {value₁ value₂ : LowerM Expr}
    (hvalue : L.Alike (Expr.renumber L.temp) value₁ value₂) :
    L.Alike (Expr.renumber L.temp)
      (chainProperty ⟨facts, ⟨fold, keep₁⟩⟩ object₁ name nameSpan span value₁)
      (chainProperty ⟨facts, ⟨fold, keep₂⟩⟩ object₂ name nameSpan span value₂) := by
  refine countChain.bind fun _ => hvalue.bind fun value => ?_
  exact (hoistUnlessAtom value).bind fun saved => readProperty h facts name nameSpan span saved

theorem Alike.chainElement {object₁ object₂ : Source.Expr} (h : L.source object₁ object₂)
    (facts : Facts) {value₁ value₂ index₁ index₂ : LowerM Expr}
    (hvalue : L.Alike (Expr.renumber L.temp) value₁ value₂)
    (hindex : L.Alike (Expr.renumber L.temp) index₁ index₂) :
    L.Alike (Expr.renumber L.temp) (chainElement ⟨facts, ⟨fold, keep₁⟩⟩ object₁ value₁ index₁)
      (chainElement ⟨facts, ⟨fold, keep₂⟩⟩ object₂ value₂ index₂) := by
  refine countChain.bind fun _ => (hvalue.both hindex).bind fun values => ?_
  exact readElement h facts values.1 values.2

theorem templateValue_alike {parts₁ parts₂ : List (Source.Substitution Source.Expr)}
    (h : List.Forall₂ (fun p q => L.source p.expr q.expr ∧ p.text = q.text) parts₁ parts₂)
    (facts : Facts) (head : String) (values : List Expr) :
    templateValue facts head parts₂ (values.map (Expr.renumber L.temp)) =
      (templateValue facts head parts₁ values).renumber L.temp := by
  have hparts : ∀ values, partSegments facts parts₂ values = partSegments facts parts₁ values := by
    induction h with
    | nil => exact fun _ => rfl
    | cons hpart _ ih =>
      intro values
      cases values with
      | nil => rfl
      | cons value values =>
        rw [partSegments, partSegments, valueSegment, valueSegment, typeOf_eq hpart.1, hpart.2, ih]
  rw [templateValue_renumber, templateValue, templateValue, hparts]

-- ════════════════════════════════════════════════════════════════════════
-- Assignments and calls
-- ════════════════════════════════════════════════════════════════════════

theorem Alike.propertyLocation {object₁ object₂ : LowerM Expr}
    (h : L.Alike (Expr.renumber L.temp) object₁ object₂) (name : String) :
    L.Alike (Location.renumber L.temp) (propertyLocation object₁ name)
      (propertyLocation object₂ name) := by
  refine h.bind fun value => (hoistUnlessAtom value).bind fun base => pure ?_
  rw [Location.renumber, Expr.toIndexable_renumber]

theorem Alike.elementLocation {object₁ object₂ index₁ index₂ : LowerM Expr}
    (hobject : L.Alike (Expr.renumber L.temp) object₁ object₂)
    (hindex : L.Alike (Expr.renumber L.temp) index₁ index₂) :
    L.Alike (Location.renumber L.temp) (elementLocation object₁ index₁)
      (elementLocation object₂ index₂) := by
  refine (hobject.both hindex).bind fun values => ?_
  refine (hoistUnlessAtom values.1).bind fun base => ?_
  refine (hoistUnlessAtom values.2).bind fun key => pure ?_
  rw [Location.renumber, Expr.toIndexable_renumber]

theorem Alike.assignValue {location₁ location₂ : LowerM Location} {value₁ value₂ : LowerM Expr}
    (hlocation : L.Alike (Location.renumber L.temp) location₁ location₂)
    (hvalue : L.Alike (Expr.renumber L.temp) value₁ value₂) :
    L.Alike (Expr.renumber L.temp) (assignValue location₁ value₁)
      (assignValue location₂ value₂) := by
  refine hlocation.bind fun location => hvalue.bind fun value => ?_
  refine (hoistUnlessAtom value).bind fun saved => ?_
  rw [Location.toExpr_renumber]
  exact (assign location.toExpr saved).bind fun _ => pure rfl

theorem Alike.assignResult {location₁ location₂ : LowerM Location} {value₁ value₂ : LowerM Expr}
    (hlocation : L.Alike (Location.renumber L.temp) location₁ location₂)
    (hvalue : L.Alike (Expr.renumber L.temp) value₁ value₂) (op : Source.Calculation) :
    L.Alike (Expr.renumber L.temp) (assignResult ⟨fold, keep₁⟩ op location₁ value₁)
      (assignResult ⟨fold, keep₂⟩ op location₂ value₂) := by
  rw [assignResult_eq, assignResult_eq]
  refine hlocation.bind fun location => hvalue.bind fun value => ?_
  rw [Location.toExpr_renumber, Expr.isAssignable_renumber]
  exact (emitIf _ (L.compound op location.toExpr value).symm).bind fun _ => pure rfl

theorem Alike.call {form : CallForm} {receiver₁ receiver₂ callee₁ callee₂ : LowerM Expr}
    {args₁ args₂ : List (LowerM Expr)}
    (hreceiver : form ≠ .plain → L.Alike (Expr.renumber L.temp) receiver₁ receiver₂)
    (hcallee : L.Alike (Expr.renumber L.temp) callee₁ callee₂)
    (hargs : List.Forall₂ (L.Alike (Expr.renumber L.temp)) args₁ args₂) :
    L.Alike (Expr.renumber L.temp) (call form receiver₁ callee₁ args₁)
      (call form receiver₂ callee₂ args₂) := by
  cases form with
  | refused object => exact refuse (L.report_self _)
  | expanded expander =>
    exact ((hreceiver (by simp)).withArgs hargs).bind fun values =>
      applyExpander expander values.1 values.2
  | method name =>
    refine ((hreceiver (by simp)).withArgs hargs).bind fun values => pure ?_
    simp only [Expr.renumber, renumberAll_eq_map, ← Expr.toIndexable_renumber]
  | plain =>
    refine (hcallee.withArgs hargs).bind fun values => pure ?_
    simp only [Expr.renumber, renumberAll_eq_map, ← Expr.toIndexable_renumber]

/-- Calls of corresponding callees are lowered in the same way, or both are refused. -/
theorem callForm_alike {callee₁ callee₂ : Source.Expr} (h : L.source callee₁ callee₂)
    (facts : Facts) :
    callForm facts callee₁ = callForm facts callee₂ ∨
      ∃ object₁ object₂, L.source object₁ object₂ ∧
        callForm facts callee₁ = .refused object₁.span ∧
        callForm facts callee₂ = .refused object₂.span := by
  have hnode := L.sameNode h
  rw [callForm, callForm]
  generalize callee₁.unwrap = x, callee₂.unwrap = y at hnode ⊢
  cases hnode with
  | @property object₁ object₂ name nameSpan optional span hobject =>
    cases optional with
    | true => exact .inl rfl
    | false =>
      dsimp only
      rw [typeOf_eq hobject]
      split
      · exact .inr ⟨object₁, object₂, hobject, rfl, rfl⟩
      · exact .inl rfl
  | name | literal | template | binary | element | call | delete => exact .inl rfl

theorem isDeletable_alike {a b : Source.Expr} (h : L.source a b) :
    isDeletable a = isDeletable b := by
  have hnode := L.sameNode h
  rw [isDeletable, isDeletable]
  generalize a.unwrap = x, b.unwrap = y at hnode ⊢
  cases hnode <;> rfl

-- ════════════════════════════════════════════════════════════════════════
-- Expressions
-- ════════════════════════════════════════════════════════════════════════

/-- The lowerings of corresponding expressions are alike, as long as these are smaller than `n`. -/
def Covers (L : Likeness fold keep₁ keep₂) (facts : Facts) (n : Nat) : Prop :=
  ∀ x y, L.source x y ∧ sizeOf x < n →
    L.Alike (Expr.renumber L.temp) (lowerNode ⟨facts, ⟨fold, keep₁⟩⟩ x)
      (lowerNode ⟨facts, ⟨fold, keep₂⟩⟩ y)

theorem sameNode_sized {a b : Source.Expr} {n : Nat} (h : L.source a b) (hn : sizeOf a ≤ n) :
    SameNode (fun x y => L.source x y ∧ sizeOf x < n) a.unwrap b.unwrap := by
  refine (L.sameNode h).imp fun x hx y _ hxy => ⟨hxy, ?_⟩
  have hchild := Source.Expr.sizeOf_lt_of_mem_children hx
  have hunwrap := sizeOf_unwrap_le a
  omega

namespace Covers

variable {facts : Facts} {n : Nat} {a b : Source.Expr}

theorem operand (hall : L.Covers facts n) (h : L.source a b ∧ sizeOf a < n) :
    L.Alike (Expr.renumber L.temp) (lowerExpr ⟨facts, ⟨fold, keep₁⟩⟩ a)
      (lowerExpr ⟨facts, ⟨fold, keep₂⟩⟩ b) :=
  (hall a b h).inRole .operand

theorem operands (hall : L.Covers facts n) {as bs : List Source.Expr}
    (h : List.Forall₂ (fun x y => L.source x y ∧ sizeOf x < n) as bs) :
    List.Forall₂ (L.Alike (Expr.renumber L.temp)) (as.map (lowerExpr ⟨facts, ⟨fold, keep₁⟩⟩))
      (bs.map (lowerExpr ⟨facts, ⟨fold, keep₂⟩⟩)) :=
  List.forall₂_map_left_iff.2 (List.forall₂_map_right_iff.2 (h.imp fun _ _ => hall.operand))

theorem location (hall : L.Covers facts n) (h : L.source a b) (hn : sizeOf a ≤ n) :
    L.Alike (Location.renumber L.temp) (lowerLocation ⟨facts, ⟨fold, keep₁⟩⟩ a.span a)
      (lowerLocation ⟨facts, ⟨fold, keep₂⟩⟩ b.span b) := by
  have hfault := L.targetNotAssignable h
  have hnode := sameNode_sized h hn
  rw [lowerLocation_unwrap _ _ a, lowerLocation_unwrap _ _ b]
  generalize a.unwrap = x, b.unwrap = y at hnode ⊢
  cases hnode with
  | name =>
    rw [lowerLocation, lowerLocation]
    refine .pure ?_
    rw [Location.renumber, nameValue_renumber]
  | @property _ _ _ _ optional _ hobject =>
    cases optional with
    | true => exact .fail hfault
    | false =>
      rw [lowerLocation, lowerLocation]
      exact .propertyLocation (hall.operand hobject) _
  | @element _ _ _ _ optional _ hobject hindex =>
    cases optional with
    | true => exact .fail hfault
    | false =>
      rw [lowerLocation, lowerLocation]
      exact .elementLocation (hall.operand hobject) (hall.operand hindex)
  | literal | template | binary | call | delete => exact .fail hfault

theorem receiver (hall : L.Covers facts n) (h : L.source a b) (hn : sizeOf a ≤ n)
    (hform : callForm facts a ≠ .plain) :
    L.Alike (Expr.renumber L.temp) (lowerReceiver ⟨facts, ⟨fold, keep₁⟩⟩ a)
      (lowerReceiver ⟨facts, ⟨fold, keep₂⟩⟩ b) := by
  obtain ⟨object, name, nameSpan, span, ha⟩ := exists_unwrap_of_callForm hform
  have hnode := sameNode_sized h hn
  rw [ha] at hnode
  generalize hb : b.unwrap = y at hnode
  cases hnode with
  | property hobject =>
    rw [lowerReceiver_of_unwrap ha, lowerReceiver_of_unwrap hb]
    exact hall.operand hobject

/-- Expressions whose parts are all smaller. -/
theorem node (hall : L.Covers facts n) (h : L.source a b) (hn : sizeOf a ≤ n) :
    L.Alike (Expr.renumber L.temp) (lowerNode ⟨facts, ⟨fold, keep₁⟩⟩ a)
      (lowerNode ⟨facts, ⟨fold, keep₂⟩⟩ b) := by
  refine .of_unwrap ?_
  have hnode := sameNode_sized h hn
  generalize a.unwrap = x, b.unwrap = y at hnode ⊢
  cases hnode with
  | name =>
    rw [lowerNode, lowerNode]
    exact .pure (nameValue_renumber ..).symm
  | literal =>
    rw [lowerNode, lowerNode]
    exact .pure (literalValue_renumber ..).symm
  | template hparts =>
    have hexprs := hall.operands (List.forall₂_map_left_iff.2
      (List.forall₂_map_right_iff.2 (hparts.imp fun _ _ hpart => hpart.1)))
    rw [lowerNode, lowerNode, lowerParts_eq_map, lowerParts_eq_map]
    refine (Alike.operands hexprs []).bind fun values => .pure ?_
    exact templateValue_alike (hparts.imp fun _ _ hpart => ⟨hpart.1.1, hpart.2⟩) facts _ values
  | @binary _ _ op _ _ span hleft hright =>
    have hlocation := hall.location hleft.1 (Nat.le_of_lt hleft.2)
    rw [lowerNode, lowerNode]
    cases operatorKind op span with
    | error fault => exact .fail (L.failure_self _)
    | ok kind =>
      cases kind with
      | refused replacement => exact .fail (L.failure_self _)
      | logical =>
        exact .logical (hall.operand hleft) (hall.operand hright)
      | assignment => exact .assignValue hlocation (hall.operand hright)
      | compound calculation => exact .assignResult hlocation (hall.operand hright) calculation
      | simple form =>
        refine ((hall.operand hleft).both (hall.operand hright)).bind fun values => .pure ?_
        exact (build_renumber ..).symm
  | @property _ _ name nameSpan optional span hobject =>
    cases optional with
    | true =>
      rw [lowerNode, lowerNode]
      exact .chainProperty hobject.1 facts name nameSpan span (hall.operand hobject)
    | false =>
      rw [lowerNode, lowerNode]
      exact (hall.operand hobject).bind fun value =>
        .readProperty hobject.1 facts name nameSpan span value
  | @element _ _ _ _ optional span hobject hindex =>
    cases optional with
    | true =>
      rw [lowerNode, lowerNode]
      exact .chainElement hobject.1 facts (hall.operand hobject) (hall.operand hindex)
    | false =>
      rw [lowerNode, lowerNode]
      exact ((hall.operand hobject).both (hall.operand hindex)).bind fun values =>
        .readElement hobject.1 facts values.1 values.2
  | @call callee₁ callee₂ _ _ _ hcallee hargs =>
    rw [lowerNode, lowerNode, lowerEach_eq_map, lowerEach_eq_map]
    rcases callForm_alike hcallee.1 facts with hform | ⟨object₁, object₂, hobject, hform₁, hform₂⟩
    · rw [← hform]
      exact .call (hall.receiver hcallee.1 (Nat.le_of_lt hcallee.2))
        ((hall _ _ hcallee).inRole .callee) (hall.operands hargs)
    · rw [hform₁, hform₂]
      exact .refuse (L.anyValue hobject)
  | delete hoperand =>
    rw [lowerNode, lowerNode, isDeletable_alike hoperand.1]
    split
    · exact (hall _ _ hoperand).inRole .deleted
    · exact .fail (L.operandNotDeletable hoperand.1)

end Covers

/-- The lowerings of corresponding expressions are alike. -/
theorem alike_lowerNode {a b : Source.Expr} (h : L.source a b) (facts : Facts) :
    L.Alike (Expr.renumber L.temp) (lowerNode ⟨facts, ⟨fold, keep₁⟩⟩ a)
      (lowerNode ⟨facts, ⟨fold, keep₂⟩⟩ b) := by
  have hcovers : ∀ n, L.Covers facts n := by
    intro n
    induction n with
    | zero => exact fun x y hxy => absurd hxy.2 (Nat.not_lt_zero _)
    | succ n ih => exact fun x y hxy => ih.node hxy.1 (Nat.le_of_lt_succ hxy.2)
  exact (hcovers (sizeOf a)).node h (Nat.le_refl _)

/-- An expression that stands alone or is an operand, from any two states. -/
theorem run_lowerExpr {a b : Source.Expr} (h : L.source a b) (facts : Facts) (s₁ s₂ : State)
    (hnext : s₂.nextTemp = L.temp s₁.nextTemp) : ∃ end₁ end₂ g₁ g₂,
      (lowerExpr ⟨facts, ⟨fold, keep₁⟩⟩ a).run s₁ = (end₁, s₁.grow g₁) ∧
      (lowerExpr ⟨facts, ⟨fold, keep₂⟩⟩ b).run s₂ = (end₂, s₂.grow g₂) ∧
      L.SameEnd (Expr.renumber L.temp) end₁ end₂ ∧ L.Grown g₁ g₂ := by
  -- The role of the expression hides all roles around it.
  have hmatched : L.Matched (s₁.enter .operand) (s₂.enter .operand) := ⟨rfl, hnext⟩
  obtain ⟨end₁, end₂, g₁, g₂, hrun₁, hrun₂, hsame⟩ := alike_lowerNode h facts _ _ hmatched
  exact ⟨end₁, end₂, g₁, g₂, run_inRole_outcome hrun₁, run_inRole_outcome hrun₂, hsame⟩

/-- Expressions on their own. -/
theorem lowerAlone_alike {a b : Source.Expr} (h : L.source a b) (facts : Facts)
    (hzero : L.temp 0 = 0) : ∃ end₁ end₂ g₁ g₂,
      lowerAlone ⟨facts, ⟨fold, keep₁⟩⟩ a = end₁.map (Growth.output g₁) ∧
      lowerAlone ⟨facts, ⟨fold, keep₂⟩⟩ b = end₂.map (Growth.output g₂) ∧
      L.SameEnd (Expr.renumber L.temp) end₁ end₂ ∧ L.Grown g₁ g₂ := by
  obtain ⟨end₁, end₂, g₁, g₂, hrun₁, hrun₂, hsame⟩ :=
    run_lowerExpr h facts State.initial.openFrame State.initial.openFrame hzero.symm
  exact ⟨end₁, end₂, g₁, g₂, lowerAlone_of_run hrun₁, lowerAlone_of_run hrun₂, hsame⟩

/-- One expression in two runs, with the same reports and failures. -/
def ofSameSource (temp : Nat → Nat) (stmt : Stmt → Stmt) (gapless : Gapless temp 0)
    (declare : ∀ t value, stmt (.declare t value) = (Stmt.declare t value).renumber temp)
    (set : ∀ left right, stmt (.assign left .set right) =
      (Stmt.assign left .set right).renumber temp)
    (compound : ∀ op place value, stmt (compoundStmt ⟨fold, keep₁⟩ op place value) =
      compoundStmt ⟨fold, keep₂⟩ op (place.renumber temp) (value.renumber temp)) :
    Likeness fold keep₁ keep₂ where
  source := Eq
  temp := temp
  stmt := stmt
  report := Eq
  failure := Eq
  sameNode := by
    rintro a b rfl
    exact .unwrap_self a
  gapless := gapless
  declare := declare
  set := set
  compound := compound
  report_self _ := rfl
  failure_self _ := rfl
  anyValue h := by rw [h]
  targetNotAssignable h := by rw [h]
  operandNotDeletable h := by rw [h]

end Likeness

end ExprLowering.Lowering
