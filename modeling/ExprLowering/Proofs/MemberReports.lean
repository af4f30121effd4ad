import ExprLowering.Proofs.Uses

/-!
# Reports about members

Members of values of type `any`, and members that may only be called, are reported where they are
used in another way. This file says exactly which uses are reported. Two kinds of uses are treated
differently from the others: a member that is assigned to is not checked for the type of its object,
and a member that is called behind `?.` is reported as if it were not called, if calls of it are
expanded.

## Main definitions

* `ReportsOnly`: whether or not a computation fails, it makes no other reports than the given ones.
* `reported`: the reports about an expression that is lowered on its own.
* `IsAnyMember`: an access to a member of a value of type `any`.

## Main results

* `reportsOnly_lowerNode`: a lowering reports only what belongs to the expressions that it visits.
* `any_members_reported`: which members of values of type `any` are reported.
* `called_members_reported`: which members are reported although they are called.
-/

namespace ExprLowering.Source

/-- The object of a member access. -/
def Expr.object? : Expr → Option Expr
  | .property object _ _ _ _ | .element object _ _ _ => some object
  | _ => none

theorem Expr.isWrapper_of_object? {e object : Expr} (h : e.object? = some object) :
    e.isWrapper = false := by
  cases e with
  | wrap => cases h
  | name | literal | template | binary | property | element | call | delete => rfl

end ExprLowering.Source

namespace ExprLowering.Lowering

open Target (Expr)

variable {α β : Type}

-- ════════════════════════════════════════════════════════════════════════
-- Reports of computations that may fail
-- ════════════════════════════════════════════════════════════════════════

/-- In the given role the computation only adds to the state, and it reports nothing but what is
allowed, whether it fails or not. -/
def ReportsOnly (allowed : Diagnostic → Prop) (role : Option Role) (m : LowerM α) : Prop :=
  ∀ s, s.role? = role → ∃ outcome g, m.run s = (outcome, s.grow g) ∧ ∀ d ∈ g.diagnostics, allowed d

namespace ReportsOnly

variable {allowed : Diagnostic → Prop} {role : Option Role} {m : LowerM α}

theorem fail (failure : Failure) : ReportsOnly allowed role (.fail failure : LowerM α) :=
  fun s _ => ⟨.error failure, ∅, by simp, by simp⟩

/-- A computation that succeeds from every state and always reports the same. -/
theorem adds {value : State → α} {g : State → Growth} {ds : List Diagnostic}
    (hrun : ∀ s, m.run s = (.ok (value s), s.grow (g s)))
    (hg : ∀ s, s.role? = role → (g s).account.diagnostics = ds) (h : ∀ d ∈ ds, allowed d) :
    ReportsOnly allowed role m := by
  intro s hrole
  refine ⟨_, _, hrun s, fun d hd => h d ?_⟩
  rw [← hg s hrole]
  exact hd

theorem silent {value : State → α} {g : State → Growth}
    (hrun : ∀ s, m.run s = (.ok (value s), s.grow (g s)))
    (hg : ∀ s, (g s).account.diagnostics = []) : ReportsOnly allowed role m :=
  adds hrun (fun s _ => hg s) (List.forall_mem_nil _)

theorem pure (a : α) : ReportsOnly allowed role (Pure.pure a : LowerM α) :=
  fun s _ => ⟨.ok a, ∅, by simp, by simp⟩

theorem bind (h : ReportsOnly allowed role m) {f : α → LowerM β}
    (hf : ∀ a, ReportsOnly allowed role (f a)) : ReportsOnly allowed role (m >>= f) := by
  intro s hrole
  obtain ⟨outcome, g, hrun, hreports⟩ := h s hrole
  cases outcome with
  | error failure => exact ⟨_, g, LowerM.run_bind_error hrun f, hreports⟩
  | ok a =>
    obtain ⟨outcome, g₂, hrun₂, hreports₂⟩ := hf a (s.grow g) hrole
    refine ⟨outcome, g ++ g₂, ?_, List.forall_mem_append.2 ⟨hreports, hreports₂⟩⟩
    rw [LowerM.run_bind_ok hrun, hrun₂, State.grow_append]

theorem of_map {f : α → β} (h : ReportsOnly allowed role (f <$> m)) :
    ReportsOnly allowed role m := by
  intro s hrole
  obtain ⟨outcome, g, hrun, hreports⟩ := h s hrole
  rw [LowerM.run_map] at hrun
  exact ⟨(m.run s).1, g, Prod.ext rfl (Prod.mk.inj hrun).2, hreports⟩

theorem inRole {inner : Role} (h : ReportsOnly allowed (some inner) m) (hinner : inner ≠ .wrapped)
    (role : Option Role) : ReportsOnly allowed role (Lowering.inRole inner m) := by
  intro s _
  obtain ⟨outcome, g, hrun, hreports⟩ := h (s.enter inner) (State.role?_enter hinner s)
  exact ⟨outcome, g, run_inRole_outcome hrun, hreports⟩

theorem wrapped (h : ReportsOnly allowed role m) :
    ReportsOnly allowed role (Lowering.inRole .wrapped m) := by
  intro s hrole
  obtain ⟨outcome, g, hrun, hreports⟩ := h (s.enter .wrapped) hrole
  exact ⟨outcome, g, run_inRole_outcome hrun, hreports⟩

theorem step {op : LowerM Expr} (h : ReportsOnly allowed role op) (earlier : List Expr) :
    ReportsOnly allowed role (Lowering.step (List.mapM settle) earlier op) := by
  intro s hrole
  obtain ⟨outcome, g, hrun, hreports⟩ := h s.openFrame hrole
  cases outcome with
  | ok value =>
    refine ⟨_, _, run_step hrun earlier, ?_⟩
    have hnone : (displaced (s.nextTemp + g.temps) earlier g.stmts).2.diagnostics = [] :=
      congrArg Account.diagnostics (account_displaced ..)
    rwa [Growth.append_diagnostics, hnone, List.nil_append]
  | error failure =>
    have hframe : (inFrame op).run s = (.error failure, s.grow g.withoutStmts) :=
      run_inFrame_outcome hrun
    exact ⟨_, _, LowerM.run_bind_error hframe _, hreports⟩

theorem operands {ops : List (LowerM Expr)} (h : ∀ op ∈ ops, ReportsOnly allowed role op)
    (earlier : List Expr) : ReportsOnly allowed role (sequenceAfter earlier ops) := by
  induction ops generalizing earlier with
  | nil => exact pure earlier
  | cons op ops ih =>
    rw [List.forall_mem_cons] at h
    exact (h.1.step earlier).bind fun result => ih h.2 _

theorem both {first second : LowerM Expr} (hfirst : ReportsOnly allowed role first)
    (hsecond : ReportsOnly allowed role second) :
    ReportsOnly allowed role (Lowering.both first second) := by
  refine of_map (f := fun p : Expr × Expr => [p.1, p.2]) ?_
  rw [pair_both]
  exact operands (List.forall_mem_cons.2 ⟨hfirst, List.forall_mem_singleton.2 hsecond⟩) []

theorem withArgs {head : LowerM Expr} {args : List (LowerM Expr)}
    (hhead : ReportsOnly allowed role head) (h : ∀ op ∈ args, ReportsOnly allowed role op) :
    ReportsOnly allowed role (Lowering.withArgs head args) := by
  refine hhead.bind fun value => of_map (f := fun p : Expr × List Expr => p.1 :: p.2) ?_
  rw [cons_argsAfter]
  exact operands h _

end ReportsOnly

-- ════════════════════════════════════════════════════════════════════════
-- Reports of a lowering
-- ════════════════════════════════════════════════════════════════════════

section Parts

variable {allowed : Diagnostic → Prop} {role : Option Role}

theorem reportsOnly_hoistUnlessAtom (value : Expr) :
    ReportsOnly allowed role (hoistUnlessAtom value) :=
  .silent (run_hoistUnlessAtom value) fun s =>
    congrArg Account.diagnostics (account_saved s.nextTemp value)

theorem reportsOnly_countLogical : ReportsOnly allowed role countLogical :=
  .silent run_countLogical fun _ => rfl

theorem reportsOnly_countChain : ReportsOnly allowed role countChain :=
  .silent run_countChain fun _ => rfl

theorem reportsOnly_assign (left : Expr) (op : Target.AssignOp) (right : Expr) :
    ReportsOnly allowed role (assign left op right) := by
  by_cases hleft : left.isAssignable = true
  · exact .silent (run_assign hleft op right) fun _ => rfl
  · have hfail : assign left op right = .fail .unassignable := if_neg hleft
    rw [hfail]
    exact .fail _

theorem reportsOnly_refuse {problem : Problem} {span : Span} (h : allowed ⟨problem, span⟩) :
    ReportsOnly allowed role (refuse problem span) :=
  .adds (run_refuse problem span) (fun _ _ => rfl) (List.forall_mem_singleton.2 h)

theorem reportsOnly_readProperty {ctx : Context} {object : Source.Expr} {name : String}
    {nameSpan span : Span} {optional : Bool}
    (h : ∀ d ∈ ownReports ctx.facts role (.property object name nameSpan optional span), allowed d)
    (value : Expr) :
    ReportsOnly allowed role (readProperty ctx object name nameSpan span value) := by
  refine .adds (run_readProperty ctx object name nameSpan span value) (fun s hrole => ?_) h
  rw [account_propertyRead ctx _ object name nameSpan optional, hrole]

theorem reportsOnly_readElement {ctx : Context} {object index : Source.Expr} {optional : Bool}
    {span : Span}
    (h : ∀ d ∈ ownReports ctx.facts role (.element object index optional span), allowed d)
    (value key : Expr) : ReportsOnly allowed role (readElement ctx object value key) := by
  refine .adds (run_readElement ctx object value key) (fun s hrole => ?_) h
  rw [account_elementRead ctx _ object index optional span, hrole]

/-- The expansion of a call reports what belongs to the call. -/
theorem reportsOnly_applyExpander {facts : Facts} {callee : Source.Expr} {expander : Expander}
    (hform : callForm facts callee = .expanded expander) {args : List Source.Expr} {span : Span}
    (h : ∀ d ∈ ownReports facts role (.call callee args span), allowed d) (object : Expr)
    (values : List Expr) : ReportsOnly allowed role (applyExpander expander object values) := by
  intro s _
  have hrun := run_applyExpander expander object values s
  cases hexp : expansion s.nextTemp object values expander with
  | none =>
    rw [hexp] at hrun
    obtain ⟨failure, hrun⟩ := hrun
    exact ⟨.error failure, ∅, by rw [hrun, State.grow_empty], by simp⟩
  | some result =>
    rw [hexp] at hrun
    have hreports : result.2.diagnostics = ownReports facts role (.call callee args span) :=
      congrArg Account.diagnostics (account_expansion hform hexp role args span)
    exact ⟨.ok result.1, result.2, hrun, fun d hd => h d (hreports ▸ hd)⟩

theorem reportsOnly_assignValue {location : LowerM Location} {value : LowerM Expr}
    (hlocation : ReportsOnly allowed role location) (hvalue : ReportsOnly allowed role value) :
    ReportsOnly allowed role (assignValue location value) := by
  refine hlocation.bind fun place => hvalue.bind fun v => ?_
  refine (reportsOnly_hoistUnlessAtom v).bind fun saved => ?_
  exact (reportsOnly_assign _ _ _).bind fun _ => .pure _

theorem reportsOnly_assignResult {options : Options} {op : Source.Calculation}
    {location : LowerM Location} {value : LowerM Expr}
    (hlocation : ReportsOnly allowed role location) (hvalue : ReportsOnly allowed role value) :
    ReportsOnly allowed role (assignResult options op location value) := by
  refine hlocation.bind fun place => hvalue.bind fun v => ?_
  dsimp only
  split
  · exact (reportsOnly_assign _ _ _).bind fun _ => .pure _
  · exact (reportsOnly_assign _ _ _).bind fun _ => .pure _

end Parts

section Nodes

variable {allowed : Diagnostic → Prop} {role : Option Role} {ctx : Context}

theorem reportsOnly_operand {e : Source.Expr}
    (h : ReportsOnly allowed (some .operand) (lowerNode ctx e)) :
    ReportsOnly allowed role (lowerExpr ctx e) := h.inRole (by decide) role

theorem reportsOnly_operands {es : List Source.Expr}
    (h : ∀ p ∈ asOperands es, ReportsOnly allowed p.1 (lowerNode ctx p.2)) :
    ∀ op ∈ es.map (lowerExpr ctx), ReportsOnly allowed role op := by
  intro op hop
  obtain ⟨e, he, rfl⟩ := List.mem_map.1 hop
  exact reportsOnly_operand (h _ (List.mem_map_of_mem he))

theorem reportsOnly_pair {left right : Source.Expr}
    (h : ∀ p ∈ asOperands [left, right], ReportsOnly allowed p.1 (lowerNode ctx p.2)) :
    ReportsOnly allowed role (both (lowerExpr ctx left) (lowerExpr ctx right)) :=
  (reportsOnly_operand (h _ (.head _))).both (reportsOnly_operand (h _ (.tail _ (.head _))))

/-- Resolving the target of an assignment reports what lowering its parts reports. -/
theorem reportsOnly_lowerLocation {left : Source.Expr}
    (h : ∀ p ∈ memberParts left, ReportsOnly allowed p.1 (lowerNode ctx p.2)) (written : Span) :
    ReportsOnly allowed role (lowerLocation ctx written left) := by
  rw [lowerLocation_unwrap]
  rw [memberParts] at h
  cases hunwrap : left.unwrap with
  | name text span =>
    rw [lowerLocation]
    exact .pure _
  | property object name nameSpan optional span =>
    rw [hunwrap] at h
    cases optional with
    | true => exact .fail _
    | false =>
      rw [lowerLocation]
      refine (reportsOnly_operand (h _ (.head _))).bind fun value => ?_
      exact (reportsOnly_hoistUnlessAtom value).bind fun _ => .pure _
  | element object index optional span =>
    rw [hunwrap] at h
    cases optional with
    | true => exact .fail _
    | false =>
      rw [lowerLocation]
      refine (reportsOnly_pair h).bind fun values => ?_
      refine (reportsOnly_hoistUnlessAtom values.1).bind fun base => ?_
      exact (reportsOnly_hoistUnlessAtom values.2).bind fun _ => .pure _
  | wrap wrapper inner span =>
    have hwrapper := Source.Expr.isWrapper_unwrap left
    rw [hunwrap] at hwrapper
    cases hwrapper
  | literal | template | binary | call | delete => exact .fail _

theorem reportsOnly_binary {left right : Source.Expr} {op : Source.Operator} {span : Span}
    (h : ∀ p ∈ parts ctx.facts role (.binary left op right span),
      ReportsOnly allowed p.1 (lowerNode ctx p.2)) :
    ReportsOnly allowed role (lowerNode ctx (.binary left op right span)) := by
  have hassign (hop : op.isAssignment = true) :
      ReportsOnly allowed role (lowerLocation ctx left.span left) ∧
        ReportsOnly allowed role (lowerExpr ctx right) := by
    rw [parts_assignment _ _ hop, List.forall_mem_append] at h
    exact ⟨reportsOnly_lowerLocation h.1 _, reportsOnly_operand (h.2 _ (.head _))⟩
  rw [lowerNode]
  cases op with
  | looseEq | looseNe | membership | instanceOf | comma => exact .fail _
  | comparison | calculation => exact (reportsOnly_pair h).bind fun _ => .pure _
  | logical =>
    exact reportsOnly_countLogical.bind fun _ => (reportsOnly_pair h).bind fun _ => .pure _
  | assign => exact reportsOnly_assignValue (hassign rfl).1 (hassign rfl).2
  | assignWith => exact reportsOnly_assignResult (hassign rfl).1 (hassign rfl).2

theorem reportsOnly_call {callee : Source.Expr} {args : List Source.Expr} {span : Span}
    (h : ∀ p ∈ parts ctx.facts role (.call callee args span),
      ReportsOnly allowed p.1 (lowerNode ctx p.2))
    (hown : ∀ d ∈ ownReports ctx.facts role (.call callee args span), allowed d) :
    ReportsOnly allowed role (lowerNode ctx (.call callee args span)) := by
  rw [lowerNode, lowerEach_eq_map]
  by_cases hplain : callForm ctx.facts callee = .plain
  · rw [parts_plainCall hplain, List.forall_mem_cons] at h
    rw [hplain]
    have hcallee := h.1.inRole (by decide) role
    exact (hcallee.withArgs (reportsOnly_operands h.2)).bind fun _ => .pure _
  obtain ⟨object, name, nameSpan, memberSpan, hunwrap⟩ := exists_unwrap_of_callForm hplain
  have hvalues (hparts : parts ctx.facts role (.call callee args span) =
      asOperands (object :: args)) :
      ReportsOnly allowed role (withArgs (lowerExpr ctx object) (args.map (lowerExpr ctx))) := by
    rw [hparts] at h
    have hall : ∀ op ∈ (object :: args).map (lowerExpr ctx), ReportsOnly allowed role op :=
      reportsOnly_operands h
    rw [List.map_cons, List.forall_mem_cons] at hall
    exact hall.1.withArgs hall.2
  rw [lowerReceiver_of_unwrap hunwrap]
  cases hform : callForm ctx.facts callee with
  | plain => exact absurd hform hplain
  | refused objectSpan =>
    refine reportsOnly_refuse (hown _ ?_)
    rw [ownReports, hform]
    exact .head _
  | expanded expander =>
    refine (hvalues (parts_memberCall hunwrap (.inl ⟨_, hform⟩) ..)).bind fun values => ?_
    exact reportsOnly_applyExpander hform hown values.1 values.2
  | method method =>
    exact (hvalues (parts_memberCall hunwrap (.inr ⟨_, hform⟩) ..)).bind fun _ => .pure _

/-- Whether or not it fails, a lowering reports only what belongs to the expressions that it
visits. -/
theorem reportsOnly_lowerNode {e : Source.Expr}
    (h : ∀ v ∈ visits ctx.facts role e, ∀ d ∈ ownReports ctx.facts v.1 v.2, allowed d) :
    ReportsOnly allowed role (lowerNode ctx e) := by
  induction role, e using parts_induction ctx.facts with
  | h role e ih =>
    have hown := h _ (mem_visits_self ctx.facts role e)
    have hpart : ∀ p ∈ parts ctx.facts role e, ReportsOnly allowed p.1 (lowerNode ctx p.2) :=
      fun p hp => ih p hp fun v hv => h v (visits_subset_of_mem_parts hp hv)
    cases e with
    | name | literal =>
      rw [lowerNode]
      exact .pure _
    | template head subs span =>
      rw [lowerNode, lowerParts_eq_map]
      exact (ReportsOnly.operands (reportsOnly_operands hpart) []).bind fun _ => .pure _
    | binary left op right span => exact reportsOnly_binary hpart
    | property object name nameSpan optional span =>
      have hobject : ReportsOnly allowed role (lowerExpr ctx object) :=
        reportsOnly_operand (hpart _ (.head _))
      cases optional with
      | true =>
        rw [lowerNode]
        refine reportsOnly_countChain.bind fun _ => hobject.bind fun value => ?_
        exact (reportsOnly_hoistUnlessAtom value).bind fun saved =>
          reportsOnly_readProperty hown saved
      | false =>
        rw [lowerNode]
        exact hobject.bind fun value => reportsOnly_readProperty hown value
    | element object index optional span =>
      have hread := (reportsOnly_pair hpart).bind fun values =>
        reportsOnly_readElement hown values.1 values.2
      cases optional with
      | true =>
        rw [lowerNode]
        exact reportsOnly_countChain.bind fun _ => hread
      | false =>
        rw [lowerNode]
        exact hread
    | call callee args span => exact reportsOnly_call hpart hown
    | delete operand span =>
      rw [lowerNode]
      split
      · exact (hpart _ (.head _)).inRole (by decide) role
      · exact .fail _
    | wrap wrapper inner span =>
      rw [lowerNode]
      exact (hpart _ (.head _)).wrapped

end Nodes

-- ════════════════════════════════════════════════════════════════════════
-- Reports about an expression on its own
-- ════════════════════════════════════════════════════════════════════════

/-- What has been reported when an expression that stands alone is lowered, or when its lowering has
failed. -/
def reported (ctx : Context) (e : Source.Expr) : List Diagnostic :=
  ((lowerInFrame ctx e).run .initial).2.diagnostics

theorem diagnostics_eq_reported {ctx : Context} {e : Source.Expr} {out : Output}
    (h : lowerAlone ctx e = .ok out) : out.diagnostics = reported ctx e := by
  rw [lowerAlone] at h
  rw [reported]
  rcases hrun : (lowerInFrame ctx e).run .initial with ⟨failure | lowered, s⟩
  · rw [hrun] at h
    cases h
  · rw [hrun] at h
    cases h
    rfl

theorem exists_visit_of_mem_reported {ctx : Context} {e : Source.Expr} {d : Diagnostic}
    (h : d ∈ reported ctx e) :
    ∃ v ∈ visits ctx.facts (some .operand) e, d ∈ ownReports ctx.facts v.1 v.2 := by
  have hlower : ReportsOnly
      (fun d => ∃ v ∈ visits ctx.facts (some .operand) e, d ∈ ownReports ctx.facts v.1 v.2)
      none (lowerExpr ctx e) :=
    (reportsOnly_lowerNode fun v hv d hd => ⟨v, hv, hd⟩).inRole (by decide) none
  obtain ⟨outcome, g, hrun, hreports⟩ := hlower State.initial.openFrame rfl
  have hframe : (lowerInFrame ctx e).run .initial = _ := run_inFrame_outcome hrun
  rw [reported, hframe] at h
  exact hreports d h

theorem mem_tally_diagnostics {facts : Facts} {vs : List Visit} {d : Diagnostic} :
    d ∈ (tally facts vs).diagnostics ↔ ∃ v ∈ vs, d ∈ ownReports facts v.1 v.2 := by
  induction vs with
  | nil =>
    constructor
    · intro h
      cases h
    · rintro ⟨v, hv, -⟩
      cases hv
  | cons v vs ih =>
    have hcons : (tally facts (v :: vs)).diagnostics =
        ownReports facts v.1 v.2 ++ (tally facts vs).diagnostics := rfl
    rw [hcons, List.mem_append, ih, List.exists_mem_cons_iff]

/-- A lowering that succeeds reports all that belongs to the expressions that it visits. -/
theorem mem_diagnostics_iff {ctx : Context} {e : Source.Expr} {out : Output}
    (h : lowerAlone ctx e = .ok out) (d : Diagnostic) :
    d ∈ out.diagnostics ↔
      ∃ v ∈ visits ctx.facts (some .operand) e, d ∈ ownReports ctx.facts v.1 v.2 := by
  obtain ⟨value, g, hlow, rfl⟩ := lowerAlone_eq_ok_iff.1 h
  have hreports :
      g.diagnostics = (tally ctx.facts (visits ctx.facts (some .operand) e)).diagnostics :=
    congrArg Account.diagnostics hlow.account
  show d ∈ g.diagnostics ↔ _
  rw [hreports, mem_tally_diagnostics]

theorem failures_eq_nil_of_ok {ctx : Context} {e : Source.Expr} {out : Output}
    (h : lowerAlone ctx e = .ok out) : failures (callForm ctx.facts) e = [] := by
  have hfirst := failure?_lowerAlone ctx e
  rw [h] at hfirst
  exact List.head?_eq_none_iff.1 hfirst.symm

-- ════════════════════════════════════════════════════════════════════════
-- Members of values of type `any`
-- ════════════════════════════════════════════════════════════════════════

/-- The expression is a member access, its object has type `any`, and stands at the span. -/
def IsAnyMember (facts : Facts) (span : Span) (access : Source.Expr) : Prop :=
  ∃ object, access.object? = some object ∧ (facts.typeOf object).isAny = true ∧ object.span = span

section AnyMembers

variable {facts : Facts} {role : Option Role} {e : Source.Expr} {span : Span}

theorem IsAnyMember.mem_ownReports (h : IsAnyMember facts span e) (role : Option Role) :
    ⟨.anyValue, span⟩ ∈ ownReports facts role e := by
  obtain ⟨object, hobject, hany, rfl⟩ := h
  cases e with
  | property | element =>
    cases hobject
    rw [ownReports, if_pos hany]
    exact .head _
  | name | literal | template | binary | call | delete | wrap => cases hobject

/-- A call of a member of a value of type `any` is refused. -/
theorem IsAnyMember.callForm {callee : Source.Expr} (h : IsAnyMember facts span callee.unwrap)
    (hform : callForm facts callee ≠ .plain) : callForm facts callee = .refused span := by
  obtain ⟨object, hobject, hany, rfl⟩ := h
  obtain ⟨object, name, nameSpan, memberSpan, hunwrap⟩ := exists_unwrap_of_callForm hform
  rw [hunwrap] at hobject
  cases hobject
  simp only [Lowering.callForm, hunwrap, if_pos hany]

theorem isAnyMember_of_callForm {callee : Source.Expr} (h : callForm facts callee = .refused span) :
    IsAnyMember facts span callee.unwrap := by
  have hform : callForm facts callee ≠ .plain := by simp [h]
  obtain ⟨object, name, nameSpan, memberSpan, hunwrap⟩ := exists_unwrap_of_callForm hform
  refine ⟨object, by rw [hunwrap]; rfl, ?_⟩
  simp only [callForm, hunwrap] at h
  split at h
  · next hany =>
    cases h
    exact ⟨hany, rfl⟩
  · split at h
    · cases h
    · split at h <;> cases h

/-- Members of values of type `any` are reported as they are read or deleted, and in calls. -/
theorem of_anyValue_mem_ownReports (h : ⟨.anyValue, span⟩ ∈ ownReports facts role e) :
    IsAnyMember facts span e ∨ ∃ callee args callSpan, e = .call callee args callSpan ∧
      isRefusedCall facts e = true ∧ IsAnyMember facts span callee.unwrap := by
  cases e with
  | property object name nameSpan optional memberSpan =>
    rw [ownReports] at h
    split at h
    · next hany =>
      cases List.mem_singleton.1 h
      exact .inl ⟨object, rfl, hany, rfl⟩
    · split_ifs at h <;> simp at h
  | element object index optional memberSpan =>
    rw [ownReports] at h
    split at h
    · next hany =>
      cases List.mem_singleton.1 h
      exact .inl ⟨object, rfl, hany, rfl⟩
    · cases h
  | call callee args callSpan =>
    rw [ownReports] at h
    split at h
    · next object hform =>
      cases List.mem_singleton.1 h
      have hrefused : isRefusedCall facts (.call callee args callSpan) = true := by
        rw [isRefusedCall_eq, hform]
        rfl
      exact .inr ⟨callee, args, callSpan, rfl, hrefused, isAnyMember_of_callForm hform⟩
    · cases List.mem_singleton.1 h
    · cases h
  | name | literal | template | binary | delete | wrap => cases h

end AnyMembers

/-- Exactly the members of values of type `any` that are read, called or deleted are reported, at
their objects. Those that are assigned to are not. Lowering comes to everything that it reaches. -/
theorem any_members_reported {ctx : Context} {e : Source.Expr} {out : Output}
    (h : lowerAlone ctx e = .ok out) (span : Span) :
    (⟨.anyValue, span⟩ ∈ out.diagnostics ↔
      ∃ use access, Meets ctx.facts .operand e use access ∧ use ≠ .assigned ∧
        IsAnyMember ctx.facts span access) ∧
      ∀ access, Reaches ctx.facts e access → ∃ use, Meets ctx.facts .operand e use access := by
  refine ⟨?_, fun access hreach => (hreach.exists_use .operand).imp fun _ => .inl⟩
  rw [mem_diagnostics_iff h]
  constructor
  · rintro ⟨⟨role, d⟩, hv, hreport⟩
    have hreach := reachesAs_of_mem_visits hv
    rcases of_anyValue_mem_ownReports hreport with
      hany | ⟨callee, args, callSpan, rfl, hrefused, hany⟩
    · exact ⟨_, d, .inl hreach, Use.ofRole_ne_assigned role, hany⟩
    · exact ⟨.called, callee.unwrap, .inr ⟨_, callee, args, callSpan, hreach, hrefused, rfl, rfl⟩,
        by decide, hany⟩
  · rintro ⟨use, access, hmeets, huse, hany⟩
    obtain ⟨object, hobject, -⟩ := id hany
    have hattended : Attended ctx.facts (visits ctx.facts (some .operand) e) use access :=
      hmeets.attended (failures_eq_nil_of_ok h) (Source.Expr.isWrapper_of_object? hobject) huse
    rcases hattended with ⟨role, -, hv⟩ | ⟨role, callee, args, callSpan, hv, hform, -, rfl⟩
    · exact ⟨_, hv, hany.mem_ownReports role⟩
    · refine ⟨_, hv, ?_⟩
      rw [ownReports, hany.callForm hform]
      exact .head _

/-- In `g(a.f(), delete (b[k]), c?.p)`, where `a`, `b` and `c` have type `any`, all three members
are reported. -/
theorem any_members_called_deleted_and_read :
    let name (text : String) (column : Nat) : Source.Expr := .name text ⟨1, column, 1⟩
    let any := StaticType.ofTags .any
    let ctx : Context := ⟨((Facts.empty.withType ⟨1, 2, 1⟩ any).withType ⟨1, 7, 1⟩ any).withType
      ⟨1, 14, 1⟩ any, default⟩
    let called : Source.Expr :=
      .call (.property (name "a" 2) "f" ⟨1, 3, 1⟩ false ⟨1, 4, 2⟩) [] ⟨1, 6, 1⟩
    let deleted : Source.Expr := .element (name "b" 7) (name "k" 8) false ⟨1, 9, 2⟩
    let read : Source.Expr := .property (name "c" 14) "p" ⟨1, 15, 1⟩ true ⟨1, 16, 2⟩
    let e : Source.Expr := .call (name "g" 1)
      [called, .delete (.wrap .parens deleted ⟨1, 11, 2⟩) ⟨1, 13, 1⟩, read] ⟨1, 18, 2⟩
    ∃ out, lowerAlone ctx e = .ok out ∧ ∀ span ∈ [⟨1, 2, 1⟩, ⟨1, 7, 1⟩, ⟨1, 14, 1⟩],
      ⟨.anyValue, span⟩ ∈ out.diagnostics := by
  intro name any ctx called deleted read e
  have hlower : lowerAlone ctx e = .ok ⟨[], .call (.name "g") [.placeholder, .placeholder,
      .placeholder], [⟨.anyValue, ⟨1, 2, 1⟩⟩, ⟨.anyValue, ⟨1, 7, 1⟩⟩, ⟨.anyValue, ⟨1, 14, 1⟩⟩], 0,
      1⟩ := by
    simp only [ctx, e, called, deleted, read, name, any]
    rfl
  have hreported (span : Span) := (any_members_reported hlower span).1.2
  have hany (column : Nat) (h : column = 2 ∨ column = 7 ∨ column = 14) :
      (ctx.facts.typeAt ⟨1, column, 1⟩).isAny = true := by
    rcases h with rfl | rfl | rfl <;> decide
  have hrefused : isRefusedCall ctx.facts called = true := by decide
  have hcalled : ReachesAs ctx.facts .operand e .operand called :=
    .inside rfl (.tail _ (.head _)) .here
  have hdeleted : ReachesAs ctx.facts .operand e .deleted deleted :=
    .inside rfl (.tail _ (.tail _ (.head _))) (.inside rfl (.head _) (.inside rfl (.head _) .here))
  have hread : ReachesAs ctx.facts .operand e .operand read :=
    .inside rfl (.tail _ (.tail _ (.tail _ (.head _)))) .here
  refine ⟨_, hlower, List.forall_mem_cons.2 ⟨hreported _ ?_, List.forall_mem_cons.2
    ⟨hreported _ ?_, List.forall_mem_singleton.2 (hreported _ ?_)⟩⟩⟩
  · exact ⟨.called, _, .inr ⟨_, _, _, _, hcalled, hrefused, rfl, rfl⟩, by decide, _, rfl,
      hany 2 (by simp), rfl⟩
  · exact ⟨.deleted, deleted, .inl hdeleted, by decide, _, rfl, hany 7 (by simp), rfl⟩
  · exact ⟨.operand, read, .inl hread, by decide, _, rfl, hany 14 (by simp), rfl⟩

/-- Members that are assigned to are not reported: `a.p = 1` and `a[k] += 1` are lowered without
any report, although `a` has type `any`. -/
theorem assigned_any_members_not_reported :
    let ctx : Context := ⟨Facts.empty.withType ⟨1, 1, 1⟩ (.ofTags .any), default⟩
    let a : Source.Expr := .name "a" ⟨1, 1, 1⟩
    let one : Source.Expr := .literal (.number "1") ⟨1, 5, 1⟩
    let property : Source.Expr := .property a "p" ⟨1, 2, 1⟩ false ⟨1, 3, 2⟩
    let element : Source.Expr := .element a (.name "k" ⟨1, 2, 1⟩) false ⟨1, 3, 2⟩
    let simple : Source.Expr := .binary property .assign one ⟨1, 6, 1⟩
    let compound : Source.Expr :=
      .binary element (.assignWith (.arithmetic .add)) one ⟨1, 6, 2⟩
    (Reaches ctx.facts simple property ∧ IsAnyMember ctx.facts a.span property) ∧
      (Reaches ctx.facts compound element ∧ IsAnyMember ctx.facts a.span element) ∧
      lowerAlone ctx simple =
        .ok ⟨[.assign (.property (.name "a") "p") .set (.number "1")], .number "1", [], 0, 0⟩ ∧
      (lowerAlone ctx compound).map Output.diagnostics = .ok [] := by
  intro ctx a one property element simple compound
  have hany : (ctx.facts.typeOf a).isAny = true := by decide
  exact ⟨⟨.inside rfl (.head _) .here, a, rfl, hany, rfl⟩,
    ⟨.inside rfl (.head _) .here, a, rfl, hany, rfl⟩, rfl, rfl⟩

-- ════════════════════════════════════════════════════════════════════════
-- Members that may only be called
-- ════════════════════════════════════════════════════════════════════════

section CalledMembers

variable {facts : Facts} {role : Option Role} {e d : Source.Expr} {span : Span}

/-- An expression that is lowered as a callee is the callee of a plain call, or it stands where its
role is passed on to it. -/
theorem callee_of_mem_parts {p : Visit} (h : p ∈ parts facts role e) (hp : p.1 = some .callee) :
    (role = some .callee ∧ e.unwrap = p.2.unwrap) ∨ callForm facts p.2 = .plain := by
  have hoperand {es : List Source.Expr} (hmem : p ∈ asOperands es) : False := by
    obtain ⟨d, -, rfl⟩ := List.mem_map.1 hmem
    cases hp
  have hmember {d : Source.Expr} (hmem : p ∈ memberParts d) : False := by
    rw [memberParts] at hmem
    split at hmem
    · exact hoperand hmem
    · exact hoperand hmem
    · cases hmem
  cases e with
  | name | literal => cases h
  | template | property | element => exact (hoperand h).elim
  | binary left op right span =>
    rw [parts] at h
    split at h
    · exact ((List.mem_append.1 h).elim hmember hoperand).elim
    · exact (hoperand h).elim
  | call callee args span =>
    rw [parts] at h
    split at h
    · cases h
    · exact ((List.mem_append.1 h).elim hmember hoperand).elim
    · exact ((List.mem_append.1 h).elim hmember hoperand).elim
    · next hform =>
      rcases List.mem_cons.1 h with rfl | harg
      · exact .inr hform
      · exact (hoperand harg).elim
  | delete operand span =>
    obtain rfl := List.mem_singleton.1 h
    cases hp
  | wrap wrapper inner span =>
    obtain rfl := List.mem_singleton.1 h
    exact .inl ⟨hp, rfl⟩

theorem callee_of_mem_visits (h : (some .callee, d) ∈ visits facts role e) (hd : d.unwrap = d) :
    (role = some .callee ∧ e.unwrap = d) ∨
      ∃ callee, callForm facts callee = .plain ∧ callee.unwrap = d := by
  induction role, e using parts_induction facts with
  | h role e ih =>
    rw [visits_eq, List.mem_append, List.mem_singleton] at h
    rcases h with hinside | hself
    · obtain ⟨p, hp, hmem⟩ := List.mem_flatMap.1 hinside
      rcases ih p hp hmem with ⟨hrole, rfl⟩ | hplain
      · rcases callee_of_mem_parts hp hrole with hpassed | hform
        · exact .inl hpassed
        · exact .inr ⟨p.2, hform, rfl⟩
      · exact .inr hplain
    · cases hself
      exact .inl ⟨rfl, hd⟩

/-- The members that are reported for not being called are properties at that span. -/
theorem of_uncalled_mem_ownReports {problem : Problem}
    (hproblem : problem = .uncalledExpansion ∨ problem = .uncalledMethod)
    (h : ⟨problem, span⟩ ∈ ownReports facts role e) :
    ∃ object name nameSpan optional, e = .property object name nameSpan optional span ∧
      (facts.typeOf object).isAny = false ∧
      (problem = .uncalledExpansion → (facts.expanderAt? span).isSome = true) ∧
      (problem = .uncalledMethod → role ≠ some .callee) := by
  cases e with
  | property object name nameSpan optional memberSpan =>
    rw [ownReports] at h
    split at h
    · cases List.mem_singleton.1 h
      simp at hproblem
    next hany =>
    have hany := Bool.eq_false_iff.2 hany
    split at h
    · next hexpander =>
      cases List.mem_singleton.1 h
      exact ⟨object, name, nameSpan, optional, rfl, hany, fun _ => hexpander, by simp⟩
    split at h
    · next hmethod =>
      cases List.mem_singleton.1 h
      refine ⟨object, name, nameSpan, optional, rfl, hany, by simp, fun _ => ?_⟩
      simpa using (Bool.and_eq_true_iff.1 hmethod).2
    split at h
    · cases List.mem_singleton.1 h
      simp at hproblem
    · cases h
  | element object index optional memberSpan =>
    rw [ownReports] at h
    split at h
    · cases List.mem_singleton.1 h
      simp at hproblem
    · cases h
  | call callee args callSpan =>
    rw [ownReports] at h
    split at h
    · cases List.mem_singleton.1 h
      simp at hproblem
    · cases List.mem_singleton.1 h
      simp at hproblem
    · cases h
  | name | literal | template | binary | delete | wrap => cases h

/-- A member whose calls are expanded is lowered as a callee only behind `?.`. -/
theorem optional_of_mem_visits {object : Source.Expr} {name : String} {nameSpan : Span}
    {optional : Bool}
    (h : (some .callee, .property object name nameSpan optional span) ∈
      visits facts (some .operand) e)
    (hexpander : (facts.expanderAt? span).isSome = true) : optional = true := by
  rcases callee_of_mem_visits h rfl with ⟨hrole, -⟩ | ⟨callee, hplain, hunwrap⟩
  · cases hrole
  cases optional with
  | true => rfl
  | false =>
    obtain ⟨expander, hfound⟩ := Option.isSome_iff_exists.1 hexpander
    simp only [callForm, hunwrap, hfound] at hplain
    split at hplain <;> cases hplain

/-- If all spans are different, whatever is visited at the span of a called member is this member as
a callee. -/
theorem visit_eq_of_called {callee : Source.Expr} {args : List Source.Expr} {callSpan : Span}
    (hspans : (e.nodes.map Source.Expr.span).Nodup) (hcall : .call callee args callSpan ∈ e.nodes)
    {v : Visit} (hv : v ∈ visits facts role e) (hspan : v.2.span = callee.unwrap.span) :
    v = (some .callee, callee.unwrap) := by
  have hcalled := called_mem_uses hcall (.ofRole role)
  have hplaced := use_unique hspans (reachesAs_of_mem_visits hv).mem_uses hcalled hspan
  obtain ⟨huse, hsame⟩ := Prod.mk.inj hplaced
  exact Prod.ext (Use.ofRole_eq_called.1 huse) hsame

/-- If all spans are different, a called member that is reached is visited as a callee, or the call
is lowered without it. -/
theorem visited_of_called {callee : Source.Expr} {args : List Source.Expr} {callSpan : Span}
    (hspans : (e.nodes.map Source.Expr.span).Nodup) (hcall : .call callee args callSpan ∈ e.nodes)
    (hok : failures (callForm facts) e = []) (hreach : Reaches facts e callee.unwrap) :
    (some .callee, callee.unwrap) ∈ visits facts role e ∨
      ∃ other, callForm facts other ≠ .plain ∧ other.unwrap = callee.unwrap := by
  obtain ⟨use, hreach⟩ := hreach.exists_use (.ofRole role)
  have hcalled := called_mem_uses hcall (.ofRole role)
  obtain rfl : use = .called := congrArg Prod.fst (use_unique hspans hreach.mem_uses hcalled rfl)
  rcases Meets.attended hok (.inl hreach) (Source.Expr.isWrapper_unwrap callee) (by decide) with
    ⟨calleeRole, hrole, hv⟩ | ⟨_, other, _, _, -, hform, -, hunwrap⟩
  · exact .inl (Use.ofRole_eq_called.1 hrole ▸ hv)
  · exact .inr ⟨other, hform, hunwrap⟩

end CalledMembers

/-- A member that is called is not reported as an uncalled method, and it is reported as an uncalled
expansion only behind `?.`. If the lowering succeeds, this is exactly what becomes of such a member
when calls of it are expanded and it is reached, unless its object has type `any`. -/
theorem called_members_reported (ctx : Context) {e callee object : Source.Expr}
    {args : List Source.Expr} {callSpan nameSpan span : Span} {name : String} {optional : Bool}
    (hspans : (e.nodes.map Source.Expr.span).Nodup) (hcall : .call callee args callSpan ∈ e.nodes)
    (haccess : callee.unwrap = .property object name nameSpan optional span) :
    ⟨.uncalledMethod, span⟩ ∉ reported ctx e ∧
      (⟨.uncalledExpansion, span⟩ ∈ reported ctx e → optional = true ∧
        (ctx.facts.expanderAt? span).isSome = true ∧ (ctx.facts.typeOf object).isAny = false) ∧
      ∀ out, lowerAlone ctx e = .ok out → (⟨.uncalledExpansion, span⟩ ∈ out.diagnostics ↔
        optional = true ∧ (ctx.facts.expanderAt? span).isSome = true ∧
          (ctx.facts.typeOf object).isAny = false ∧ Reaches ctx.facts e callee.unwrap) := by
  have hspan : callee.unwrap.span = span := congrArg Source.Expr.span haccess
  -- The member itself is behind every report at its span.
  have hvisit {problem : Problem} (h : ⟨problem, span⟩ ∈ reported ctx e)
      (hproblem : problem = .uncalledExpansion ∨ problem = .uncalledMethod) :
      (some .callee, callee.unwrap) ∈ visits ctx.facts (some .operand) e ∧
        ⟨problem, span⟩ ∈ ownReports ctx.facts (some .callee) callee.unwrap := by
    obtain ⟨v, hv, hown⟩ := exists_visit_of_mem_reported h
    obtain ⟨_, _, _, _, hproperty, -⟩ := of_uncalled_mem_ownReports hproblem hown
    have hsame : v = (some .callee, callee.unwrap) :=
      visit_eq_of_called hspans hcall hv (by rw [hproperty, hspan]; rfl)
    subst hsame
    exact ⟨hv, hown⟩
  have hexpansion (h : ⟨.uncalledExpansion, span⟩ ∈ reported ctx e) : optional = true ∧
      (ctx.facts.expanderAt? span).isSome = true ∧ (ctx.facts.typeOf object).isAny = false := by
    obtain ⟨hv, hown⟩ := hvisit h (.inl rfl)
    rw [haccess] at hv hown
    obtain ⟨_, _, _, _, hproperty, hany, hexpander, -⟩ := of_uncalled_mem_ownReports (.inl rfl) hown
    cases hproperty
    exact ⟨optional_of_mem_visits hv (hexpander rfl), hexpander rfl, hany⟩
  refine ⟨fun h => ?_, hexpansion, fun out hlower => ⟨fun h => ?_, ?_⟩⟩
  · obtain ⟨-, hown⟩ := hvisit h (.inr rfl)
    obtain ⟨_, _, _, _, -, -, -, hrole⟩ := of_uncalled_mem_ownReports (.inr rfl) hown
    exact hrole rfl rfl
  · rw [diagnostics_eq_reported hlower] at h
    obtain ⟨hoptional, hexpander, hany⟩ := hexpansion h
    have hreach := reachesAs_of_mem_visits (hvisit h (.inl rfl)).1
    exact ⟨hoptional, hexpander, hany, hreach.reaches⟩
  · rintro ⟨rfl, hexpander, hany, hreach⟩
    rcases visited_of_called hspans hcall (failures_eq_nil_of_ok hlower) hreach with
      hv | ⟨other, hform, hunwrap⟩
    · refine (mem_diagnostics_iff hlower _).2 ⟨_, hv, ?_⟩
      simp only [haccess, ownReports, hany, hexpander, if_true, Bool.false_eq_true, if_false]
      exact .head _
    · obtain ⟨_, _, _, _, hmember⟩ := exists_unwrap_of_callForm hform
      rw [hunwrap, haccess] at hmember
      cases hmember

/-- In `(o.size)(p?.f())`, where calls of `size` are expanded and `f` is a method, neither member is
reported. -/
theorem expanded_and_optional_calls_not_reported :
    let ctx : Context := ⟨((Facts.empty.withExpander ⟨7⟩ .length).withType ⟨1, 6, 5⟩
      (.ofSymbol ⟨7⟩)).withMethod ⟨1, 15, 2⟩, default⟩
    let size : Source.Expr := .property (.name "o" ⟨1, 1, 1⟩) "size" ⟨1, 2, 4⟩ false ⟨1, 6, 5⟩
    let f : Source.Expr := .property (.name "p" ⟨1, 13, 1⟩) "f" ⟨1, 14, 1⟩ true ⟨1, 15, 2⟩
    let e : Source.Expr := .call (.wrap .parens size ⟨1, 11, 2⟩) [.call f [] ⟨1, 17, 2⟩] ⟨1, 19, 2⟩
    (ctx.facts.expanderAt? size.span).isSome = true ∧ ctx.facts.isMethodAt f.span = true ∧
      ⟨.uncalledExpansion, size.span⟩ ∉ reported ctx e ∧
      ⟨.uncalledMethod, f.span⟩ ∉ reported ctx e := by
  intro ctx size f e
  have hspans : (e.nodes.map Source.Expr.span).Nodup := by decide
  have hinner : .call f [] ⟨1, 17, 2⟩ ∈ e.nodes := by
    simp [e, Source.Expr.nodes, Source.nodesAll]
  obtain ⟨-, hsize, -⟩ := called_members_reported ctx hspans (.head _) rfl
  obtain ⟨hf, -, -⟩ := called_members_reported ctx hspans hinner rfl
  refine ⟨rfl, rfl, fun h => ?_, hf⟩
  cases (hsize h).1

/-- In `o?.size()`, where calls of `size` are expanded, the member is called and all the same
reported as not called. -/
theorem optional_expanded_call_reported :
    let ctx : Context := ⟨(Facts.empty.withExpander ⟨7⟩ .length).withType ⟨1, 6, 5⟩
      (.ofSymbol ⟨7⟩), default⟩
    let size : Source.Expr := .property (.name "o" ⟨1, 1, 1⟩) "size" ⟨1, 2, 4⟩ true ⟨1, 6, 5⟩
    let e : Source.Expr := .call size [] ⟨1, 11, 2⟩
    (e.nodes.map Source.Expr.span).Nodup ∧
      lowerAlone ctx e =
        .ok ⟨[], .call .placeholder [], [⟨.uncalledExpansion, size.span⟩], 0, 1⟩ :=
  ⟨by decide, rfl⟩

end ExprLowering.Lowering
