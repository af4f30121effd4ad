import ExprLowering.Proofs.Likeness

/-!
# Wrappers never matter

Parentheses, non-null assertions and type assertions do not change a value, and lowering looks
through them wherever it looks at the form of an expression: at targets, callees, operands of
`delete` and types. Two expressions that are the same without their wrappers lower to the same
statements and the same value, and fail for the same reason. Only a span in a message may be that of
a wrapper.

## Main definitions

* `Expr.bare`: an expression without its wrappers.
* `SameOutcome`: two outcomes that differ at most in spans of wrappers.

## Main results

* `sameNode_of_bare`: expressions with the same bare form have the same form inside their wrappers.
* `wrappers_change_nothing`: expressions with the same bare form have the same outcome.
-/

namespace ExprLowering.Source

mutual

/-- The expression without wrappers at any depth. Everything else keeps its span. -/
def Expr.bare : Expr → Expr
  | .name text span => .name text span
  | .literal value span => .literal value span
  | .template head parts span => .template head (bareParts parts) span
  | .binary left op right span => .binary left.bare op right.bare span
  | .property object name nameSpan optional span =>
    .property object.bare name nameSpan optional span
  | .element object index optional span => .element object.bare index.bare optional span
  | .call callee args span => .call callee.bare (bareAll args) span
  | .delete operand span => .delete operand.bare span
  | .wrap _ inner _ => inner.bare

/-- The expressions of a list without wrappers. -/
def bareAll : List Expr → List Expr
  | [] => []
  | e :: es => e.bare :: bareAll es

/-- The substitutions of a template without wrappers. -/
def bareParts : List (Substitution Expr) → List (Substitution Expr)
  | [] => []
  | ⟨e, text, span⟩ :: parts => ⟨e.bare, text, span⟩ :: bareParts parts

end

theorem bare_unwrap (e : Expr) : e.unwrap.bare = e.bare := by
  fun_induction Expr.unwrap e with
  | case1 wrapper inner span ih => rw [ih, Expr.bare]
  | case2 e _ => rfl

theorem bareAll_eq_map (es : List Expr) : bareAll es = es.map Expr.bare := by
  induction es with
  | nil => rfl
  | cons e es ih => rw [bareAll, ih, List.map_cons]

theorem bareParts_eq_map (parts : List (Substitution Expr)) :
    bareParts parts = parts.map fun part => ⟨part.expr.bare, part.text, part.span⟩ := by
  induction parts with
  | nil => rfl
  | cons part parts ih => rw [bareParts, ih, List.map_cons]

theorem forall₂_of_map_eq {α β : Type} {f : α → β} {as bs : List α} (h : as.map f = bs.map f) :
    List.Forall₂ (fun a b => f a = f b) as bs := by
  rw [← List.forall₂_map_right_iff, ← List.forall₂_map_left_iff, List.forall₂_eq_eq_eq]
  exact h

/-- Expressions that are no wrappers have the same form if they are the same without those inside
them. -/
theorem sameNode_of_bare {a b : Expr} (ha : a.isWrapper = false) (hb : b.isWrapper = false)
    (h : a.bare = b.bare) : SameNode (fun x y => x.bare = y.bare) a b := by
  cases a with
  | name =>
    cases b with
    | name => cases h; exact .name
    | wrap => cases hb
    | _ => cases h
  | literal =>
    cases b with
    | literal => cases h; exact .literal
    | wrap => cases hb
    | _ => cases h
  | template =>
    cases b with
    | template =>
      rw [Expr.bare, Expr.bare, bareParts_eq_map, bareParts_eq_map] at h
      obtain ⟨rfl, hparts, rfl⟩ := Expr.template.inj h
      refine .template ((forall₂_of_map_eq hparts).imp fun p q hpq => ?_)
      obtain ⟨hexpr, htext, -⟩ := Substitution.mk.inj hpq
      exact ⟨hexpr, htext⟩
    | wrap => cases hb
    | _ => cases h
  | binary =>
    cases b with
    | binary =>
      obtain ⟨hleft, rfl, hright, rfl⟩ := Expr.binary.inj h
      exact .binary hleft hright
    | wrap => cases hb
    | _ => cases h
  | property =>
    cases b with
    | property =>
      obtain ⟨hobject, rfl, rfl, rfl, rfl⟩ := Expr.property.inj h
      exact .property hobject
    | wrap => cases hb
    | _ => cases h
  | element =>
    cases b with
    | element =>
      obtain ⟨hobject, hindex, rfl, rfl⟩ := Expr.element.inj h
      exact .element hobject hindex
    | wrap => cases hb
    | _ => cases h
  | call =>
    cases b with
    | call =>
      rw [Expr.bare, Expr.bare, bareAll_eq_map, bareAll_eq_map] at h
      obtain ⟨hcallee, hargs, rfl⟩ := Expr.call.inj h
      exact .call hcallee (forall₂_of_map_eq hargs)
    | wrap => cases hb
    | _ => cases h
  | delete =>
    cases b with
    | delete =>
      obtain ⟨hoperand, rfl⟩ := Expr.delete.inj h
      exact .delete hoperand
    | wrap => cases hb
    | _ => cases h
  | wrap => cases ha

theorem Expr.mem_nodes_self (e : Expr) : e ∈ e.nodes := Expr.mem_nodes_iff.2 (.inl rfl)

theorem Expr.nodes_subset_of_mem_children {e child : Expr} (h : child ∈ e.unwrap.children) :
    child.nodes ⊆ e.nodes := by
  intro m hm
  exact e.nodes_unwrap_subset (Expr.mem_nodes_iff.2 (.inr ⟨child, h, hm⟩))

end ExprLowering.Source

namespace ExprLowering.Lowering

open Source (SameNode)

/-- The spans of two expressions inside `e₁` and `e₂` that are the same without wrappers. Each span
may be that of a wrapper. -/
def SameSpot (e₁ e₂ : Source.Expr) (span₁ span₂ : Span) : Prop :=
  ∃ a ∈ e₁.nodes, ∃ b ∈ e₂.nodes, a.bare = b.bare ∧ a.span = span₁ ∧ b.span = span₂

/-- The same failure. What cannot be assigned to or deleted may be named with its wrappers. -/
inductive SameFailure (e₁ e₂ : Source.Expr) : Failure → Failure → Prop where
  | same (failure : Failure) : SameFailure e₁ e₂ failure failure
  | target {span₁ span₂ : Span} : SameSpot e₁ e₂ span₁ span₂ →
      SameFailure e₁ e₂ (.fault (.targetNotAssignable span₁)) (.fault (.targetNotAssignable span₂))
  | operand {span₁ span₂ : Span} : SameSpot e₁ e₂ span₁ span₂ →
      SameFailure e₁ e₂ (.fault (.operandNotDeletable span₁)) (.fault (.operandNotDeletable span₂))

/-- The same report. A value of type `any` may be named with its wrappers. -/
inductive SameReport (e₁ e₂ : Source.Expr) : Diagnostic → Diagnostic → Prop where
  | same (report : Diagnostic) : SameReport e₁ e₂ report report
  | anyValue {span₁ span₂ : Span} : SameSpot e₁ e₂ span₁ span₂ →
      SameReport e₁ e₂ ⟨.anyValue, span₁⟩ ⟨.anyValue, span₂⟩

/-- The same outcome for two expressions: the same failure, or the same statements, value and counts
with the same reports in the same order. -/
inductive SameOutcome (e₁ e₂ : Source.Expr) :
    Except Failure Output → Except Failure Output → Prop where
  | error {failure₁ failure₂ : Failure} : SameFailure e₁ e₂ failure₁ failure₂ →
      SameOutcome e₁ e₂ (.error failure₁) (.error failure₂)
  | ok {out₁ out₂ : Output} : out₁.stmts = out₂.stmts → out₁.value = out₂.value →
      out₁.logicalCount = out₂.logicalCount → out₁.chainCount = out₂.chainCount →
      List.Forall₂ (SameReport e₁ e₂) out₁.diagnostics out₂.diagnostics →
      SameOutcome e₁ e₂ (.ok out₁) (.ok out₂)

theorem sameSpot_of_bare {e₁ e₂ a b : Source.Expr} (ha : a.nodes ⊆ e₁.nodes)
    (hb : b.nodes ⊆ e₂.nodes) (h : a.bare = b.bare) : SameSpot e₁ e₂ a.span b.span :=
  ⟨a, ha a.mem_nodes_self, b, hb b.mem_nodes_self, h, rfl, rfl⟩

/-- Expressions inside `e₁` and `e₂` correspond if they are the same without wrappers. -/
def Likeness.ofBare (fold keep : Bool) (e₁ e₂ : Source.Expr) : Likeness fold keep keep where
  source a b := a.nodes ⊆ e₁.nodes ∧ b.nodes ⊆ e₂.nodes ∧ a.bare = b.bare
  temp := id
  stmt := id
  report := SameReport e₁ e₂
  failure := SameFailure e₁ e₂
  sameNode := by
    rintro a b ⟨ha, hb, hbare⟩
    rw [← Source.bare_unwrap a, ← Source.bare_unwrap b] at hbare
    refine (Source.sameNode_of_bare a.isWrapper_unwrap b.isWrapper_unwrap hbare).imp ?_
    intro x hx y hy hxy
    exact ⟨List.Subset.trans (Source.Expr.nodes_subset_of_mem_children hx) ha,
      List.Subset.trans (Source.Expr.nodes_subset_of_mem_children hy) hb, hxy⟩
  gapless := gapless_id
  declare _ _ := (Target.Stmt.renumber_id _).symm
  set _ _ := (Target.Stmt.renumber_id _).symm
  compound op place value := by rw [Target.Expr.renumber_id, Target.Expr.renumber_id]; rfl
  report_self := .same
  failure_self := .same
  anyValue h := .anyValue (sameSpot_of_bare h.1 h.2.1 h.2.2)
  targetNotAssignable h := .target (sameSpot_of_bare h.1 h.2.1 h.2.2)
  operandNotDeletable h := .operand (sameSpot_of_bare h.1 h.2.1 h.2.2)

/-- Wrappers never matter: expressions that are the same without them have the same outcome. -/
theorem wrappers_change_nothing (ctx : Context) {e₁ e₂ : Source.Expr} (h : e₁.bare = e₂.bare) :
    SameOutcome e₁ e₂ (lowerAlone ctx e₁) (lowerAlone ctx e₂) := by
  obtain ⟨facts, fold, keep⟩ := ctx
  have hsource : (Likeness.ofBare fold keep e₁ e₂).source e₁ e₂ :=
    ⟨List.Subset.refl _, List.Subset.refl _, h⟩
  obtain ⟨end₁, end₂, g₁, g₂, hrun₁, hrun₂, hend, hgrown⟩ :=
    Likeness.lowerAlone_alike hsource facts rfl
  rw [hrun₁, hrun₂]
  cases hend with
  | error hfailure => exact .error hfailure
  | ok value =>
    refine .ok ?_ (Target.Expr.renumber_id value).symm hgrown.logicals.symm hgrown.chains.symm
      hgrown.reports
    exact (hgrown.stmts.trans (List.map_id _)).symm

/-- In `x = o.m(delete o.k)` the target, the method that is called and the member that is deleted
are wrapped, and nothing changes. In `(f()) = 1` the target is not assignable, and it is named with
its parentheses. -/
theorem wrapped_call_and_deletion :
    let place (column : Nat) : Span := .point 1 column
    let ctx : Context := ⟨Facts.empty.withMethod (place 3), default⟩
    let member : Source.Expr := .property (.name "o" (place 1)) "m" (place 2) false (place 3)
    let gone : Source.Expr := .property (.name "o" (place 4)) "k" (place 5) false (place 6)
    let assigned (target callee operand : Source.Expr) : Source.Expr :=
      .binary target .assign (.call callee [.delete operand (place 8)] (place 9)) (place 10)
    let x : Source.Expr := .name "x" (place 7)
    let e₁ := assigned x member gone
    let e₂ := assigned (.wrap .parens x (place 11)) (.wrap .nonNull member (place 12))
      (.wrap (.assertion "any") (.wrap .parens gone (place 13)) (place 14))
    let f : Source.Expr := .call (.name "f" (place 15)) [] (place 16)
    let refused (target : Source.Expr) : Source.Expr :=
      .binary target .assign (.literal (.number "1") (place 17)) (place 18)
    let f₂ : Source.Expr := .wrap .parens f (place 19)
    (e₁.bare = e₂.bare ∧ SameOutcome e₁ e₂ (lowerAlone ctx e₁) (lowerAlone ctx e₂) ∧
        lowerAlone ctx e₁ = .ok ⟨[.declare ⟨0⟩ (.name "o"),
          .assign (.property (.name "o") "k") .set .nil,
          .declare ⟨1⟩ (.method (.temp ⟨0⟩) "m" [.nil]), .assign (.name "x") .set (.temp ⟨1⟩)],
          .temp ⟨1⟩, [], 0, 0⟩) ∧
      (refused f).bare = (refused f₂).bare ∧
        SameOutcome (refused f) (refused f₂) (lowerAlone ctx (refused f))
          (lowerAlone ctx (refused f₂)) ∧
        lowerAlone ctx (refused f) = .error (.fault (.targetNotAssignable (place 16))) ∧
        lowerAlone ctx (refused f₂) = .error (.fault (.targetNotAssignable (place 19))) :=
  ⟨⟨rfl, wrappers_change_nothing _ rfl, rfl⟩, rfl, wrappers_change_nothing _ rfl, rfl, rfl⟩

end ExprLowering.Lowering
