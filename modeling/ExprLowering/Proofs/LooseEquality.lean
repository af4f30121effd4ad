import ExprLowering.Proofs.Failures

/-!
# Comparisons after conversion

The operators `==` and `!=` have no counterpart in the target and are refused. Lowering fails as
soon as it comes to one of them, however deep it stands. It comes to every expression but those
inside a call that is refused because its object has type `any`: neither the callee nor the
arguments of such a call are lowered.

## Main definitions

* `Reaches`: an expression stands inside another one, and not inside a refused call.

## Main results

* `loose_comparison_fails`: an expression that reaches a comparison after conversion does not lower.
-/

namespace ExprLowering.Source

/-- The expressions directly inside an expression. -/
def Expr.children : Expr → List Expr
  | .name .. | .literal .. => []
  | .template _ parts _ => parts.map (·.expr)
  | .binary left _ right _ => [left, right]
  | .property object _ _ _ _ => [object]
  | .element object index _ _ => [object, index]
  | .call callee args _ => callee :: args
  | .delete operand _ => [operand]
  | .wrap _ inner _ => [inner]

theorem mem_nodesAll {d : Expr} {es : List Expr} : d ∈ nodesAll es ↔ ∃ e ∈ es, d ∈ e.nodes := by
  induction es with
  | nil => simp [nodesAll]
  | cons e es ih => simp [nodesAll, ih]

theorem Expr.mem_nodes_iff {d e : Expr} :
    d ∈ e.nodes ↔ d = e ∨ ∃ child ∈ e.children, d ∈ child.nodes := by
  cases e with
  | template head parts span =>
    rw [nodes, List.mem_cons, partNodes_eq, mem_nodesAll, children]
  | name | literal | binary | property | element | call | delete | wrap =>
    simp [nodes, children, mem_nodesAll]

theorem Expr.sizeOf_lt_of_mem_children {e child : Expr} (h : child ∈ e.children) :
    sizeOf child < sizeOf e := by
  cases e with
  | template head parts span =>
    obtain ⟨⟨e, text, partSpan⟩, hpart, rfl⟩ := List.mem_map.1 h
    have := List.sizeOf_lt_of_mem hpart
    simp at this ⊢
    omega
  | call callee args span =>
    rcases List.mem_cons.1 h with rfl | harg
    · simp
      omega
    · have := List.sizeOf_lt_of_mem harg
      simp
      omega
  | name | literal => cases h
  | binary | property | element | delete | wrap =>
    simp [children] at h ⊢
    grind

/-- Induction on expressions: what holds of an expression if it holds of those directly inside it
holds of all. -/
@[elab_as_elim]
theorem Expr.child_induction {motive : Expr → Prop}
    (h : ∀ e, (∀ child ∈ e.children, motive child) → motive e) (e : Expr) : motive e :=
  h e fun child hchild =>
    have := sizeOf_lt_of_mem_children hchild
    child_induction h child
termination_by sizeOf e

/-- Whether an expression is itself a comparison after conversion. -/
def Expr.isLoose : Expr → Bool
  | .binary _ .looseEq _ _ | .binary _ .looseNe _ _ => true
  | _ => false

end ExprLowering.Source

namespace ExprLowering.Lowering

/-- Whether a call is refused. -/
def CallForm.isRefused : CallForm → Bool
  | .refused _ => true
  | .expanded _ | .method _ | .plain => false

/-- Whether an expression is a call of a member of an object with type `any`. Members behind an
optional access do not count. -/
def isRefusedCall (facts : Facts) : Source.Expr → Bool
  | .call callee _ _ =>
    match callee.unwrap with
    | .property object _ _ false _ => (facts.typeOf object).isAny
    | _ => false
  | _ => false

/-- These are the calls that are lowered to a placeholder. -/
theorem isRefusedCall_eq (facts : Facts) (callee : Source.Expr) (args : List Source.Expr)
    (span : Span) :
    isRefusedCall facts (.call callee args span) = (callForm facts callee).isRefused := by
  rw [isRefusedCall, callForm]
  generalize callee.unwrap = access
  cases access with
  | property object name nameSpan optional accessSpan =>
    cases optional with
    | true => rfl
    | false =>
      dsimp only
      cases (facts.typeOf object).isAny with
      | true => rfl
      | false =>
        cases facts.expanderAt? accessSpan with
        | some expander => rfl
        | none => cases facts.isMethodAt accessSpan <;> rfl
  | name | literal | template | binary | element | call | delete | wrap => rfl

/-- The second expression is the first one or stands inside it, and not inside a refused call. -/
inductive Reaches (facts : Facts) : Source.Expr → Source.Expr → Prop where
  | here {e} : Reaches facts e e
  | inside {e child d} : isRefusedCall facts e = false → child ∈ e.children →
      Reaches facts child d → Reaches facts e d

variable {form : Source.Expr → CallForm}

theorem failures_ne_nil_of_isLoose {d : Source.Expr} (h : d.isLoose = true) :
    failures form d ≠ [] := by
  unfold Source.Expr.isLoose at h
  split at h
  · simp [failures, operatorFailures]
  · simp [failures, operatorFailures]
  · cases h

/-- A target with failures in it is walked, or is no target at all. -/
theorem targetFailures_ne_nil (written : Span) :
    ∀ left : Source.Expr, failures form left ≠ [] → targetFailures form written left ≠ []
  | .name .., h => absurd rfl h
  | .property object _ _ false _, h => by
    rw [failures] at h
    rwa [targetFailures]
  | .element object index false _, h => by
    rw [failures] at h
    rwa [targetFailures]
  | .wrap _ inner _, h => by
    rw [failures] at h
    rw [targetFailures]
    exact targetFailures_ne_nil written inner h
  | .property _ _ _ true _, _ | .element _ _ true _, _ | .literal .., _ | .template .., _
  | .binary .., _ | .call .., _ | .delete .., _ => List.cons_ne_nil _ _

theorem eq_nil_of_callFailures {form : CallForm} {inside : List Failure}
    (hform : form.isRefused = false) (h : callFailures form inside = []) : inside = [] := by
  cases form with
  | refused object => cases hform
  | expanded expander => exact (List.append_eq_nil_iff.1 h).1
  | method | plain => exact h

/-- What fails inside an expression makes the expression fail, unless it is a refused call. -/
theorem failures_ne_nil_of_child {facts : Facts} {e child : Source.Expr}
    (hcall : isRefusedCall facts e = false) (hchild : child ∈ e.children)
    (h : failures (callForm facts) child ≠ []) : failures (callForm facts) e ≠ [] := by
  intro hnone
  cases e with
  | name | literal => cases hchild
  | template head parts span =>
    rw [failures, partFailures_eq_flatMap] at hnone
    exact h (List.flatMap_eq_nil_iff.1 hnone child hchild)
  | binary left op right span =>
    have hside : child = left ∨ child = right := by simpa [Source.Expr.children] using hchild
    rw [failures] at hnone
    obtain ⟨-, hsides⟩ := List.append_eq_nil_iff.1 hnone
    split at hsides
    · simp only [List.append_eq_nil_iff] at hsides
      obtain ⟨⟨htarget, hright⟩, -⟩ := hsides
      rcases hside with rfl | rfl
      · exact targetFailures_ne_nil _ _ h htarget
      · exact h hright
    · obtain ⟨hleft, hright⟩ := List.append_eq_nil_iff.1 hsides
      rcases hside with rfl | rfl
      · exact h hleft
      · exact h hright
  | property object name nameSpan optional span =>
    obtain rfl := List.mem_singleton.1 hchild
    rw [failures] at hnone
    exact h hnone
  | element object index optional span =>
    have hpart : child = object ∨ child = index := by simpa [Source.Expr.children] using hchild
    rw [failures] at hnone
    obtain ⟨hobject, hindex⟩ := List.append_eq_nil_iff.1 hnone
    rcases hpart with rfl | rfl
    · exact h hobject
    · exact h hindex
  | call callee args span =>
    rw [isRefusedCall_eq] at hcall
    rw [failures, failuresAll_eq_flatMap] at hnone
    obtain ⟨hcallee, hargs⟩ := List.append_eq_nil_iff.1 (eq_nil_of_callFailures hcall hnone)
    rcases List.mem_cons.1 hchild with rfl | harg
    · exact h hcallee
    · exact h (List.flatMap_eq_nil_iff.1 hargs child harg)
  | delete operand span =>
    obtain rfl := List.mem_singleton.1 hchild
    rw [failures] at hnone
    exact h (List.append_eq_nil_iff.1 hnone).2
  | wrap wrapper inner span =>
    obtain rfl := List.mem_singleton.1 hchild
    rw [failures] at hnone
    exact h hnone

theorem Reaches.failures_ne_nil {facts : Facts} {e d : Source.Expr} (hreach : Reaches facts e d)
    (h : failures (callForm facts) d ≠ []) : failures (callForm facts) e ≠ [] := by
  induction hreach with
  | here => exact h
  | inside hcall hchild _ ih => exact failures_ne_nil_of_child hcall hchild (ih h)

/-- Without refused calls everything inside an expression is reached. -/
theorem reaches_of_mem_nodes {facts : Facts} {e d : Source.Expr}
    (hcalls : ∀ c ∈ e.nodes, isRefusedCall facts c = false) (hd : d ∈ e.nodes) :
    Reaches facts e d := by
  induction e using Source.Expr.child_induction with
  | h e ih =>
    rcases Source.Expr.mem_nodes_iff.1 hd with rfl | ⟨child, hchild, hmem⟩
    · exact .here
    · have hnodes (c : Source.Expr) (hc : c ∈ child.nodes) : c ∈ e.nodes :=
        Source.Expr.mem_nodes_iff.2 (.inr ⟨child, hchild, hc⟩)
      have hself : e ∈ e.nodes := Source.Expr.mem_nodes_iff.2 (.inl rfl)
      exact .inside (hcalls e hself) hchild
        (ih child hchild (fun c hc => hcalls c (hnodes c hc)) hmem)

/-- A refused call lowers, whatever stands in it. -/
theorem lowerAlone_refusedCall {ctx : Context} {e : Source.Expr}
    (h : isRefusedCall ctx.facts e = true) : ∃ out, lowerAlone ctx e = .ok out := by
  cases e with
  | call callee args span =>
    obtain ⟨object, hform⟩ : ∃ object, callForm ctx.facts callee = .refused object := by
      rw [isRefusedCall_eq] at h
      cases hform : callForm ctx.facts callee with
      | refused object => exact ⟨object, rfl⟩
      | expanded | method | plain =>
        rw [hform] at h
        cases h
    exact ⟨_, lowerAlone_eq_ok_iff.2 ⟨_, _, .refusedCall hform, rfl⟩⟩
  | name | literal | template | binary | property | element | delete | wrap => cases h

/-- An expression does not lower if it reaches a comparison after conversion. If none of its calls
is refused, it does not lower if there is such a comparison anywhere in it. But a refused call
lowers, with or without such a comparison in it. -/
theorem loose_comparison_fails {ctx : Context} {e d : Source.Expr} (hloose : d.isLoose = true) :
    (Reaches ctx.facts e d → ∃ failure, lowerAlone ctx e = .error failure) ∧
      ((∀ c ∈ e.nodes, isRefusedCall ctx.facts c = false) → d ∈ e.nodes →
        ∃ failure, lowerAlone ctx e = .error failure) ∧
      (isRefusedCall ctx.facts e = true → ∃ out, lowerAlone ctx e = .ok out) := by
  have hfails (hreach : Reaches ctx.facts e d) : ∃ failure, lowerAlone ctx e = .error failure := by
    have hsome := hreach.failures_ne_nil (failures_ne_nil_of_isLoose hloose)
    obtain ⟨failure, rest, hlist⟩ := List.exists_cons_of_ne_nil hsome
    have hfirst := failure?_lowerAlone ctx e
    rw [hlist] at hfirst
    exact ⟨failure, failure?_eq_some.1 hfirst⟩
  exact ⟨hfails, fun hcalls hd => hfails (reaches_of_mem_nodes hcalls hd), lowerAlone_refusedCall⟩

/-- In `a.f() + (x == y)`, where `a` has type `any`, the comparison is reached in spite of the
refused call. In `delete o[x = (y != z)]` no call is refused. -/
theorem comparison_beside_refused_call :
    let name (text : String) (column : Nat) : Source.Expr := .name text ⟨1, column, 1⟩
    let ctx : Context := ⟨Facts.empty.withType ⟨1, 1, 1⟩ (.ofTags .any), default⟩
    let refused : Source.Expr :=
      .call (.property (name "a" 1) "f" ⟨1, 2, 1⟩ false ⟨1, 3, 1⟩) [] ⟨1, 4, 1⟩
    let equal : Source.Expr := .binary (name "x" 5) .looseEq (name "y" 6) ⟨1, 7, 2⟩
    let unequal : Source.Expr := .binary (name "y" 3) .looseNe (name "z" 4) ⟨1, 5, 2⟩
    let deletion : Source.Expr :=
      .delete (.element (name "o" 1) (.binary (name "x" 2) .assign unequal ⟨1, 7, 1⟩) false
        ⟨1, 8, 1⟩) ⟨1, 9, 1⟩
    isRefusedCall ctx.facts refused = true ∧ (∃ out, lowerAlone ctx refused = .ok out) ∧
      (∃ failure, lowerAlone ctx
        (.binary refused (.calculation (.arithmetic .add)) equal ⟨1, 9, 1⟩) = .error failure) ∧
      ∃ failure, lowerAlone ctx deletion = .error failure := by
  intro name ctx refused equal unequal deletion
  have hequal : equal.isLoose = true := rfl
  have hunequal : unequal.isLoose = true := rfl
  have hrefused : isRefusedCall ctx.facts refused = true := by decide
  refine ⟨hrefused, (loose_comparison_fails hequal).2.2 hrefused,
    (loose_comparison_fails hequal).1 ?_, (loose_comparison_fails hunequal).2.1 ?_ ?_⟩
  · exact .inside rfl (.tail _ (.head _)) .here
  · simp [deletion, unequal, name, Source.Expr.nodes, isRefusedCall]
  · simp [deletion, unequal, name, Source.Expr.nodes]

/-- The arguments of a refused call are not lowered, and a comparison among them is not found: of
`a.f(x == y)`, where `a` has type `any`, only the call is reported. -/
theorem refused_call_hides_comparison :
    let name (text : String) (column : Nat) : Source.Expr := .name text ⟨1, column, 1⟩
    let ctx : Context := ⟨Facts.empty.withType ⟨1, 1, 1⟩ (.ofTags .any), default⟩
    let equal : Source.Expr := .binary (name "x" 5) .looseEq (name "y" 6) ⟨1, 7, 2⟩
    let e : Source.Expr :=
      .call (.property (name "a" 1) "f" ⟨1, 2, 1⟩ false ⟨1, 3, 1⟩) [equal] ⟨1, 9, 1⟩
    equal.isLoose = true ∧ equal ∈ e.nodes ∧
      lowerAlone ctx e = .ok ⟨[], .placeholder, [⟨.anyValue, ⟨1, 1, 1⟩⟩], 0, 0⟩ := by
  intro name ctx equal e
  have hany : (StaticType.ofTags .any).isAny = true := by decide
  have hform : callForm ctx.facts (.property (name "a" 1) "f" ⟨1, 2, 1⟩ false ⟨1, 3, 1⟩) =
      .refused ⟨1, 1, 1⟩ := if_pos hany
  refine ⟨rfl, ?_, lowerAlone_eq_ok_iff.2 ⟨_, _, .refusedCall hform, rfl⟩⟩
  simp [e, equal, name, Source.Expr.nodes, Source.nodesAll]

end ExprLowering.Lowering
