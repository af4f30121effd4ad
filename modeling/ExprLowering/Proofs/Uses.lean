import ExprLowering.Proofs.Reports
import Mathlib.Data.List.Nodup

/-!
# Uses of expressions

Each expression stands in a place where it is called, deleted, assigned to, or used as an operand,
and wrappers pass the use that is made of them on to what they wrap. Lowering comes to all the
expressions inside the one that it starts from, with one exception: of a call that is refused it
looks at the member that is called and at nothing else.

## Main definitions

* `Use`, `placed`: the uses, and the expressions directly inside another one with theirs.
* `uses`: everything inside an expression, with the use that is made of it.
* `ReachesAs`, `Meets`: the expressions that lowering comes to, with their uses.
* `Attended`: the expressions that lowering does something about.

## Main results

* `use_unique`: if all spans are different, an expression is used in one way only.
* `reachesAs_of_mem_visits`: whatever is visited is reached.
* `Meets.attended`: lowering attends to whatever it comes to, apart from what is assigned to.
-/

namespace ExprLowering.Source

/-- An expression comes first among its nodes, and the nodes of those directly inside it follow. -/
theorem Expr.nodes_eq (e : Expr) : e.nodes = e :: e.children.flatMap Expr.nodes := by
  have hall (es : List Expr) : nodesAll es = es.flatMap Expr.nodes := by
    induction es with
    | nil => rfl
    | cons e es ih => rw [nodesAll, ih, List.flatMap_cons]
  cases e with
  | template head parts span => rw [nodes, partNodes_eq, hall, children]
  | call callee args span => rw [nodes, hall, children, List.flatMap_cons]
  | name | literal | binary | property | element | delete | wrap => simp [nodes, children]

end ExprLowering.Source

namespace ExprLowering.Lowering

/-- How an expression is used, wrappers left aside. -/
inductive Use where
  /-- It is called. -/
  | called
  /-- It is deleted. -/
  | deleted
  /-- It is the target of an assignment. -/
  | assigned
  /-- Its value is used in another way. -/
  | operand
deriving DecidableEq, Repr

/-- An expression and the use that is made of it. -/
abbrev Placed := Use × Source.Expr

/-- The use that goes with a role. Targets of assignments are not lowered in a role of their own. -/
def Use.ofRole : Option Role → Use
  | some .callee => .called
  | some .deleted => .deleted
  | _ => .operand

theorem Use.ofRole_ne_assigned (role : Option Role) : Use.ofRole role ≠ .assigned := by
  unfold ofRole
  split <;> decide

theorem Use.ofRole_eq_called {role : Option Role} :
    Use.ofRole role = .called ↔ role = some .callee := by
  unfold ofRole
  split <;> simp_all

/-- The expressions directly inside an expression, with their uses. -/
def placed (use : Use) : Source.Expr → List Placed
  | .name .. | .literal .. => []
  | .template _ parts _ => parts.map fun part => (.operand, part.expr)
  | .binary left op right _ =>
    [(if op.isAssignment then .assigned else .operand, left), (.operand, right)]
  | .property object _ _ _ _ => [(.operand, object)]
  | .element object index _ _ => [(.operand, object), (.operand, index)]
  | .call callee args _ => (.called, callee) :: args.map fun arg => (.operand, arg)
  | .delete operand _ => [(.deleted, operand)]
  | .wrap _ inner _ => [(use, inner)]

theorem map_snd_placed (use : Use) (e : Source.Expr) :
    (placed use e).map Prod.snd = e.children := by
  cases e <;> simp [placed, Source.Expr.children, Function.comp_def]

theorem mem_children_of_mem_placed {use : Use} {e : Source.Expr} {p : Placed}
    (h : p ∈ placed use e) : p.2 ∈ e.children := by
  rw [← map_snd_placed use]
  exact List.mem_map_of_mem h

/-- An expression in its use, and everything inside it with its own. -/
def uses (use : Use) (e : Source.Expr) : List Placed :=
  (use, e) :: (placed use e).attach.flatMap fun p =>
    have := Source.Expr.sizeOf_lt_of_mem_children (mem_children_of_mem_placed p.2)
    uses p.1.1 p.1.2
termination_by sizeOf e

theorem uses_eq (use : Use) (e : Source.Expr) :
    uses use e = (use, e) :: (placed use e).flatMap fun p => uses p.1 p.2 := by
  have hmap := List.flatMap_map Subtype.val (fun p : Placed => uses p.1 p.2) (placed use e).attach
  rw [List.attach_map_subtype_val] at hmap
  rw [uses, hmap]

/-- All nodes of an expression have a use. -/
theorem map_snd_uses (use : Use) (e : Source.Expr) : (uses use e).map Prod.snd = e.nodes := by
  induction e using Source.Expr.child_induction generalizing use with
  | h e ih =>
    rw [uses_eq, List.map_cons, List.map_flatMap, Source.Expr.nodes_eq, ← map_snd_placed use,
      List.flatMap_map]
    refine congrArg (e :: ·) (List.flatMap_congr fun p hp => ?_)
    exact ih p.2 (mem_children_of_mem_placed hp) p.1

/-- If no two nodes have the same span, an expression is used in one way only. -/
theorem use_unique {use : Use} {e : Source.Expr} (hspans : (e.nodes.map Source.Expr.span).Nodup)
    {p q : Placed} (hp : p ∈ uses use e) (hq : q ∈ uses use e) (h : p.2.span = q.2.span) :
    p = q := by
  rw [← map_snd_uses use, List.map_map] at hspans
  exact List.inj_on_of_nodup_map hspans hp hq h

theorem mem_uses_self (use : Use) (e : Source.Expr) : (use, e) ∈ uses use e := by
  rw [uses_eq]
  exact List.mem_cons_self

theorem uses_subset_of_mem_placed {use : Use} {e : Source.Expr} {p : Placed}
    (h : p ∈ placed use e) : uses p.1 p.2 ⊆ uses use e := by
  intro q hq
  rw [uses_eq use e]
  exact List.mem_cons_of_mem _ (List.mem_flatMap.2 ⟨p, h, hq⟩)

theorem uses_subset_of_mem {use : Use} {e : Source.Expr} {p : Placed} (h : p ∈ uses use e) :
    uses p.1 p.2 ⊆ uses use e := by
  induction e using Source.Expr.child_induction generalizing use with
  | h e ih =>
    rw [uses_eq, List.mem_cons, List.mem_flatMap] at h
    rcases h with rfl | ⟨q, hq, hp⟩
    · exact List.Subset.refl _
    · exact List.Subset.trans (ih q.2 (mem_children_of_mem_placed hq) hp)
        (uses_subset_of_mem_placed hq)

/-- Wrappers pass their use on. -/
theorem unwrap_mem_uses (use : Use) (e : Source.Expr) : (use, e.unwrap) ∈ uses use e := by
  fun_induction Source.Expr.unwrap e with
  | case1 wrapper inner span ih => exact uses_subset_of_mem_placed (.head _) ih
  | case2 e _ => exact mem_uses_self use e

/-- A callee is called, whatever its wrappers. -/
theorem called_mem_uses {e callee : Source.Expr} {args : List Source.Expr} {span : Span}
    (h : .call callee args span ∈ e.nodes) (use : Use) : (.called, callee.unwrap) ∈ uses use e := by
  rw [← map_snd_uses use] at h
  obtain ⟨⟨v, _⟩, hcall, rfl⟩ := List.mem_map.1 h
  have hcallee : ((.called, callee) : Placed) ∈ placed v (.call callee args span) := .head _
  exact uses_subset_of_mem hcall
    (uses_subset_of_mem_placed hcallee (unwrap_mem_uses .called callee))

-- ════════════════════════════════════════════════════════════════════════
-- Expressions that lowering comes to
-- ════════════════════════════════════════════════════════════════════════

/-- The second expression in its use is the first one or stands inside it, and not inside a refused
call. -/
inductive ReachesAs (facts : Facts) : Use → Source.Expr → Use → Source.Expr → Prop where
  | here {use e} : ReachesAs facts use e use e
  | inside {use e p v d} : isRefusedCall facts e = false → p ∈ placed use e →
      ReachesAs facts p.1 p.2 v d → ReachesAs facts use e v d

/-- Lowering the first expression comes to the second one in its use: it reaches this expression, or
it reaches a refused call and finds the member that is called. -/
def Meets (facts : Facts) (use : Use) (e : Source.Expr) (v : Use) (d : Source.Expr) : Prop :=
  ReachesAs facts use e v d ∨
    ∃ w callee args span, ReachesAs facts use e w (.call callee args span) ∧
      isRefusedCall facts (.call callee args span) = true ∧ v = .called ∧ d = callee.unwrap

variable {facts : Facts} {use v : Use} {e d : Source.Expr}

namespace ReachesAs

theorem trans {w : Use} {c : Source.Expr} (h : ReachesAs facts use e v d)
    (h' : ReachesAs facts v d w c) : ReachesAs facts use e w c := by
  induction h with
  | here => exact h'
  | inside hcall hp _ ih => exact .inside hcall hp (ih h')

theorem unwrap (facts : Facts) (use : Use) (e : Source.Expr) :
    ReachesAs facts use e use e.unwrap := by
  fun_induction Source.Expr.unwrap e with
  | case1 wrapper inner span ih => exact .inside rfl (.head _) ih
  | case2 e _ => exact .here

theorem reaches (h : ReachesAs facts use e v d) : Reaches facts e d := by
  induction h with
  | here => exact .here
  | inside hcall hp _ ih => exact .inside hcall (mem_children_of_mem_placed hp) ih

theorem mem_uses (h : ReachesAs facts use e v d) : (v, d) ∈ uses use e := by
  induction h with
  | here => exact mem_uses_self _ _
  | inside _ hp _ ih => exact uses_subset_of_mem_placed hp ih

end ReachesAs

/-- What is reached has a use. -/
theorem Reaches.exists_use (h : Reaches facts e d) (use : Use) :
    ∃ v, ReachesAs facts use e v d := by
  induction h generalizing use with
  | here => exact ⟨use, .here⟩
  | inside hcall hchild _ ih =>
    rw [← map_snd_placed use] at hchild
    obtain ⟨p, hp, rfl⟩ := List.mem_map.1 hchild
    obtain ⟨v, hv⟩ := ih p.1
    exact ⟨v, .inside hcall hp hv⟩

-- ════════════════════════════════════════════════════════════════════════
-- Visits
-- ════════════════════════════════════════════════════════════════════════

/-- A visited expression with the use that goes with its role. -/
def Visit.placed (p : Visit) : Placed := (.ofRole p.1, p.2)

theorem map_placed_asOperands (es : List Source.Expr) :
    (asOperands es).map Visit.placed = es.map fun e => (.operand, e) := by
  simp [asOperands, Visit.placed, Use.ofRole, Function.comp_def]

/-- Apart from targets of assignments and called members, whatever stands directly inside an
expression is lowered as a part of it. -/
theorem map_placed_parts (facts : Facts) (role : Option Role) (e : Source.Expr) :
    (parts facts role e).map Visit.placed = placed (.ofRole role) e ∨
      (∃ left op right span, e = .binary left op right span ∧ op.isAssignment = true) ∨
      ∃ callee args span, e = .call callee args span ∧ callForm facts callee ≠ .plain := by
  cases e with
  | binary left op right span =>
    cases hop : op.isAssignment with
    | true => exact .inr (.inl ⟨left, op, right, span, rfl, hop⟩)
    | false =>
      refine .inl ?_
      rw [parts_simple _ _ hop, map_placed_asOperands, placed, hop]
      rfl
  | call callee args span =>
    by_cases hform : callForm facts callee = .plain
    · refine .inl ?_
      rw [parts_plainCall hform, List.map_cons, map_placed_asOperands]
      rfl
    · exact .inr (.inr ⟨callee, args, span, rfl, hform⟩)
  | template head parts span =>
    refine .inl ?_
    rw [Lowering.parts, map_placed_asOperands, placed, List.map_map]
    rfl
  | name | literal | property | element | delete | wrap => exact .inl rfl

/-- A call of a method and an expanded call lower the object of the member and the arguments. -/
theorem parts_specialCall {callee : Source.Expr} {args : List Source.Expr} {span : Span}
    (hform : callForm facts callee ≠ .plain)
    (hcall : isRefusedCall facts (.call callee args span) = false) (role : Option Role) :
    parts facts role (.call callee args span) = memberParts callee ++ asOperands args := by
  rw [isRefusedCall_eq] at hcall
  rw [parts]
  cases h : callForm facts callee with
  | refused object =>
    rw [h] at hcall
    cases hcall
  | expanded | method => rfl
  | plain => exact absurd h hform

/-- Nothing in a refused call is lowered. -/
theorem parts_refusedCall (h : isRefusedCall facts e = true) (role : Option Role) :
    parts facts role e = [] := by
  cases e with
  | call callee args span =>
    rw [isRefusedCall_eq] at h
    rw [parts]
    cases hform : callForm facts callee with
    | refused object => rfl
    | expanded | method | plain =>
      rw [hform] at h
      cases h
  | name | literal | template | binary | property | element | delete | wrap => cases h

theorem isRefusedCall_of_mem_parts {role : Option Role} {p : Visit} (h : p ∈ parts facts role e) :
    isRefusedCall facts e = false := by
  cases hcall : isRefusedCall facts e with
  | false => rfl
  | true =>
    rw [parts_refusedCall hcall] at h
    cases h

/-- A target that can be assigned to is a name or a member access, and all that stands directly
inside it is lowered. -/
theorem map_placed_target {form : Source.Expr → CallForm} {written : Span} (use : Use) :
    ∀ left : Source.Expr, targetFailures form written left = [] →
      (memberParts left).map Visit.placed = placed use left.unwrap
  | .name .., _ | .property _ _ _ false _, _ | .element _ _ false _, _ => rfl
  | .wrap _ inner _, h => by
    rw [targetFailures] at h
    exact map_placed_target use inner h
  | .property _ _ _ true _, h | .element _ _ true _, h | .literal .., h | .template .., h
  | .binary .., h | .call .., h | .delete .., h => by cases h

/-- The object of a member is lowered, however the member is called. -/
theorem map_placed_callee {callee : Source.Expr} (h : callForm facts callee ≠ .plain) (use : Use) :
    (memberParts callee).map Visit.placed = placed use callee.unwrap := by
  obtain ⟨object, name, nameSpan, span, hunwrap⟩ := exists_unwrap_of_callForm h
  rw [memberParts, hunwrap]
  rfl

theorem reachesAs_of_mem_memberParts {p : Visit} (h : p ∈ memberParts e) (facts : Facts)
    (use : Use) : ReachesAs facts use e (.ofRole p.1) p.2 := by
  refine (ReachesAs.unwrap facts use e).trans ?_
  rw [memberParts] at h
  cases hunwrap : e.unwrap with
  | property object name nameSpan optional span =>
    rw [hunwrap] at h
    obtain rfl := List.mem_singleton.1 h
    exact .inside rfl (.head _) .here
  | element object index optional span =>
    rw [hunwrap] at h
    rcases List.mem_pair.1 h with rfl | rfl
    · exact .inside rfl (.head _) .here
    · exact .inside rfl (.tail _ (.head _)) .here
  | name | literal | template | binary | call | delete | wrap =>
    rw [hunwrap] at h
    cases h

theorem mem_placed_target {op : Source.Operator} (hop : op.isAssignment = true) (use : Use)
    (left right : Source.Expr) (span : Span) :
    (.assigned, left) ∈ placed use (.binary left op right span) := by
  rw [placed, if_pos hop]
  exact .head _

theorem reachesAs_of_mem_parts {role : Option Role} {p : Visit} (h : p ∈ parts facts role e) :
    ReachesAs facts (.ofRole role) e (.ofRole p.1) p.2 := by
  have hcall := isRefusedCall_of_mem_parts h
  rcases map_placed_parts facts role e with
    hparts | ⟨left, op, right, span, rfl, hop⟩ | ⟨callee, args, span, rfl, hform⟩
  · have hp : p.placed ∈ placed (.ofRole role) e := hparts ▸ List.mem_map_of_mem h
    exact .inside hcall hp .here
  · rw [parts_assignment _ _ hop, List.mem_append] at h
    rcases h with hleft | hright
    · exact .inside rfl (mem_placed_target hop _ left right span)
        (reachesAs_of_mem_memberParts hleft facts .assigned)
    · obtain rfl := List.mem_singleton.1 hright
      exact .inside rfl (.tail _ (.head _)) .here
  · rw [parts_specialCall hform hcall, List.mem_append] at h
    rcases h with hcallee | harg
    · exact .inside hcall (.head _) (reachesAs_of_mem_memberParts hcallee facts .called)
    · obtain ⟨arg, hmem, rfl⟩ := List.mem_map.1 harg
      exact .inside hcall (.tail _ (List.mem_map_of_mem hmem)) .here

/-- Whatever is visited is reached. -/
theorem reachesAs_of_mem_visits {role : Option Role} {p : Visit} (h : p ∈ visits facts role e) :
    ReachesAs facts (.ofRole role) e (.ofRole p.1) p.2 := by
  induction role, e using parts_induction facts with
  | h role e ih =>
    rw [visits_eq, List.mem_append, List.mem_singleton] at h
    rcases h with hinside | rfl
    · obtain ⟨q, hq, hp⟩ := List.mem_flatMap.1 hinside
      exact (reachesAs_of_mem_parts hq).trans (ih q hq hp)
    · exact .here

/-- An expression in its use is among the visited ones, or it is the member in a visited call that
is not lowered with its callee. -/
def Attended (facts : Facts) (vs : List Visit) (use : Use) (d : Source.Expr) : Prop :=
  (∃ role, Use.ofRole role = use ∧ (role, d) ∈ vs) ∨
    ∃ role callee args span, (role, .call callee args span) ∈ vs ∧
      callForm facts callee ≠ .plain ∧ use = .called ∧ callee.unwrap = d

theorem Attended.mono {vs ws : List Visit} (h : Attended facts vs use d) (hsub : vs ⊆ ws) :
    Attended facts ws use d := by
  rcases h with ⟨role, hrole, hmem⟩ | ⟨role, callee, args, span, hmem, hcall⟩
  · exact .inl ⟨role, hrole, hsub hmem⟩
  · exact .inr ⟨role, callee, args, span, hsub hmem, hcall⟩

/-- What is reached in wrappers around an expression is this expression itself, or it is reached in
one of the parts. -/
theorem ReachesAs.in_memberParts (h : ReachesAs facts use e v d) (hd : d.isWrapper = false)
    (hparts : (memberParts e).map Visit.placed = placed use e.unwrap) :
    (v = use ∧ d = e.unwrap) ∨ ∃ p ∈ memberParts e, ReachesAs facts (.ofRole p.1) p.2 v d := by
  fun_induction Source.Expr.unwrap e with
  | case1 wrapper inner span ih =>
    cases h with
    | here => cases hd
    | inside _ hp hrest =>
      obtain rfl := List.mem_singleton.1 hp
      exact ih hrest hparts
  | case2 e _ =>
    cases h with
    | here => exact .inl ⟨rfl, rfl⟩
    | inside _ hp hrest =>
      rw [← hparts] at hp
      obtain ⟨q, hq, rfl⟩ := List.mem_map.1 hp
      exact .inr ⟨q, hq, hrest⟩

theorem targetFailures_unwrap (form : Source.Expr → CallForm) (written : Span) (e : Source.Expr) :
    targetFailures form written e.unwrap = targetFailures form written e := by
  fun_induction Source.Expr.unwrap e with
  | case1 wrapper inner span ih => rw [ih, targetFailures]
  | case2 e _ => rfl

/-- Whatever is reached is attended to, apart from wrappers and from what is assigned to. -/
theorem ReachesAs.attended {role : Option Role} (hok : failures (callForm facts) e = [])
    (h : ReachesAs facts (.ofRole role) e v d) (hd : d.isWrapper = false)
    (htarget : v = .assigned → ∀ written, targetFailures (callForm facts) written d ≠ []) :
    Attended facts (visits facts role e) v d := by
  induction role, e using parts_induction facts with
  | h role e ih =>
    have hpart {p : Visit} (hp : p ∈ parts facts role e)
        (hrest : ReachesAs facts (.ofRole p.1) p.2 v d) :
        Attended facts (visits facts role e) v d := by
      have hpartOk : failures (callForm facts) p.2 = [] := by
        by_contra hfails
        exact (reachesAs_of_mem_parts hp).reaches.failures_ne_nil hfails hok
      exact (ih p hp hpartOk hrest).mono (visits_subset_of_mem_parts hp)
    cases h with
    | here => exact .inl ⟨role, rfl, mem_visits_self facts role _⟩
    | inside hcall hp hrest =>
      rcases map_placed_parts facts role e with
        hparts | ⟨left, op, right, span, rfl, hop⟩ | ⟨callee, args, span, rfl, hform⟩
      · rw [← hparts] at hp
        obtain ⟨q, hq, rfl⟩ := List.mem_map.1 hp
        exact hpart hq hrest
      · have hparts := parts_assignment facts role hop left right span
        rw [placed, if_pos hop] at hp
        rcases List.mem_pair.1 hp with rfl | rfl
        · have hleft : targetFailures (callForm facts) left.span left = [] := by
            rw [failures, if_pos hop] at hok
            simp only [List.append_eq_nil_iff] at hok
            exact hok.2.1.1
          rcases hrest.in_memberParts hd (map_placed_target .assigned left hleft) with
            ⟨rfl, rfl⟩ | ⟨q, hq, hinside⟩
          · rw [← targetFailures_unwrap] at hleft
            exact absurd hleft (htarget rfl _)
          · exact hpart (hparts ▸ List.mem_append_left _ hq) hinside
        · have hright : (some .operand, right) ∈ parts facts role (.binary left op right span) :=
            hparts ▸ List.mem_append_right _ (.head _)
          exact hpart hright hrest
      · have hparts := parts_specialCall hform hcall role
        rcases List.mem_cons.1 hp with rfl | harg
        · rcases hrest.in_memberParts hd (map_placed_callee hform .called) with
            ⟨rfl, rfl⟩ | ⟨q, hq, hinside⟩
          · exact .inr ⟨role, callee, args, span, mem_visits_self .., hform, rfl, rfl⟩
          · exact hpart (hparts ▸ List.mem_append_left _ hq) hinside
        · obtain ⟨arg, hmem, rfl⟩ := List.mem_map.1 harg
          have harg : (some .operand, arg) ∈ parts facts role (.call callee args span) :=
            hparts ▸ List.mem_append_right _ (List.mem_map_of_mem hmem)
          exact hpart harg hrest

/-- Lowering attends to whatever it comes to, apart from wrappers and from what is assigned to. -/
theorem Meets.attended {role : Option Role} (hok : failures (callForm facts) e = [])
    (h : Meets facts (.ofRole role) e v d) (hd : d.isWrapper = false) (hv : v ≠ .assigned) :
    Attended facts (visits facts role e) v d := by
  rcases h with hreach | ⟨w, callee, args, span, hcall, hrefused, rfl, rfl⟩
  · exact hreach.attended hok hd fun hv' => absurd hv' hv
  · -- A call is no target, so it is visited itself.
    rcases hcall.attended hok rfl fun _ _ => List.cons_ne_nil _ _ with
      ⟨callRole, -, hmem⟩ | ⟨_, other, _, _, _, hform, -, hunwrap⟩
    · refine .inr ⟨callRole, callee, args, span, hmem, ?_, rfl, rfl⟩
      intro hplain
      rw [isRefusedCall_eq, hplain] at hrefused
      cases hrefused
    · obtain ⟨_, _, _, _, hmember⟩ := exists_unwrap_of_callForm hform
      rw [hunwrap] at hmember
      cases hmember

end ExprLowering.Lowering
