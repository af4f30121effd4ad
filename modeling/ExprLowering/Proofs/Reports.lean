import ExprLowering.Proofs.LooseEquality

/-!
# What is reported

Besides code a lowering gives out diagnostics and counts. Both come from the expressions that it
visits, each of them in a role, and an expression is visited after the expressions inside it. Which
expressions are visited depends on what is known about the program and not on the options.

## Main definitions

* `parts`: the expressions that are lowered on the way to a given one, with their roles.
* `visits`: all expressions that are lowered, in order.
* `verdict`: the first failure, or all diagnostics and counts.

## Main results

* `parts_induction`: induction along the parts.
* `Lowers.account`: derivations report and count what belongs to the visited expressions.
* `options_change_no_report`: the options change neither the failure nor what is reported.
-/

namespace ExprLowering.Lowering

open Target (Expr)

-- ════════════════════════════════════════════════════════════════════════
-- The expressions that are lowered
-- ════════════════════════════════════════════════════════════════════════

/-- An expression and the role in which it is lowered. -/
abbrev Visit := Option Role × Source.Expr

/-- The expressions as operands. -/
def asOperands (es : List Source.Expr) : List Visit := es.map fun e => (some .operand, e)

/-- What is lowered of a member access that is not read, inside all its wrappers: the object, and
the index if there is one. -/
def memberParts (e : Source.Expr) : List Visit :=
  match e.unwrap with
  | .property object _ _ _ _ => asOperands [object]
  | .element object index _ _ => asOperands [object, index]
  | _ => []

/-- The expressions that are lowered as parts of an expression, from left to right. The target of an
assignment and the callee in a call of a method are not read, and of a refused call nothing is
lowered. -/
def parts (facts : Facts) (role : Option Role) : Source.Expr → List Visit
  | .name .. | .literal .. => []
  | .template _ parts _ => asOperands (parts.map (·.expr))
  | .binary left op right _ =>
    if op.isAssignment then memberParts left ++ asOperands [right] else asOperands [left, right]
  | .property object _ _ _ _ => asOperands [object]
  | .element object index _ _ => asOperands [object, index]
  | .call callee args _ =>
    match callForm facts callee with
    | .refused _ => []
    | .expanded _ | .method _ => memberParts callee ++ asOperands args
    | .plain => (some .callee, callee) :: asOperands args
  | .delete operand _ => [(some .deleted, operand)]
  | .wrap _ inner _ => [(role, inner)]

theorem parts_assignment (facts : Facts) (role : Option Role) {op : Source.Operator}
    (h : op.isAssignment = true) (left right : Source.Expr) (span : Span) :
    parts facts role (.binary left op right span) = memberParts left ++ asOperands [right] :=
  if_pos h

theorem parts_simple (facts : Facts) (role : Option Role) {op : Source.Operator}
    (h : op.isAssignment = false) (left right : Source.Expr) (span : Span) :
    parts facts role (.binary left op right span) = asOperands [left, right] :=
  if_neg (by simp [h])

theorem parts_plainCall {facts : Facts} {callee : Source.Expr}
    (h : callForm facts callee = .plain) (role : Option Role) (args : List Source.Expr)
    (span : Span) :
    parts facts role (.call callee args span) = (some .callee, callee) :: asOperands args := by
  rw [parts, h]

/-- Of the callee in a call of a method or in an expanded call only the object is lowered. -/
theorem parts_memberCall {facts : Facts} {callee object : Source.Expr} {name : String}
    {nameSpan span : Span} {optional : Bool}
    (hunwrap : callee.unwrap = .property object name nameSpan optional span)
    (h : (∃ expander, callForm facts callee = .expanded expander) ∨
      ∃ method, callForm facts callee = .method method)
    (role : Option Role) (args : List Source.Expr) (callSpan : Span) :
    parts facts role (.call callee args callSpan) = asOperands (object :: args) := by
  have hmember : memberParts callee = asOperands [object] := by rw [memberParts, hunwrap]
  rcases h with ⟨expander, hform⟩ | ⟨method, hform⟩
  · rw [parts, hform, hmember]
    rfl
  · rw [parts, hform, hmember]
    rfl

theorem mem_of_mem_asOperands {p : Visit} {es : List Source.Expr} (h : p ∈ asOperands es) :
    p.2 ∈ es := by
  obtain ⟨e, he, rfl⟩ := List.mem_map.1 h
  exact he

theorem mem_children_of_mem_memberParts {p : Visit} {e : Source.Expr} (h : p ∈ memberParts e) :
    p.2 ∈ e.unwrap.children := by
  rw [memberParts] at h
  cases hunwrap : e.unwrap with
  | property | element =>
    rw [hunwrap] at h
    exact mem_of_mem_asOperands h
  | name | literal | template | binary | call | delete | wrap =>
    rw [hunwrap] at h
    cases h

/-- A part is directly inside the expression, or directly inside a member access there. -/
theorem mem_children_of_mem_parts {facts : Facts} {role : Option Role} {p : Visit}
    {e : Source.Expr} (h : p ∈ parts facts role e) :
    p.2 ∈ e.children ∨ ∃ child ∈ e.children, p.2 ∈ child.unwrap.children := by
  cases e with
  | name | literal => cases h
  | template | property | element => exact .inl (mem_of_mem_asOperands h)
  | binary left op right span =>
    rw [parts] at h
    split at h
    · rcases List.mem_append.1 h with hleft | hright
      · exact .inr ⟨left, List.mem_cons_self, mem_children_of_mem_memberParts hleft⟩
      · exact .inl (List.mem_cons_of_mem left (mem_of_mem_asOperands hright))
    · exact .inl (mem_of_mem_asOperands h)
  | call callee args span =>
    rw [parts] at h
    cases hform : callForm facts callee with
    | refused object =>
      rw [hform] at h
      cases h
    | expanded | method =>
      rw [hform] at h
      rcases List.mem_append.1 h with hcallee | harg
      · exact .inr ⟨callee, List.mem_cons_self, mem_children_of_mem_memberParts hcallee⟩
      · exact .inl (List.mem_cons_of_mem callee (mem_of_mem_asOperands harg))
    | plain =>
      rw [hform] at h
      rcases List.mem_cons.1 h with rfl | harg
      · exact .inl List.mem_cons_self
      · exact .inl (List.mem_cons_of_mem callee (mem_of_mem_asOperands harg))
  | delete | wrap =>
    obtain rfl := List.mem_singleton.1 h
    exact .inl List.mem_cons_self

theorem sizeOf_lt_of_mem_parts {facts : Facts} {role : Option Role} {p : Visit} {e : Source.Expr}
    (h : p ∈ parts facts role e) : sizeOf p.2 < sizeOf e := by
  rcases mem_children_of_mem_parts h with hchild | ⟨child, hchild, hinner⟩
  · exact Source.Expr.sizeOf_lt_of_mem_children hchild
  · have hlt := Source.Expr.sizeOf_lt_of_mem_children hchild
    have hinside := Source.Expr.sizeOf_lt_of_mem_children hinner
    have hle := sizeOf_unwrap_le child
    omega

/-- Everything inside a part is inside the expression. -/
theorem nodes_subset_of_mem_parts {facts : Facts} {role : Option Role} {p : Visit}
    {e : Source.Expr} (h : p ∈ parts facts role e) : p.2.nodes ⊆ e.nodes := by
  have hsub {d child : Source.Expr} (hchild : child ∈ d.children) : child.nodes ⊆ d.nodes :=
    fun m hm => Source.Expr.mem_nodes_iff.2 (.inr ⟨child, hchild, hm⟩)
  rcases mem_children_of_mem_parts h with hchild | ⟨child, hchild, hinner⟩
  · exact hsub hchild
  · have hinside := List.Subset.trans (hsub hinner) child.nodes_unwrap_subset
    exact List.Subset.trans hinside (hsub hchild)

/-- Induction along the parts: what holds of an expression in its role if it holds of its parts in
theirs holds of all. -/
@[elab_as_elim]
theorem parts_induction {motive : Option Role → Source.Expr → Prop} (facts : Facts)
    (h : ∀ role e, (∀ p ∈ parts facts role e, motive p.1 p.2) → motive role e) (role : Option Role)
    (e : Source.Expr) : motive role e :=
  h role e fun p hp =>
    have := sizeOf_lt_of_mem_parts hp
    parts_induction facts h p.1 p.2
termination_by sizeOf e

/-- All expressions that are lowered for an expression in a role, each after its parts. -/
def visits (facts : Facts) (role : Option Role) (e : Source.Expr) : List Visit :=
  (parts facts role e).attach.flatMap (fun p =>
    have := sizeOf_lt_of_mem_parts p.2
    visits facts p.1.1 p.1.2) ++ [(role, e)]
termination_by sizeOf e

/-- All expressions that are lowered for parts, one part after the other. -/
def visitsAll (facts : Facts) (ps : List Visit) : List Visit :=
  ps.flatMap fun p => visits facts p.1 p.2

theorem visits_eq (facts : Facts) (role : Option Role) (e : Source.Expr) :
    visits facts role e = visitsAll facts (parts facts role e) ++ [(role, e)] := by
  have hmap := List.flatMap_map Subtype.val (fun p : Visit => visits facts p.1 p.2)
    (parts facts role e).attach
  rw [List.attach_map_subtype_val] at hmap
  rw [visits, visitsAll, hmap]

@[simp] theorem visitsAll_nil (facts : Facts) : visitsAll facts [] = [] := rfl

@[simp] theorem visitsAll_cons (facts : Facts) (p : Visit) (ps : List Visit) :
    visitsAll facts (p :: ps) = visits facts p.1 p.2 ++ visitsAll facts ps := rfl

@[simp] theorem visitsAll_append (facts : Facts) (ps qs : List Visit) :
    visitsAll facts (ps ++ qs) = visitsAll facts ps ++ visitsAll facts qs := List.flatMap_append

theorem visitsAll_parts_subset (facts : Facts) (role : Option Role) (e : Source.Expr) :
    visitsAll facts (parts facts role e) ⊆ visits facts role e := by
  rw [visits_eq]
  exact List.subset_append_left ..

theorem visits_subset_of_mem_parts {facts : Facts} {role : Option Role} {e : Source.Expr}
    {p : Visit} (h : p ∈ parts facts role e) : visits facts p.1 p.2 ⊆ visits facts role e := by
  rw [visits_eq facts role e]
  intro v hv
  exact List.mem_append_left _ (List.mem_flatMap.2 ⟨p, h, hv⟩)

theorem mem_visits_self (facts : Facts) (role : Option Role) (e : Source.Expr) :
    (role, e) ∈ visits facts role e := by
  rw [visits_eq]
  exact List.mem_append_right _ List.mem_cons_self

/-- Only expressions inside an expression are lowered for it. -/
theorem mem_nodes_of_mem_visits {facts : Facts} {role : Option Role} {e : Source.Expr} :
    ∀ v ∈ visits facts role e, v.2 ∈ e.nodes := by
  refine parts_induction facts ?_ role e
  intro role e ih v hv
  rw [visits_eq, List.mem_append] at hv
  rcases hv with hpart | hself
  · obtain ⟨p, hp, hv⟩ := List.mem_flatMap.1 hpart
    exact nodes_subset_of_mem_parts hp (ih p hp v hv)
  · rw [List.mem_singleton.1 hself]
    exact Source.Expr.mem_nodes_iff.2 (.inl rfl)

-- ════════════════════════════════════════════════════════════════════════
-- What belongs to an expression
-- ════════════════════════════════════════════════════════════════════════

/-- The diagnostics that belong to an expression itself. -/
def ownReports (facts : Facts) (role : Option Role) : Source.Expr → List Diagnostic
  | .property object name nameSpan _ span =>
    if (facts.typeOf object).isAny then [⟨.anyValue, object.span⟩]
    else if (facts.expanderAt? span).isSome then [⟨.uncalledExpansion, span⟩]
    else if facts.isMethodAt span && role != some .callee then [⟨.uncalledMethod, span⟩]
    else if name = "prototype" then [⟨.prototype, nameSpan⟩]
    else []
  | .element object _ _ _ =>
    if (facts.typeOf object).isAny then [⟨.anyValue, object.span⟩] else []
  | .call callee _ _ =>
    match callForm facts callee with
    | .refused object => [⟨.anyValue, object⟩]
    | .expanded .effect => [⟨.prototype, .point 8 8⟩]
    | _ => []
  | _ => []

/-- Whether an expression is a logical operator with its sides. -/
def isLogical : Source.Expr → Bool
  | .binary _ (.logical _) _ _ => true
  | _ => false

/-- Whether an expression is an optional access. -/
def isOptional : Source.Expr → Bool
  | .property _ _ _ optional _ => optional
  | .element _ _ optional _ => optional
  | _ => false

/-- What a lowering gives out besides code. -/
@[ext] structure Account where
  diagnostics : List Diagnostic
  /-- How many logical operators were counted. -/
  logicals : Nat
  /-- How many optional accesses were counted. -/
  chains : Nat
deriving DecidableEq

namespace Account

instance : EmptyCollection Account := ⟨⟨[], 0, 0⟩⟩

instance : Append Account where
  append a b := ⟨a.diagnostics ++ b.diagnostics, a.logicals + b.logicals, a.chains + b.chains⟩

@[simp] theorem empty_append (a : Account) : ∅ ++ a = a := by
  cases a with
  | mk diagnostics logicals chains =>
    show Account.mk ([] ++ diagnostics) (0 + logicals) (0 + chains) = _
    simp

@[simp] theorem append_empty (a : Account) : a ++ ∅ = a := by
  cases a with
  | mk diagnostics logicals chains =>
    show Account.mk (diagnostics ++ []) (logicals + 0) (chains + 0) = _
    simp

theorem append_assoc (a b c : Account) : a ++ b ++ c = a ++ (b ++ c) :=
  Account.ext (List.append_assoc ..) (Nat.add_assoc ..) (Nat.add_assoc ..)

/-- Counts may be added on either side. -/
theorem count_append (a : Account) (logicals chains : Nat) :
    ⟨[], logicals, chains⟩ ++ a = a ++ ⟨[], logicals, chains⟩ :=
  Account.ext (List.append_nil _).symm (Nat.add_comm ..) (Nat.add_comm ..)

end Account

/-- What belongs to an expression itself. -/
def ownAccount (facts : Facts) (role : Option Role) (e : Source.Expr) : Account :=
  ⟨ownReports facts role e, (isLogical e).toNat, (isOptional e).toNat⟩

/-- What belongs to all the visited expressions. -/
def tally (facts : Facts) (vs : List Visit) : Account :=
  vs.foldr (fun v a => ownAccount facts v.1 v.2 ++ a) ∅

theorem tally_append (facts : Facts) (vs ws : List Visit) :
    tally facts (vs ++ ws) = tally facts vs ++ tally facts ws := by
  induction vs with
  | nil => exact (Account.empty_append _).symm
  | cons v vs ih =>
    show ownAccount facts v.1 v.2 ++ tally facts (vs ++ ws) = _
    rw [ih, ← Account.append_assoc]
    rfl

theorem tally_visits (facts : Facts) (role : Option Role) (e : Source.Expr) :
    tally facts (visits facts role e) =
      tally facts (visitsAll facts (parts facts role e)) ++ ownAccount facts role e := by
  rw [visits_eq, tally_append]
  show _ ++ (ownAccount facts role e ++ ∅) = _
  rw [Account.append_empty]

-- ════════════════════════════════════════════════════════════════════════
-- What the steps of a lowering add
-- ════════════════════════════════════════════════════════════════════════

/-- The added diagnostics and counts. -/
def Growth.account (g : Growth) : Account := ⟨g.diagnostics, g.logicals, g.chains⟩

@[simp] theorem account_append (g h : Growth) : (g ++ h).account = g.account ++ h.account := rfl

@[simp] theorem account_ofStmts (stmts : List Target.Stmt) :
    (Growth.ofStmts stmts).account = ∅ := rfl

@[simp] theorem account_saved (n : Nat) (value : Expr) : (saved n value).2.account = ∅ := by
  rw [saved]
  split
  · rfl
  · rfl

@[simp] theorem account_displaced (n : Nat) (earlier : List Expr) (stmts : List Target.Stmt) :
    (displaced n earlier stmts).2.account = ∅ := by
  cases stmts with
  | nil => rfl
  | cons stmt stmts =>
    rw [displaced_cons, settleAll_growth]
    rfl

@[simp] theorem account_memberRead (role : Option Role) (member : Expr) :
    (memberRead role member).2.account = ∅ := by
  rw [memberRead]
  split
  · rfl
  · rfl

@[simp] theorem account_constantOrMember (ctx : Context) (role : Option Role) (span : Span)
    (member : Expr) : (constantOrMember ctx role span member).2.account = ∅ := by
  rw [constantOrMember]
  split
  · rfl
  · exact account_memberRead role member

/-- A property access reports what belongs to it, whether or not a constant takes its place. -/
theorem account_propertyRead (ctx : Context) (role : Option Role) (object : Source.Expr)
    (name : String) (nameSpan : Span) (optional : Bool) (span : Span) (value : Expr) :
    (propertyRead ctx role object name nameSpan span value).2.account =
      ⟨ownReports ctx.facts role (.property object name nameSpan optional span), 0, 0⟩ := by
  rw [propertyRead, ownReports]
  split
  · rfl
  split
  · rfl
  split
  · rfl
  · rw [account_append, account_constantOrMember, Account.append_empty, nameNote]
    split
    · rfl
    · rfl

theorem account_elementRead (ctx : Context) (role : Option Role) (object index : Source.Expr)
    (optional : Bool) (span : Span) (a b : Expr) :
    (elementRead ctx role object a b).2.account =
      ⟨ownReports ctx.facts role (.element object index optional span), 0, 0⟩ := by
  rw [elementRead, ownReports]
  split
  · rfl
  · exact account_memberRead role _

/-- An optional access is counted before its object is lowered, and reports afterwards. -/
theorem account_oneChain_append (a : Account) (ds : List Diagnostic) :
    Growth.oneChain.account ++ a ++ ⟨ds, 0, 0⟩ = a ++ ⟨ds, 0, 1⟩ := by
  have hcount : Growth.oneChain.account ++ a = a ++ ⟨[], 0, 1⟩ := Account.count_append a 0 1
  rw [hcount, Account.append_assoc]
  rfl

/-- An expansion reports what belongs to the expanded call. -/
theorem account_expansion {facts : Facts} {callee : Source.Expr} {expander : Expander}
    (hform : callForm facts callee = .expanded expander) {n : Nat} {object result : Expr}
    {args : List Expr} {g : Growth} (h : expansion n object args expander = some (result, g))
    (role : Option Role) (es : List Source.Expr) (span : Span) :
    g.account = ownAccount facts role (.call callee es span) := by
  simp only [ownAccount, ownReports, hform, isLogical, isOptional]
  cases expander with
  | fail => cases h
  | push =>
    cases h
    exact account_saved n object
  | unit | length | effect =>
    cases h
    rfl

-- ════════════════════════════════════════════════════════════════════════
-- Derivations
-- ════════════════════════════════════════════════════════════════════════

/-- The expressions that are lowered for a piece of work. -/
def Job.visits (facts : Facts) : Job → List Visit
  | .expr role e => Lowering.visits facts role e
  | .target left => visitsAll facts (memberParts left)
  | .operands _ es => visitsAll facts (asOperands es)

theorem visitsAll_singleton (facts : Facts) (p : Visit) :
    visitsAll facts [p] = visits facts p.1 p.2 := List.append_nil _

/-- A derivation reports and counts what belongs to the expressions that it visits. -/
theorem Lowers.account {ctx : Context} {job : Job} {n : Nat} {values : List Expr} {g : Growth}
    (h : Lowers ctx job n values g) : g.account = tally ctx.facts (job.visits ctx.facts) := by
  induction h with
  | name | literal =>
    rw [Job.visits, tally_visits]
    rfl
  | template _ ih =>
    rw [Job.visits, tally_visits, ih]
    exact (Account.append_empty _).symm
  | @simple role left op right span _ _ _ _ _ hop _ ih =>
    have hown : ownAccount ctx.facts role (.binary left op right span) = ∅ := by
      cases op with
      | logical l => cases hop
      | _ => rfl
    rw [Job.visits, tally_visits, parts_simple _ _ (operatorEffects_simple hop).1, hown,
      Account.append_empty]
    exact ih
  | logical hop _ ih =>
    obtain ⟨l, rfl⟩ := eq_logical_of_operatorKind hop
    rw [Job.visits, tally_visits, account_append, ih]
    exact Account.count_append _ 1 0
  | assign hop _ _ _ ihleft ihright =>
    obtain rfl := eq_assign_of_operatorKind hop
    rw [Job.visits, tally_visits, parts_assignment _ _ rfl, visitsAll_append, tally_append]
    simp only [account_append, ihleft, ihright, account_saved, account_ofStmts,
      Account.append_empty, asOperands, List.map, visitsAll_singleton]
    exact (Account.append_empty _).symm
  | compound hop _ _ _ ihleft ihright =>
    obtain rfl := eq_assignWith_of_operatorKind hop
    rw [Job.visits, tally_visits, parts_assignment _ _ rfl, visitsAll_append, tally_append]
    simp only [account_append, ihleft, ihright, account_ofStmts, Account.append_empty, asOperands,
      List.map, visitsAll_singleton]
    exact (Account.append_empty _).symm
  | property _ ih =>
    rw [Job.visits, tally_visits, parts, asOperands, List.map, List.map, visitsAll_singleton,
      account_append, ih, account_propertyRead _ _ _ _ _ false]
    rfl
  | chainProperty _ ih =>
    rw [Job.visits, tally_visits, parts, asOperands, List.map, List.map, visitsAll_singleton]
    simp only [account_append, ih, account_saved, account_propertyRead _ _ _ _ _ true,
      Account.append_empty, account_oneChain_append]
    rfl
  | @element role object index span _ _ _ _ _ ih =>
    rw [Job.visits, tally_visits, account_append, ih, account_elementRead _ _ _ index false span]
    rfl
  | @chainElement role object index span _ _ _ _ _ ih =>
    rw [Job.visits, tally_visits, account_append, account_append, ih,
      account_elementRead _ _ _ index true span, account_oneChain_append]
    rfl
  | refusedCall hform =>
    rw [Job.visits, tally_visits, parts, hform, ownAccount, ownReports, hform]
    rfl
  | expandedCall hform hunwrap _ _ hexp ihobject ihargs =>
    rw [Job.visits, tally_visits, parts_memberCall hunwrap (.inl ⟨_, hform⟩),
      ← account_expansion hform hexp, account_append, account_append, ihobject, ihargs,
      ← tally_append]
    rfl
  | methodCall hform hunwrap _ _ ihobject ihargs =>
    rw [Job.visits, tally_visits, parts_memberCall hunwrap (.inr ⟨_, hform⟩), account_append,
      ihobject, ihargs, ← tally_append, ownAccount, ownReports, hform]
    exact (Account.append_empty _).symm
  | plainCall hform _ _ ihcallee ihargs =>
    rw [Job.visits, tally_visits, parts_plainCall hform, account_append, ihcallee, ihargs,
      ← tally_append, ownAccount, ownReports, hform]
    exact (Account.append_empty _).symm
  | delete _ _ ih | wrap _ ih =>
    rw [Job.visits, tally_visits, parts, visitsAll_singleton, ih]
    exact (Account.append_empty _).symm
  | targetName hunwrap =>
    rw [Job.visits, memberParts, hunwrap]
    rfl
  | targetProperty hunwrap _ ih =>
    rw [Job.visits, memberParts, hunwrap, account_append, account_saved, Account.append_empty, ih]
    exact congrArg _ (List.append_nil _).symm
  | targetElement hunwrap _ ih =>
    rw [Job.visits, memberParts, hunwrap]
    simp only [account_append, account_saved, Account.append_empty]
    exact ih
  | noOperand => rfl
  | operand _ _ ihhead ihtail =>
    rw [account_append, account_append, account_displaced, Account.empty_append, ihhead, ihtail,
      ← tally_append]
    rfl

-- ════════════════════════════════════════════════════════════════════════
-- Expressions on their own
-- ════════════════════════════════════════════════════════════════════════

/-- What is given out besides code. -/
def Output.account (out : Output) : Account :=
  ⟨out.diagnostics, out.logicalCount, out.chainCount⟩

/-- What becomes of an expression, its code apart: the first of its failures, or what belongs to
the expressions that are lowered for it. -/
def verdict (facts : Facts) (e : Source.Expr) : Except Failure Account :=
  match (failures (callForm facts) e).head? with
  | some failure => .error failure
  | none => .ok (tally facts (visits facts (some .operand) e))

theorem map_account_lowerAlone (ctx : Context) (e : Source.Expr) :
    (lowerAlone ctx e).map Output.account = verdict ctx.facts e := by
  have hfirst := failure?_lowerAlone ctx e
  rw [verdict]
  cases hlower : lowerAlone ctx e with
  | error failure =>
    rw [hlower] at hfirst
    rw [← hfirst]
    rfl
  | ok out =>
    obtain ⟨value, g, hlow, rfl⟩ := lowerAlone_eq_ok_iff.1 hlower
    rw [hlower] at hfirst
    rw [← hfirst]
    exact congrArg Except.ok hlow.account

/-- The options change neither the failure nor what is reported and counted: either way it is what
belongs to the expressions that are lowered. -/
theorem options_change_no_report (facts : Facts) (e : Source.Expr) (options options' : Options) :
    (lowerAlone ⟨facts, options⟩ e).map Output.account =
        (lowerAlone ⟨facts, options'⟩ e).map Output.account ∧
      (lowerAlone ⟨facts, options⟩ e).map Output.account = verdict facts e := by
  have hverdict (options : Options) := map_account_lowerAlone ⟨facts, options⟩ e
  exact ⟨(hverdict options).trans (hverdict options').symm, hverdict options⟩

end ExprLowering.Lowering
