import ExprLowering.Proofs.Meaning
import ExprLowering.Proofs.Outcome

/-!
# Which failure comes first

`failures` walks an expression from left to right and lists everything in it that makes lowering
fail. Lowering stops at the first of these failures and succeeds if there is none.

## Main definitions

* `failures`, `targetFailures`: the walk over expressions and over targets of assignments.

## Main results

* `ends_lowerNode`: lowering ends as the walk says.
* `stops_at_first_failure`: the same for an expression on its own, in a program without special
  calls.
-/

namespace ExprLowering.Lowering

open Target (Expr)

-- ════════════════════════════════════════════════════════════════════════
-- The walk
-- ════════════════════════════════════════════════════════════════════════

/-- The failures of a binary operator on its own. -/
def operatorFailures (op : Source.Operator) (span : Span) : List Failure :=
  match op with
  | .looseEq => [.fault (.operatorRefused "==" "===" span)]
  | .looseNe => [.fault (.operatorRefused "!=" "!==" span)]
  | .membership | .instanceOf | .comma => [.fault (.operatorUnknown op.token span)]
  | _ => []

/-- Only member accesses can be deleted. -/
def deletionFailures (operand : Source.Expr) : List Failure :=
  match operand.unwrap with
  | .property .. | .element .. => []
  | _ => [.fault (.operandNotDeletable operand.span)]

/-- The absent value looks like a name, but cannot be written to. -/
def writeFailures (left : Source.Expr) : List Failure :=
  if isNamed "undefined" left then [.unassignable] else []

/-- The failures of the expansion of a call on its own. -/
def expanderFailures : Expander → List Failure
  | .fail => [.fault (.operandNotDeletable (.point 7 7))]
  | _ => []

/-- The failures of a call, given those inside its callee and its arguments. -/
def callFailures (form : CallForm) (inside : List Failure) : List Failure :=
  match form with
  | .refused _ => []
  | .expanded expander => inside ++ expanderFailures expander
  | .method _ | .plain => inside

mutual

/-- The failures in an expression, in the order in which lowering would meet them; `form` says how
a callee is called. -/
def failures (form : Source.Expr → CallForm) : Source.Expr → List Failure
  | .name .. => []
  | .literal .. => []
  | .template _ parts _ => partFailures form parts
  | .binary left op right span =>
    operatorFailures op span ++
      if op.isAssignment then
        targetFailures form left.span left ++ failures form right ++ writeFailures left
      else failures form left ++ failures form right
  | .property object _ _ _ _ => failures form object
  | .element object index _ _ => failures form object ++ failures form index
  | .call callee args _ =>
    callFailures (form callee) (failures form callee ++ failuresAll form args)
  | .delete operand _ => deletionFailures operand ++ failures form operand
  | .wrap _ inner _ => failures form inner

/-- The failures in the target of an assignment; `written` is its span with all wrappers. -/
def targetFailures (form : Source.Expr → CallForm) (written : Span) : Source.Expr → List Failure
  | .name .. => []
  | .property object _ _ false _ => failures form object
  | .element object index false _ => failures form object ++ failures form index
  | .wrap _ inner _ => targetFailures form written inner
  | _ => [.fault (.targetNotAssignable written)]

/-- The failures in the expressions of a list. -/
def failuresAll (form : Source.Expr → CallForm) : List Source.Expr → List Failure
  | [] => []
  | e :: es => failures form e ++ failuresAll form es

/-- The failures in the substitutions of a template. -/
def partFailures (form : Source.Expr → CallForm) :
    List (Source.Substitution Source.Expr) → List Failure
  | [] => []
  | ⟨e, _, _⟩ :: parts => failures form e ++ partFailures form parts

end

theorem failuresAll_eq_flatMap (form : Source.Expr → CallForm) (es : List Source.Expr) :
    failuresAll form es = es.flatMap (failures form) := by
  induction es with
  | nil => rfl
  | cons e es ih => rw [failuresAll, ih, List.flatMap_cons]

theorem partFailures_eq_flatMap (form : Source.Expr → CallForm)
    (parts : List (Source.Substitution Source.Expr)) :
    partFailures form parts = (parts.map (·.expr)).flatMap (failures form) := by
  induction parts with
  | nil => rfl
  | cons part parts ih => rw [partFailures, ih]; rfl

-- ════════════════════════════════════════════════════════════════════════
-- Ends of the parts of lowering
-- ════════════════════════════════════════════════════════════════════════

theorem ends_hoistUnlessAtom (value : Expr) : Ends (hoistUnlessAtom value) [] :=
  .adds (run_hoistUnlessAtom value) fun _ => .saved ..

theorem ends_refuse (problem : Problem) (span : Span) : Ends (refuse problem span) [] :=
  .adds (run_refuse problem span) fun _ => .of_declared_eq_nil rfl

theorem ends_countLogical : Ends countLogical [] :=
  .adds run_countLogical fun _ => .of_declared_eq_nil rfl

theorem ends_countChain : Ends countChain [] :=
  .adds run_countChain fun _ => .of_declared_eq_nil rfl

theorem ends_assign (left : Expr) (op : Target.AssignOp) (right : Expr) :
    Ends (assign left op right) (if left.isAssignable then [] else [.unassignable]) := by
  cases h : left.isAssignable with
  | true => exact .adds (run_assign h op right) fun _ => .of_declared_eq_nil rfl
  | false =>
    have hfail : assign left op right = .fail .unassignable := if_neg (by simp [h])
    rw [hfail]
    exact .fail _ _

theorem declared_memberRead (role : Option Role) (member : Expr) :
    Target.declared (memberRead role member).2.stmts = [] := by
  rw [memberRead]
  split
  · rfl
  · rfl

theorem declared_propertyRead (ctx : Context) (role : Option Role) (object : Source.Expr)
    (name : String) (nameSpan span : Span) (value : Expr) :
    Target.declared (propertyRead ctx role object name nameSpan span value).2.stmts = [] := by
  rw [propertyRead]
  split
  · rfl
  split
  · rfl
  split
  · rfl
  simp only [Growth.append_stmts, nameNote_stmts, List.nil_append, constantOrMember]
  split
  · rfl
  · exact declared_memberRead ..

theorem ends_readProperty (ctx : Context) (object : Source.Expr) (name : String)
    (nameSpan span : Span) (value : Expr) :
    Ends (readProperty ctx object name nameSpan span value) [] :=
  .adds (run_readProperty ctx object name nameSpan span value) fun _ =>
    .of_declared_eq_nil (declared_propertyRead ..)

theorem ends_readElement (ctx : Context) (object : Source.Expr) (value index : Expr) :
    Ends (readElement ctx object value index) [] := by
  refine .adds (run_readElement ctx object value index) fun s => .of_declared_eq_nil ?_
  rw [elementRead]
  split
  · rfl
  · exact declared_memberRead ..

theorem ends_applyExpander (expander : Expander) (object : Expr) (args : List Expr) :
    Ends (applyExpander expander object args) (expanderFailures expander) := by
  cases expander with
  | unit => exact .pure _
  | length => exact .pure _
  | push => exact (ends_hoistUnlessAtom object).bind_pure _
  | fail => exact .fail _ _
  | effect =>
    have hrun (s : State) := run_applyExpander .effect object args s
    refine .adds hrun fun s => .of_range' ?_
    rfl

theorem ends_assignValue {location : LowerM Location} {value : LowerM Expr}
    {fs gs hs : List Failure} (hlocation : Ends location fs) (hvalue : Ends value gs)
    (hwrite : ∀ l, (∃ s t, location.run s = (.ok l, t)) →
      hs = if l.toExpr.isAssignable then [] else [.unassignable]) :
    Ends (assignValue location value) (fs ++ gs ++ hs) := by
  rw [assignValue, List.append_assoc]
  refine hlocation.bind fun l hl => hvalue.bind fun v _ => ?_
  refine (ends_hoistUnlessAtom v).bind fun saved _ => ?_
  rw [hwrite l hl]
  exact (ends_assign _ _ _).bind_pure _

theorem ends_assignResult {options : Options} {op : Source.Calculation} {location : LowerM Location}
    {value : LowerM Expr} {fs gs hs : List Failure} (hlocation : Ends location fs)
    (hvalue : Ends value gs)
    (hwrite : ∀ l, (∃ s t, location.run s = (.ok l, t)) →
      hs = if l.toExpr.isAssignable then [] else [.unassignable]) :
    Ends (assignResult options op location value) (fs ++ gs ++ hs) := by
  rw [assignResult, List.append_assoc]
  refine hlocation.bind fun l hl => hvalue.bind fun v _ => ?_
  rw [hwrite l hl]
  dsimp only
  split
  · exact (ends_assign _ _ _).bind_pure _
  · exact (ends_assign _ _ _).bind_pure _

theorem isNamed_unwrap (x : String) (e : Source.Expr) : isNamed x e.unwrap = isNamed x e := by
  fun_induction Source.Expr.unwrap e with
  | case1 wrapper inner span ih => exact ih
  | case2 e _ => rfl

/-- A target that was resolved is writable unless it is the absent value. -/
theorem writeFailures_of_run {ctx : Context} {written : Span} {left : Source.Expr} {l : Location}
    (h : ∃ s t, (lowerLocation ctx written left).run s = (.ok l, t)) :
    writeFailures left = if l.toExpr.isAssignable then [] else [.unassignable] := by
  obtain ⟨s, t, hrun⟩ := h
  obtain ⟨g, -, htarget⟩ := lowers_of_run_location (fun d _ => lowers_of_run ctx d) hrun
  rw [writeFailures, ← isNamed_unwrap]
  generalize l.toExpr = place at htarget
  cases htarget with
  | @targetName _ text _ _ hunwrap =>
    rw [hunwrap]
    by_cases htext : text = "undefined"
    · subst htext
      rfl
    · simp [isNamed, nameValue, htext, Expr.isAssignable]
  | targetProperty hunwrap _ =>
    rw [hunwrap]
    rfl
  | targetElement hunwrap _ =>
    rw [hunwrap]
    rfl

-- ════════════════════════════════════════════════════════════════════════
-- The walk foretells how lowering ends
-- ════════════════════════════════════════════════════════════════════════

theorem deletionFailures_eq (operand : Source.Expr) :
    deletionFailures operand =
      if isDeletable operand then [] else [.fault (.operandNotDeletable operand.span)] := by
  rw [deletionFailures, isDeletable]
  generalize operand.span = span
  cases operand.unwrap with
  | property | element => rfl
  | name | literal | template | binary | call | delete | wrap => rfl

mutual

/-- Lowering stops at the first failure of the walk, and succeeds if there is none. -/
theorem ends_lowerNode (ctx : Context) :
    ∀ e, Ends (lowerNode ctx e) (failures (callForm ctx.facts) e)
  | .name text span => by
    rw [lowerNode]
    exact .pure _
  | .literal value span => by
    rw [lowerNode]
    exact .pure _
  | .template head parts span => by
    rw [lowerNode, lowerParts_eq_map, failures, partFailures_eq_flatMap]
    refine (Ends.operands ?_ []).bind_pure _
    intro e he
    obtain ⟨part, hpart, rfl⟩ := List.mem_map.1 he
    exact (ends_lowerParts ctx parts part hpart).inRole .operand
  | .binary left op right span => by
    have hleft := (ends_lowerNode ctx left).inRole .operand
    have hright := (ends_lowerNode ctx right).inRole .operand
    have htarget := ends_lowerLocation ctx left.span left
    rw [lowerNode, failures]
    -- An operator that fails does so before its sides are looked at.
    cases op with
    | looseEq | looseNe | membership | instanceOf | comma => exact .fail _ _
    | comparison | calculation => exact (hleft.both hright).bind_pure _
    | logical => exact ends_countLogical.bind fun _ _ => (hleft.both hright).bind_pure _
    | assign => exact ends_assignValue htarget hright fun l => writeFailures_of_run
    | assignWith => exact ends_assignResult htarget hright fun l => writeFailures_of_run
  | .property object name nameSpan true span => by
    have hobject := (ends_lowerNode ctx object).inRole .operand
    rw [lowerNode, chainProperty, failures]
    refine ends_countChain.bind fun _ _ => hobject.followedBy fun value => ?_
    exact (ends_hoistUnlessAtom value).followedBy fun saved => ends_readProperty _ _ _ _ _ _
  | .property object name nameSpan false span => by
    have hobject := (ends_lowerNode ctx object).inRole .operand
    rw [lowerNode, failures]
    exact hobject.followedBy fun value => ends_readProperty _ _ _ _ _ _
  | .element object index true span => by
    have hobject := (ends_lowerNode ctx object).inRole .operand
    have hindex := (ends_lowerNode ctx index).inRole .operand
    rw [lowerNode, chainElement, failures]
    refine ends_countChain.bind fun _ _ => (hobject.both hindex).followedBy ?_
    exact fun (value, index) => ends_readElement ctx object value index
  | .element object index false span => by
    have hobject := (ends_lowerNode ctx object).inRole .operand
    have hindex := (ends_lowerNode ctx index).inRole .operand
    rw [lowerNode, failures]
    exact (hobject.both hindex).followedBy fun (value, index) =>
      ends_readElement ctx object value index
  | .call callee args span => by
    have hcallee := (ends_lowerNode ctx callee).inRole .callee
    -- Only the object of a called member is lowered, and not the callee as a whole.
    have hreceiver (hform : callForm ctx.facts callee ≠ .plain) :=
      ends_lowerReceiver ctx callee (exists_unwrap_of_callForm hform)
    have hargs : ∀ e ∈ args, Ends (lowerExpr ctx e) (failures (callForm ctx.facts) e) :=
      fun e he => (ends_lowerEach ctx args e he).inRole .operand
    rw [lowerNode, lowerEach_eq_map, failures, failuresAll_eq_flatMap]
    cases hform : callForm ctx.facts callee with
    | refused object => exact ends_refuse _ _
    | expanded expander =>
      exact ((hreceiver (by simp [hform])).withArgs hargs).bind fun (object, args) _ =>
        ends_applyExpander expander object args
    | method name => exact ((hreceiver (by simp [hform])).withArgs hargs).bind_pure _
    | plain => exact (hcallee.withArgs hargs).bind_pure _
  | .delete operand span => by
    rw [lowerNode, failures, deletionFailures_eq]
    split
    · exact (ends_lowerNode ctx operand).inRole .deleted
    · exact .fail _ _
  | .wrap wrapper inner span => by
    rw [lowerNode, failures]
    exact (ends_lowerNode ctx inner).inRole .wrapped

/-- The object of a called member stands for the whole callee: only it can fail. -/
theorem ends_lowerReceiver (ctx : Context) :
    ∀ callee : Source.Expr,
      (∃ object name nameSpan span, callee.unwrap = .property object name nameSpan false span) →
      Ends (lowerReceiver ctx callee) (failures (callForm ctx.facts) callee)
  | .property object name nameSpan optional span, _ => by
    rw [lowerReceiver, failures]
    exact (ends_lowerNode ctx object).inRole .operand
  | .wrap wrapper inner span, h => by
    rw [lowerReceiver, failures]
    exact ends_lowerReceiver ctx inner h
  | .name .., h | .literal .., h | .template .., h | .binary .., h | .element .., h
  | .call .., h | .delete .., h => by
    obtain ⟨_, _, _, _, hother⟩ := h
    cases hother

theorem ends_lowerLocation (ctx : Context) (written : Span) :
    ∀ left, Ends (lowerLocation ctx written left) (targetFailures (callForm ctx.facts) written left)
  | .name text span => by
    rw [lowerLocation, targetFailures]
    exact .pure _
  | .property object name nameSpan false span => by
    rw [lowerLocation, targetFailures]
    exact ((ends_lowerNode ctx object).inRole .operand).followedBy fun value =>
      (ends_hoistUnlessAtom value).bind_pure _
  | .element object index false span => by
    have hobject := (ends_lowerNode ctx object).inRole .operand
    have hindex := (ends_lowerNode ctx index).inRole .operand
    rw [lowerLocation, targetFailures]
    exact (hobject.both hindex).followedBy fun values =>
      (ends_hoistUnlessAtom values.1).followedBy fun base =>
        (ends_hoistUnlessAtom values.2).bind_pure _
  | .wrap wrapper inner span => by
    rw [lowerLocation, targetFailures]
    exact ends_lowerLocation ctx written inner
  | .property _ _ _ true _ | .element _ _ true _ | .literal .. | .template .. | .binary ..
  | .call .. | .delete .. => .fail _ _

theorem ends_lowerEach (ctx : Context) :
    ∀ es : List Source.Expr, ∀ e ∈ es, Ends (lowerNode ctx e) (failures (callForm ctx.facts) e)
  | [] => by simp
  | e :: es => by
    rw [List.forall_mem_cons]
    exact ⟨ends_lowerNode ctx e, ends_lowerEach ctx es⟩

theorem ends_lowerParts (ctx : Context) :
    ∀ parts : List (Source.Substitution Source.Expr), ∀ part ∈ parts,
      Ends (lowerNode ctx part.expr) (failures (callForm ctx.facts) part.expr)
  | [] => by simp
  | ⟨e, text, span⟩ :: parts => by
    rw [List.forall_mem_cons]
    exact ⟨ends_lowerNode ctx e, ends_lowerParts ctx parts⟩

end

theorem ends_lowerExpr (ctx : Context) (e : Source.Expr) :
    Ends (lowerExpr ctx e) (failures (callForm ctx.facts) e) :=
  (ends_lowerNode ctx e).inRole .operand

theorem failure?_lowerAlone (ctx : Context) (e : Source.Expr) :
    failure? (lowerAlone ctx e) = (failures (callForm ctx.facts) e).head? := by
  have hends : Ends (lowerInFrame ctx e) (failures (callForm ctx.facts) e) :=
    (ends_lowerExpr ctx e).inFrame
  obtain ⟨outcome, g, hrun, -, hfirst⟩ := hends .initial
  rw [lowerAlone, hrun, failure?_map, hfirst]

-- ════════════════════════════════════════════════════════════════════════
-- Trees without special calls
-- ════════════════════════════════════════════════════════════════════════

/-- The callee and the arguments of such a call are lowered, and nothing else can fail. -/
def CallForm.isOrdinary : CallForm → Bool
  | .method _ | .plain => true
  | .refused _ | .expanded _ => false

/-- All calls among some expressions are ordinary. -/
def Ordinary (form : Source.Expr → CallForm) (nodes : List Source.Expr) : Prop :=
  ∀ callee args span, .call callee args span ∈ nodes → (form callee).isOrdinary = true

theorem Ordinary.mono {form : Source.Expr → CallForm} {nodes fewer : List Source.Expr}
    (h : Ordinary form nodes) (hsub : fewer ⊆ nodes) : Ordinary form fewer :=
  fun callee args span hmem => h callee args span (hsub hmem)

theorem Ordinary.append {form : Source.Expr → CallForm} {xs ys : List Source.Expr}
    (h : Ordinary form (xs ++ ys)) : Ordinary form xs ∧ Ordinary form ys :=
  ⟨h.mono (List.subset_append_left ..), h.mono (List.subset_append_right ..)⟩

theorem Ordinary.tail {form : Source.Expr → CallForm} {e : Source.Expr} {es : List Source.Expr}
    (h : Ordinary form (e :: es)) : Ordinary form es :=
  h.mono (List.subset_cons_self ..)

theorem callFailures_of_isOrdinary {form : CallForm} (h : form.isOrdinary = true)
    (inside : List Failure) : callFailures form inside = inside := by
  cases form with
  | refused | expanded => cases h
  | method | plain => rfl

mutual

/-- Where all calls are ordinary, the walk needs to know nothing but the tree. -/
theorem failures_of_ordinary {form : Source.Expr → CallForm} :
    ∀ e : Source.Expr, Ordinary form e.nodes → failures form e = failures (fun _ => .plain) e
  | .name .., _ => rfl
  | .literal .., _ => rfl
  | .template _ parts _, h => by
    rw [failures, failures, partFailures_of_ordinary parts h.tail]
  | .binary left op right _, h => by
    obtain ⟨hleft, hright⟩ := h.tail.append
    rw [failures, failures, targetFailures_of_ordinary left.span left hleft,
      failures_of_ordinary left hleft, failures_of_ordinary right hright]
  | .property object _ _ _ _, h => by
    rw [failures, failures, failures_of_ordinary object h.tail]
  | .element object index _ _, h => by
    obtain ⟨hobject, hindex⟩ := h.tail.append
    rw [failures, failures, failures_of_ordinary object hobject, failures_of_ordinary index hindex]
  | .call callee args span, h => by
    obtain ⟨hcallee, hargs⟩ := h.tail.append
    rw [failures, failures, failures_of_ordinary callee hcallee, failuresAll_of_ordinary args hargs,
      callFailures_of_isOrdinary (h callee args span List.mem_cons_self)]
    rfl
  | .delete operand _, h => by
    rw [failures, failures, failures_of_ordinary operand h.tail]
  | .wrap _ inner _, h => by
    rw [failures, failures, failures_of_ordinary inner h.tail]

theorem targetFailures_of_ordinary {form : Source.Expr → CallForm} (written : Span) :
    ∀ left : Source.Expr, Ordinary form left.nodes →
      targetFailures form written left = targetFailures (fun _ => .plain) written left
  | .property object _ _ false _, h => by
    rw [targetFailures, targetFailures, failures_of_ordinary object h.tail]
  | .element object index false _, h => by
    obtain ⟨hobject, hindex⟩ := h.tail.append
    rw [targetFailures, targetFailures, failures_of_ordinary object hobject,
      failures_of_ordinary index hindex]
  | .wrap _ inner _, h => by
    rw [targetFailures, targetFailures, targetFailures_of_ordinary written inner h.tail]
  | .name .., _ | .property _ _ _ true _, _ | .element _ _ true _, _ | .literal .., _
  | .template .., _ | .binary .., _ | .call .., _ | .delete .., _ => rfl

theorem failuresAll_of_ordinary {form : Source.Expr → CallForm} :
    ∀ es : List Source.Expr, Ordinary form (Source.nodesAll es) →
      failuresAll form es = failuresAll (fun _ => .plain) es
  | [], _ => rfl
  | e :: es, h => by
    obtain ⟨hhead, htail⟩ := h.append
    rw [failuresAll, failuresAll, failures_of_ordinary e hhead, failuresAll_of_ordinary es htail]

theorem partFailures_of_ordinary {form : Source.Expr → CallForm} :
    ∀ parts : List (Source.Substitution Source.Expr), Ordinary form (Source.partNodes parts) →
      partFailures form parts = partFailures (fun _ => .plain) parts
  | [], _ => rfl
  | ⟨e, _, _⟩ :: parts, h => by
    obtain ⟨hhead, htail⟩ := h.append
    rw [partFailures, partFailures, failures_of_ordinary e hhead,
      partFailures_of_ordinary parts htail]

end

theorem expanderAt?_of_isEmpty {facts : Facts} (h : facts.expanders.isEmpty = true) (span : Span) :
    facts.expanderAt? span = none := by
  have hnone (symbol : Symbol) : facts.expanders.get? symbol = none := by
    rw [ExpanderTable.get?, List.isEmpty_iff.1 h]
    rfl
  exact Option.bind_eq_none_iff.2 fun symbol _ => hnone symbol

theorem isOrdinary_callForm {facts : Facts} {callee : Source.Expr}
    (hexpanders : facts.expanders.isEmpty = true)
    (htyped : ∀ object name nameSpan span,
      callee.unwrap = .property object name nameSpan false span →
      (facts.typeOf object).isAny = false) :
    (callForm facts callee).isOrdinary = true := by
  rw [callForm]
  split
  next object name nameSpan span hunwrap =>
    rw [htyped _ _ _ _ hunwrap, expanderAt?_of_isEmpty hexpanders]
    cases facts.isMethodAt span with
    | true => rfl
    | false => rfl
  · rfl

/-- Without expanders, and if no object of a called member has type `any`, an expression lowers
exactly if the walk over its tree meets no failure. Otherwise lowering stops with the failure that
the walk meets first. -/
theorem stops_at_first_failure {ctx : Context} {e : Source.Expr}
    (hexpanders : ctx.facts.expanders.isEmpty = true)
    (htyped : ∀ callee args span, .call callee args span ∈ e.nodes →
      ∀ object name nameSpan accessSpan,
        callee.unwrap = .property object name nameSpan false accessSpan →
        (ctx.facts.typeOf object).isAny = false) :
    ((∃ out, lowerAlone ctx e = .ok out) ↔ failures (fun _ => .plain) e = []) ∧
      ∀ failure, lowerAlone ctx e = .error failure ↔
        (failures (fun _ => .plain) e).head? = some failure := by
  have hordinary : Ordinary (callForm ctx.facts) e.nodes := fun callee args span hmem =>
    isOrdinary_callForm hexpanders (htyped callee args span hmem)
  have hfirst := failure?_lowerAlone ctx e
  rw [failures_of_ordinary e hordinary] at hfirst
  refine ⟨?_, fun failure => ?_⟩
  · rw [← failure?_eq_none, hfirst, List.head?_eq_none_iff]
  · rw [← failure?_eq_some, hfirst]

/-- In `o.m(delete g(), x == y)`, where `m` is a method, the deletion is found before the
comparison. -/
theorem deletion_met_before_comparison :
    let name (text : String) (column : Nat) : Source.Expr := .name text ⟨1, column, 1⟩
    let ctx : Context := ⟨Facts.empty.withMethod ⟨1, 3, 1⟩, default⟩
    let e : Source.Expr :=
      .call (.property (name "o" 1) "m" ⟨1, 2, 1⟩ false ⟨1, 3, 1⟩)
        [.delete (.call (name "g" 4) [] ⟨1, 5, 1⟩) ⟨1, 6, 1⟩,
          .binary (name "x" 7) .looseEq (name "y" 8) ⟨1, 9, 2⟩] ⟨1, 11, 1⟩
    ctx.facts.expanders.isEmpty = true ∧
      failures (fun _ => .plain) e =
        [.fault (.operandNotDeletable ⟨1, 5, 1⟩), .fault (.operatorRefused "==" "===" ⟨1, 9, 2⟩)] ∧
      lowerAlone ctx e = .error (.fault (.operandNotDeletable ⟨1, 5, 1⟩)) := by
  intro name ctx e
  have hobject : (StaticType.ofTags .object).isAny = false := by decide
  have hstops := @stops_at_first_failure ctx e rfl fun _ _ _ _ _ _ _ _ _ => hobject
  exact ⟨rfl, rfl, (hstops.2 _).2 rfl⟩

end ExprLowering.Lowering
