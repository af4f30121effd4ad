import ExprLowering.Proofs.Renumber
import ExprLowering.Proofs.Reports

/-!
# Calls and writes of lowered code

The trace of target code is the list of all its calls, method calls and writes in the order of
evaluation, the conversions that templates insert included. The statements of a lowering have the
first part of its trace, and the value that is still pending has the rest. Whether a value is saved
in a temporary changes where the border lies, and nothing else.

## Main definitions

* `trace`, `stmtTrace`, `Growth.trace`, `Output.trace`: the calls and writes of target code.

## Main results

* `Lowers.operator_parts`, `Lowers.assignment_parts`, `Lowers.property_parts`, …: the trace of a
  lowering from the traces of its parts, one lemma for each kind of expression.
* `Lowers.same_trace`: the trace does not depend on the temporaries that are free.
-/

namespace ExprLowering.Lowering

open Source (Calculation Substitution)
open Target

mutual

/-- The calls in a target expression, in the order of evaluation. -/
def trace : Expr → List Event
  | .nil | .bool _ | .number _ | .string _ | .name _ | .temp _ => []
  | .binary left _ right => trace left ++ trace right
  | .property object _ => trace object
  | .index object key => trace object ++ trace key
  | .call callee args => trace callee ++ traceAll args ++ [.call args.length]
  | .method object name args => trace object ++ traceAll args ++ [.method name args.length]
  | .paren inner => trace inner

/-- The calls in target expressions, one after the other. -/
def traceAll : List Expr → List Event
  | [] => []
  | e :: es => trace e ++ traceAll es

end

/-- The calls and the write of a statement; the left side of an assignment comes before its right
side. -/
def stmtTrace : Stmt → List Event
  | .declare _ value => trace value
  | .assign left _ right => trace left ++ trace right ++ [.write (targetLabel left)]

/-- The calls and writes of added statements. -/
def Growth.trace (g : Growth) : List Event := g.stmts.flatMap stmtTrace

/-- The calls and writes of everything that a lowering gives out. -/
def Output.trace (out : Output) : List Event :=
  out.stmts.flatMap stmtTrace ++ Lowering.trace out.value

@[simp] theorem traceAll_nil : traceAll [] = [] := rfl

@[simp] theorem traceAll_cons (e : Expr) (es : List Expr) :
    traceAll (e :: es) = trace e ++ traceAll es := rfl

@[simp] theorem traceAll_append (xs ys : List Expr) :
    traceAll (xs ++ ys) = traceAll xs ++ traceAll ys := by
  induction xs with
  | nil => rfl
  | cons e es ih => simp [ih]

@[simp] theorem trace_toIndexable (e : Expr) : trace e.toIndexable = trace e := by
  unfold Expr.toIndexable
  split
  · rfl
  · rfl

theorem trace_atom {e : Expr} (h : e.isAtom = true) : trace e = [] := by
  cases e with
  | nil | bool | number | string | name | temp => rfl
  | binary | property | index | call | method | paren => cases h

@[simp] theorem Growth.trace_empty : (∅ : Growth).trace = [] := rfl

@[simp] theorem Growth.trace_append (g h : Growth) : (g ++ h).trace = g.trace ++ h.trace :=
  List.flatMap_append

@[simp] theorem Growth.trace_ofStmt (stmt : Stmt) :
    (Growth.ofStmts [stmt]).trace = stmtTrace stmt := List.append_nil _

theorem Growth.trace_congr {g h : Growth} (hstmts : g.stmts = h.stmts) : g.trace = h.trace :=
  congrArg (List.flatMap stmtTrace) hstmts

theorem Growth.trace_of_stmts {g : Growth} (h : g.stmts = []) : g.trace = [] :=
  Growth.trace_congr (h := ∅) h

-- ════════════════════════════════════════════════════════════════════════
-- Saved values
-- ════════════════════════════════════════════════════════════════════════

@[simp] theorem trace_saved (n : Nat) (value : Expr) : (saved n value).2.trace = trace value := by
  cases h : value.isAtom with
  | true => rw [saved_atom h, Growth.trace_empty, trace_atom h]
  | false =>
    rw [saved_complex h]
    exact List.append_nil _

@[simp] theorem trace_saved_value (n : Nat) (value : Expr) : trace (saved n value).1 = [] :=
  trace_atom (saved_isAtom n value)

/-- A value is saved by a statement unless it is an atom. -/
theorem stmts_saved_eq_nil_iff (n : Nat) (value : Expr) :
    (saved n value).2.stmts = [] ↔ value.isAtom = true := by
  cases h : value.isAtom with
  | true => simp [saved_atom h]
  | false => simp [saved_complex h, Growth.declaring]

theorem trace_settleAll (n : Nat) (values : List Expr) :
    (settleAll n values).2.trace = traceAll values ∧ traceAll (settleAll n values).1 = [] := by
  induction values generalizing n with
  | nil => exact ⟨rfl, rfl⟩
  | cons value values ih =>
    cases h : value.isSettled with
    | true =>
      have hnone := trace_atom (Expr.isAtom_of_isSettled h)
      simpa [settleAll_cons_settled h, hnone] using ih n
    | false =>
      obtain ⟨hstmts, hvalues⟩ := ih (n + 1)
      rw [settleAll_cons_unsettled h, Growth.trace_append, hstmts]
      exact ⟨by simp [Growth.trace, Growth.declaring, stmtTrace], hvalues⟩

/-- Before an operand with statements, earlier values are evaluated. -/
theorem trace_displaced_of_ne_nil {stmts : List Stmt} (h : stmts ≠ []) (n : Nat)
    (earlier : List Expr) : (displaced n earlier stmts).2.trace = traceAll earlier := by
  cases stmts with
  | nil => exact absurd rfl h
  | cons stmt stmts => exact (trace_settleAll n earlier).1

/-- Whether or not earlier values are saved, they come before an operand's statements and before its
value. -/
theorem trace_displaced (n : Nat) (earlier : List Expr) (g : Growth) (value : Expr) :
    (displaced n earlier g.stmts).2.trace ++ g.trace ++
        traceAll ((displaced n earlier g.stmts).1 ++ [value]) =
      traceAll earlier ++ (g.trace ++ trace value) := by
  cases hstmts : g.stmts with
  | nil => simp [Growth.trace_of_stmts hstmts]
  | cons stmt stmts =>
    obtain ⟨hsaved, hnone⟩ := trace_settleAll n earlier
    simp [hsaved, hnone]

-- ════════════════════════════════════════════════════════════════════════
-- Templates, operators and assignments
-- ════════════════════════════════════════════════════════════════════════

theorem trace_concatenation (segments : List Expr) :
    trace (concatenation segments) = traceAll segments := by
  have hchain (first : Expr) (rest : List Expr) :
      trace (rest.foldl (fun chain segment => .binary chain .concat segment) first) =
        trace first ++ traceAll rest := by
    induction rest generalizing first with
    | nil => simp
    | cons segment rest ih => simp [ih, trace]
  cases segments with
  | nil => rfl
  | cons first rest => exact hchain first rest

theorem traceAll_textSegment (text : String) : traceAll (textSegment text) = [] := by
  rw [textSegment]
  split
  · rfl
  · rfl

/-- The conversion of a substituted value, if it has one. -/
def conversion (facts : Facts) (part : Substitution Source.Expr) : List Event :=
  if (facts.typeOf part.expr).isString then [] else [.call 1]

theorem trace_valueSegment (facts : Facts) (part : Substitution Source.Expr) (value : Expr) :
    trace (valueSegment facts part.expr value) = trace value ++ conversion facts part := by
  rw [valueSegment, conversion]
  split
  · exact (List.append_nil _).symm
  · simp [trace]

/-- The value of a template has the calls of its parts, and the conversions among them. -/
theorem trace_templateValue (facts : Facts) (head : String)
    {parts : List (Substitution Source.Expr)} {values : List Expr}
    (h : values.length = parts.length) :
    (trace (templateValue facts head parts values)).Perm
        (traceAll values ++ parts.flatMap (conversion facts)) ∧
      (parts.flatMap (conversion facts) = [] →
        trace (templateValue facts head parts values) = traceAll values) := by
  rw [templateValue, trace_concatenation, traceAll_append, traceAll_textSegment, List.nil_append]
  induction parts generalizing values with
  | nil =>
    obtain rfl := List.length_eq_zero_iff.1 h
    exact ⟨.refl _, fun _ => rfl⟩
  | cons part parts ih =>
    obtain ⟨value, values, rfl⟩ := List.exists_cons_of_length_eq_add_one h
    obtain ⟨hperm, heq⟩ := ih (Nat.succ.inj h)
    rw [partSegments, traceAll_cons, traceAll_append, traceAll_textSegment, List.nil_append,
      trace_valueSegment, traceAll_cons, List.flatMap_cons]
    constructor
    · rw [List.append_assoc, List.append_assoc]
      refine .append_left _ ((hperm.append_left _).trans ?_)
      rw [← List.append_assoc, ← List.append_assoc]
      exact List.perm_append_comm.append_right _
    · intro hnone
      obtain ⟨hfirst, hrest⟩ := List.append_eq_nil_iff.1 hnone
      rw [hfirst, List.append_nil, heq hrest]

theorem trace_build (form : SimpleForm) (a b : Expr) :
    trace (form.build a b) = trace a ++ trace b ++ formEffects form := by
  cases form with
  | native op => simp [SimpleForm.build, trace, formEffects]
  | bits function => simp [SimpleForm.build, trace, formEffects]

theorem trace_compoundStmt (options : Options) (c : Calculation) {place : Expr}
    (hplace : trace place = []) (value : Expr) :
    stmtTrace (compoundStmt options c place value) =
      trace value ++ operatorEffects (.assignWith c) ++ [.write (targetLabel place)] := by
  have hform : formEffects (calculationForm c) = operatorEffects (.assignWith c) := by
    cases c <;> rfl
  rw [compoundStmt]
  split
  · rename_i compound hsome
    -- Only arithmetic is written as a compound assignment, and makes no call.
    have hnone : operatorEffects (.assignWith c) = [] := by
      cases c with
      | arithmetic op => rfl
      | bitwise op => cases hkeep : options.keepCompound <;> simp [hkeep, compoundOp?] at hsome
    simp [stmtTrace, hplace, hnone]
  · simp [stmtTrace, hplace, trace_build, hform]

theorem removal_eq_nil_iff {role : Option Role} {e : Source.Expr} :
    removal role e = [] ↔ role ≠ some .deleted := by
  by_cases h : role = some .deleted
  · simp [removal, h]
  · simp [removal, h]

/-- A member is evaluated and, if it is deleted, written to. -/
theorem trace_memberRead (role : Option Role) {member : Expr} {e : Source.Expr}
    (h : targetLabel member = sourceLabel e) :
    (memberRead role member).2.trace ++ trace (memberRead role member).1 =
      trace member ++ removal role e := by
  rw [memberRead, removal]
  split
  · simp [stmtTrace, trace, h]
  · simp

-- ════════════════════════════════════════════════════════════════════════
-- Parts of derivations
-- ════════════════════════════════════════════════════════════════════════

section

variable {ctx : Context} {role : Option Role} {n : Nat} {v : Expr} {g : Growth} {span : Span}

/-- An operator that assigns nothing has the trace of its sides, and makes its call at the end. -/
theorem Lowers.operator_parts {left right : Source.Expr} {op : Source.Operator}
    (h : Lowers ctx (.expr role (.binary left op right span)) n [v] g)
    (hop : op.isAssignment = false) :
    ∃ a b g₀, Lowers ctx (.operands [] [left, right]) n [a, b] g₀ ∧ g.stmts = g₀.stmts ∧
      v.isAtom = false ∧ trace v = trace a ++ trace b ++ operatorEffects op := by
  cases h with
  | @simple _ _ _ _ _ _ form a b _ hkind hboth =>
    refine ⟨a, b, g, hboth, rfl, ?_, ?_⟩
    · cases form <;> rfl
    · rw [trace_build, (operatorEffects_simple hkind).2]
  | @logical _ _ _ _ _ _ a b g₀ hkind hboth =>
    obtain ⟨l, rfl⟩ := eq_logical_of_operatorKind hkind
    exact ⟨a, b, g₀, hboth, rfl, rfl, by simp [trace, operatorEffects]⟩
  | assign hkind =>
    obtain rfl := eq_assign_of_operatorKind hkind
    cases hop
  | compound hkind =>
    obtain rfl := eq_assignWith_of_operatorKind hkind
    cases hop

theorem isAtom_nameValue (text : String) : (nameValue text).isAtom = true := by
  rw [nameValue]
  split
  · rfl
  · rfl

theorem isAtom_literalValue (value : Source.Literal) : (literalValue value).isAtom = true := by
  cases value <;> rfl

/-- The target of an assignment has no calls left when it is written to. -/
theorem Lowers.trace_target {left : Source.Expr} (h : Lowers ctx (.target left) n [v] g) :
    trace v = [] := by
  cases h with
  | @targetName _ text => exact trace_atom (isAtom_nameValue text)
  | targetProperty => simp [trace]
  | targetElement => simp [trace]

/-- The target of an assignment is an atom if it is a name, and only then. -/
theorem Lowers.isAtom_target {left : Source.Expr} (h : Lowers ctx (.target left) n [v] g) :
    v.isAtom = true ↔ ∃ text span, left.unwrap = .name text span := by
  cases h with
  | @targetName _ text span _ hunwrap =>
    exact ⟨fun _ => ⟨text, span, hunwrap⟩, fun _ => isAtom_nameValue text⟩
  | targetProperty hunwrap => simp [Expr.isAtom, hunwrap]
  | targetElement hunwrap => simp [Expr.isAtom, hunwrap]

/-- All that the parts of a target do is done when it is written to. -/
theorem Lowers.target_parts {left : Source.Expr} (h : Lowers ctx (.target left) n [v] g) :
    match left.unwrap with
    | .property object _ _ _ _ => ∃ value g₀,
      Lowers ctx (.expr (some .operand) object) n [value] g₀ ∧ g.trace = g₀.trace ++ trace value
    | .element object index _ _ => ∃ a b g₀,
      Lowers ctx (.operands [] [object, index]) n [a, b] g₀ ∧ g.trace = g₀.trace ++ traceAll [a, b]
    | _ => g.trace = [] := by
  cases h with
  | targetName hunwrap =>
    rw [hunwrap]
    rfl
  | targetProperty hunwrap hobject =>
    rw [hunwrap]
    exact ⟨_, _, hobject, by simp⟩
  | targetElement hunwrap hboth =>
    rw [hunwrap]
    exact ⟨_, _, _, hboth, by simp⟩

/-- An assignment has the trace of its sides, makes its call and writes. All of this is done before
its value is used. -/
theorem Lowers.assignment_parts {left right : Source.Expr} {op : Source.Operator}
    (h : Lowers ctx (.expr role (.binary left op right span)) n [v] g)
    (hop : op.isAssignment = true) :
    ∃ place value g₁ g₂ m, Lowers ctx (.target left) n [place] g₁ ∧
      Lowers ctx (.expr (some .operand) right) m [value] g₂ ∧ trace v = [] ∧ g.stmts ≠ [] ∧
      (v.isAtom = true ↔ op = .assign ∨ ∃ text span, left.unwrap = .name text span) ∧
      g.trace = g₁.trace ++ (g₂.trace ++ trace value) ++
        (operatorEffects op ++ [.write (sourceLabel left)]) := by
  cases h with
  | simple hkind => exact absurd (operatorEffects_simple hkind).1 (by simp [hop])
  | logical hkind =>
    obtain ⟨l, rfl⟩ := eq_logical_of_operatorKind hkind
    cases hop
  | @assign _ _ _ _ _ _ place value g₁ g₂ hkind hleft hright hplace =>
    obtain rfl := eq_assign_of_operatorKind hkind
    refine ⟨place, value, g₁, g₂, _, hleft, hright, trace_saved_value _ _, by simp [Growth.ofStmts],
      by simp [saved_isAtom], ?_⟩
    simp [stmtTrace, hleft.trace_target, (hleft.events_target hplace).2, operatorEffects]
  | @compound _ _ _ _ _ _ c place value g₁ g₂ hkind hleft hright hplace =>
    obtain rfl := eq_assignWith_of_operatorKind hkind
    refine ⟨v, value, g₁, g₂, _, hleft, hright, hleft.trace_target, by simp [Growth.ofStmts],
      by simp [hleft.isAtom_target], ?_⟩
    simp [trace_compoundStmt _ _ hleft.trace_target, (hleft.events_target hplace).2]

/-- What becomes of the value of an object before its member is read: it is saved if the access is
optional. -/
inductive Received (value : Expr) (g : Growth) : Bool → Expr → Growth → Prop where
  | asIs : Received value g false value g
  | inTemp (m : Nat) : Received value g true (saved m value).1 (g ++ (saved m value).2)

theorem Lowers.property_parts {object : Source.Expr} {name : String} {nameSpan : Span}
    {optional : Bool}
    (h : Lowers ctx (.expr role (.property object name nameSpan optional span)) n [v] g) :
    ∃ value g₀ receiver g₁, Lowers ctx (.expr (some .operand) object) n [value] g₀ ∧
      Received value g₀ optional receiver g₁ ∧
      v = (propertyRead ctx role object name nameSpan span receiver).1 ∧
      g.stmts =
        g₁.stmts ++ (propertyRead ctx role object name nameSpan span receiver).2.stmts := by
  cases h with
  | property hobject => exact ⟨_, _, _, _, hobject, .asIs, rfl, rfl⟩
  | chainProperty hobject => exact ⟨_, _, _, _, hobject, .inTemp _, rfl, by simp [Growth.oneChain]⟩

theorem Lowers.element_parts {object index : Source.Expr} {optional : Bool}
    (h : Lowers ctx (.expr role (.element object index optional span)) n [v] g) :
    ∃ a b g₀, Lowers ctx (.operands [] [object, index]) n [a, b] g₀ ∧
      v = (elementRead ctx role object a b).1 ∧
      g.stmts = g₀.stmts ++ (elementRead ctx role object a b).2.stmts := by
  cases h with
  | element hboth => exact ⟨_, _, _, hboth, rfl, rfl⟩
  | chainElement hboth => exact ⟨_, _, _, hboth, rfl, by simp [Growth.oneChain]⟩

theorem callForm_ne_expanded {facts : Facts} (hexpanders : facts.expanders.isEmpty = true)
    (callee : Source.Expr) (expander : Expander) : callForm facts callee ≠ .expanded expander := by
  intro hform
  rw [callForm] at hform
  split at hform
  · rw [expanderAt?_of_isEmpty hexpanders] at hform
    dsimp only at hform
    split at hform
    · cases hform
    · split at hform <;> cases hform
  · cases hform

/-- The effect that a call has itself. -/
def callEvent (facts : Facts) (callee : Source.Expr) (args : Nat) : Event :=
  match callForm facts callee with
  | .method name => .method name args
  | _ => .call args

/-- A call is refused, or has the trace of what is called, then that of its arguments, and calls at
the end. -/
theorem Lowers.call_parts {callee : Source.Expr} {args : List Source.Expr}
    (h : Lowers ctx (.expr role (.call callee args span)) n [v] g)
    (hexpanders : ctx.facts.expanders.isEmpty = true) :
    (parts ctx.facts role (.call callee args span) = [] ∧ v = .placeholder ∧ g.stmts = []) ∨
      ∃ receiver value head values g₁ g₂ m,
        parts ctx.facts role (.call callee args span) = receiver :: asOperands args ∧
        Lowers ctx (.expr receiver.1 receiver.2) n [value] g₁ ∧
        Lowers ctx (.operands [value] args) m (head :: values) g₂ ∧
        g.stmts = g₁.stmts ++ g₂.stmts ∧ v.isAtom = false ∧
        trace v = traceAll (head :: values) ++ [callEvent ctx.facts callee args.length] := by
  have hlength {value head : Expr} {values : List Expr} {m : Nat} {g₂ : Growth}
      (hargs : Lowers ctx (.operands [value] args) m (head :: values) g₂) :
      values.length = args.length := by
    have hlength := hargs.length_values
    simp only [List.length_cons, List.length_nil] at hlength
    omega
  cases h with
  | refusedCall hform => exact .inl ⟨by rw [parts, hform], rfl, rfl⟩
  | expandedCall hform => exact absurd hform (callForm_ne_expanded hexpanders _ _)
  | methodCall hform hunwrap hobject hargs =>
    refine .inr ⟨_, _, _, _, _, _, _, parts_memberCall hunwrap (.inr ⟨_, hform⟩) _ _ _, hobject,
      hargs, rfl, rfl, ?_⟩
    simp [trace, callEvent, hform, hlength hargs]
  | plainCall hform hcallee hargs =>
    refine .inr ⟨_, _, _, _, _, _, _, parts_plainCall hform _ _ _, hcallee, hargs, rfl, rfl, ?_⟩
    simp [trace, callEvent, hform, hlength hargs]

end

-- ════════════════════════════════════════════════════════════════════════
-- Renumbered temporaries
-- ════════════════════════════════════════════════════════════════════════

theorem length_renumberAll (f : Nat → Nat) (es : List Expr) :
    (renumberAll f es).length = es.length := by
  rw [renumberAll_eq_map, List.length_map]

mutual

theorem trace_renumber (f : Nat → Nat) : ∀ e : Expr, trace (e.renumber f) = trace e
  | .nil | .bool _ | .number _ | .string _ | .name _ | .temp _ => rfl
  | .binary left _ right => by
    simp only [Expr.renumber, trace, trace_renumber f left, trace_renumber f right]
  | .property object _ => trace_renumber f object
  | .index object key => by
    simp only [Expr.renumber, trace, trace_renumber f object, trace_renumber f key]
  | .call callee args => by
    simp only [Expr.renumber, trace, trace_renumber f callee, traceAll_renumber f args,
      length_renumberAll]
  | .method object _ args => by
    simp only [Expr.renumber, trace, trace_renumber f object, traceAll_renumber f args,
      length_renumberAll]
  | .paren inner => trace_renumber f inner

theorem traceAll_renumber (f : Nat → Nat) :
    ∀ es : List Expr, traceAll (renumberAll f es) = traceAll es
  | [] => rfl
  | e :: es => by rw [renumberAll, traceAll, trace_renumber f e, traceAll_renumber f es, traceAll]

end

theorem stmtTrace_renumber (f : Nat → Nat) (stmt : Stmt) :
    stmtTrace (stmt.renumber f) = stmtTrace stmt := by
  cases stmt with
  | declare t value => exact trace_renumber f value
  | assign left op right =>
    have hlabel : targetLabel (left.renumber f) = targetLabel left := by cases left <;> rfl
    rw [Stmt.renumber, stmtTrace, trace_renumber, trace_renumber, hlabel, stmtTrace]

theorem Growth.trace_renumber (f : Nat → Nat) (g : Growth) : (g.renumber f).trace = g.trace := by
  rw [Growth.trace, Growth.renumber_stmts, List.flatMap_map]
  exact congrArg (List.flatMap · g.stmts) (funext (stmtTrace_renumber f))

/-- An operand has the same trace whatever temporaries its lowering starts at. -/
theorem Lowers.same_trace {ctx : Context} {e : Source.Expr} {n n' : Nat} {v v' : Expr}
    {g g' : Growth} (h : Lowers ctx (.expr (some .operand) e) n [v] g)
    (h' : Lowers ctx (.expr (some .operand) e) n' [v'] g') :
    g.trace = g'.trace ∧ trace v = trace v' := by
  have hfirst {n : Nat} {v : Expr} {g : Growth}
      (h : Lowers ctx (.expr (some .operand) e) n [v] g) :
      Lowers ctx (.expr (some .operand) e) 0 [v.renumber (· - n)] (g.renumber (· - n)) := by
    have hdown : Gapless (· - n) n := fun t ht => Nat.sub_add_comm ht
    exact (h.renumber hdown (Nat.le_refl n)).cast (Nat.sub_self n) rfl rfl
  obtain ⟨hvalues, hgrowth⟩ := (hfirst h).unique Role.noConfusion (hfirst h')
  constructor
  · rw [← g.trace_renumber (· - n), hgrowth, Growth.trace_renumber]
  · rw [← trace_renumber (· - n) v, (List.cons.inj hvalues).1, trace_renumber]

end ExprLowering.Lowering
