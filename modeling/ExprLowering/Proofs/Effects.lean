import ExprLowering.Proofs.Scope

/-!
# Effects are kept in order

The effects of an expression are its calls, its method calls and its writes, in the order of
evaluation. The statements that a lowering emits, followed by the value that is still pending, have
exactly the effects of the source expression.

## Main definitions

* `Source.Expr.nodes`: an expression and everything inside it.
* `Event`, `effects`, `Expr.events`: the effects of source and of target expressions.
* `Plain`: expressions in which lowering drops nothing and adds nothing.

## Main results

* `Lowers.faithful`: no effect is lost, added or moved, by induction on derivations.
* `effects_kept_in_order`: the same for an expression on its own.
-/

namespace ExprLowering.Source

mutual

/-- An expression and all expressions inside it. -/
def Expr.nodes : Expr → List Expr
  | .name text span => [.name text span]
  | .literal value span => [.literal value span]
  | .template head parts span => .template head parts span :: partNodes parts
  | .binary left op right span => .binary left op right span :: (left.nodes ++ right.nodes)
  | .property object name nameSpan optional span =>
    .property object name nameSpan optional span :: object.nodes
  | .element object index optional span =>
    .element object index optional span :: (object.nodes ++ index.nodes)
  | .call callee args span => .call callee args span :: (callee.nodes ++ nodesAll args)
  | .delete operand span => .delete operand span :: operand.nodes
  | .wrap wrapper inner span => .wrap wrapper inner span :: inner.nodes

/-- All expressions inside the expressions of a list, and these themselves. -/
def nodesAll : List Expr → List Expr
  | [] => []
  | e :: es => e.nodes ++ nodesAll es

/-- The same for the substitutions of a template. -/
def partNodes : List (Substitution Expr) → List Expr
  | [] => []
  | ⟨e, _, _⟩ :: parts => e.nodes ++ partNodes parts

end

theorem partNodes_eq (parts : List (Substitution Expr)) :
    partNodes parts = nodesAll (parts.map (·.expr)) := by
  induction parts with
  | nil => rfl
  | cons part parts ih => rw [partNodes, ih]; rfl

theorem Expr.nodes_unwrap_subset (e : Expr) : e.unwrap.nodes ⊆ e.nodes := by
  fun_induction unwrap e with
  | case1 wrapper inner span ih => exact List.Subset.trans ih (List.subset_cons_self ..)
  | case2 e _ => exact List.Subset.refl _

theorem Expr.nodes_property_subset {e object : Expr} {name : String} {nameSpan span : Span}
    {optional : Bool} (h : e.unwrap = .property object name nameSpan optional span) :
    object.nodes ⊆ e.nodes := by
  have hsub := e.nodes_unwrap_subset
  rw [h] at hsub
  exact List.Subset.trans (List.subset_cons_self ..) hsub

theorem Expr.nodes_element_subset {e object index : Expr} {span : Span} {optional : Bool}
    (h : e.unwrap = .element object index optional span) :
    object.nodes ++ index.nodes ⊆ e.nodes := by
  have hsub := e.nodes_unwrap_subset
  rw [h] at hsub
  exact List.Subset.trans (List.subset_cons_self ..) hsub

end ExprLowering.Source

namespace ExprLowering.Lowering

open Source (Calculation)
open Target

/-- What is written to. -/
inductive Label where
  | variable (name : String)
  | property (name : String)
  | index
deriving DecidableEq, Repr

/-- An effect. Calls are known by the number of their arguments. -/
inductive Event where
  | call (args : Nat)
  | method (name : String) (args : Nat)
  | write (label : Label)
deriving DecidableEq, Repr

/-- The label of a write to a source expression, whatever its wrappers. Only names and member
accesses are written to. -/
def sourceLabel (e : Source.Expr) : Label :=
  match e.unwrap with
  | .name text _ => .variable text
  | .property _ name _ _ _ => .property name
  | _ => .index

/-- The name of the method that a callee stands for. -/
def calledMethod? (facts : Facts) (callee : Source.Expr) : Option String :=
  match callee.unwrap with
  | .property _ name _ false span => if facts.isMethodAt span then some name else none
  | _ => none

/-- The call that an operator on bits or a logical operator makes. -/
def operatorEffects : Source.Operator → List Event
  | .logical _ => [.call 2]
  | .calculation (.bitwise _) => [.call 2]
  | .assignWith (.bitwise _) => [.call 2]
  | _ => []

mutual

/-- The effects of a source expression, in the order of evaluation. -/
def effects (facts : Facts) : Source.Expr → List Event
  | .name .. | .literal .. => []
  | .template _ parts _ => partEffects facts parts
  | .binary left op right _ =>
    effects facts left ++ effects facts right ++ operatorEffects op ++
      if op.isAssignment then [.write (sourceLabel left)] else []
  | .property object .. => effects facts object
  | .element object index .. => effects facts object ++ effects facts index
  | .call callee args _ =>
    effects facts callee ++ effectsAll facts args ++
      match calledMethod? facts callee with
      | some name => [.method name args.length]
      | none => [.call args.length]
  | .delete operand _ => effects facts operand ++ [.write (sourceLabel operand)]
  | .wrap _ inner _ => effects facts inner

/-- The effects of source expressions one after the other. -/
def effectsAll (facts : Facts) : List Source.Expr → List Event
  | [] => []
  | e :: es => effects facts e ++ effectsAll facts es

/-- The effects of the substitutions of a template. -/
def partEffects (facts : Facts) : List (Source.Substitution Source.Expr) → List Event
  | [] => []
  | ⟨e, _, _⟩ :: parts => effects facts e ++ partEffects facts parts

end

theorem partEffects_eq (facts : Facts) (parts : List (Source.Substitution Source.Expr)) :
    partEffects facts parts = effectsAll facts (parts.map (·.expr)) := by
  induction parts with
  | nil => rfl
  | cons part parts ih => rw [partEffects, ih]; rfl

/-- Wrappers have no effects. -/
theorem effects_unwrap (facts : Facts) (e : Source.Expr) :
    effects facts e.unwrap = effects facts e := by
  fun_induction Source.Expr.unwrap e with
  | case1 _ inner _ ih => rw [ih, effects]
  | case2 e _ => rfl

/-- Whether a call is the conversion that templates insert. -/
def isConversion (callee : Expr) (args : List Expr) : Bool :=
  match callee, args with
  | .name text, [_] => text == "tostring"
  | _, _ => false

mutual

/-- The effects of a target expression, in the order of evaluation. Conversions have none. -/
def events : Expr → List Event
  | .nil | .bool _ | .number _ | .string _ | .name _ | .temp _ => []
  | .binary left _ right => events left ++ events right
  | .property object _ => events object
  | .index object key => events object ++ events key
  | .call callee args =>
    events callee ++ eventsAll args ++ if isConversion callee args then [] else [.call args.length]
  | .method object name args => events object ++ eventsAll args ++ [.method name args.length]
  | .paren inner => events inner

/-- The effects of target expressions one after the other. -/
def eventsAll : List Expr → List Event
  | [] => []
  | e :: es => events e ++ eventsAll es

end

/-- The label of an assignment to a target expression. -/
def targetLabel : Expr → Label
  | .name text => .variable text
  | .property _ name => .property name
  | _ => .index

/-- The effects of a statement; the left side of an assignment comes before its right side. -/
def stmtEvents : Stmt → List Event
  | .declare _ value => events value
  | .assign left _ right => events left ++ events right ++ [.write (targetLabel left)]

@[simp] theorem eventsAll_nil : eventsAll [] = [] := rfl

@[simp] theorem eventsAll_cons (e : Expr) (es : List Expr) :
    eventsAll (e :: es) = events e ++ eventsAll es := rfl

@[simp] theorem eventsAll_append (xs ys : List Expr) :
    eventsAll (xs ++ ys) = eventsAll xs ++ eventsAll ys := by
  induction xs with
  | nil => rfl
  | cons e es ih => simp [ih]

@[simp] theorem events_toIndexable (e : Expr) : events e.toIndexable = events e := by
  unfold Expr.toIndexable
  split
  · rfl
  · rfl

theorem events_atom {e : Expr} (h : e.isAtom = true) : events e = [] := by
  cases e with
  | nil | bool | number | string | name | temp => rfl
  | binary | property | index | call | method | paren => cases h

/-- A value that is saved has its effects when it is saved, and none later. -/
theorem events_saved (n : Nat) (value : Expr) :
    (saved n value).2.stmts.flatMap stmtEvents = events value := by
  cases h : value.isAtom with
  | true => simp [saved_atom h, events_atom h]
  | false => simp [saved_complex h, Growth.declaring, stmtEvents]

theorem events_settleAll (n : Nat) (values : List Expr) :
    (settleAll n values).2.stmts.flatMap stmtEvents = eventsAll values ∧
      eventsAll (settleAll n values).1 = [] := by
  induction values generalizing n with
  | nil => exact ⟨rfl, rfl⟩
  | cons value values ih =>
    cases h : value.isSettled with
    | true =>
      have hnone := events_atom (Expr.isAtom_of_isSettled h)
      simpa [settleAll_cons_settled h, hnone] using ih n
    | false =>
      obtain ⟨hstmts, hvalues⟩ := ih (n + 1)
      simp [settleAll_cons_unsettled h, Growth.declaring, stmtEvents, hstmts, hvalues, events]

/-- Earlier values have their effects before the statements of an operand. -/
theorem events_displaced (n : Nat) (earlier : List Expr) (stmts : List Stmt) :
    (displaced n earlier stmts).2.stmts.flatMap stmtEvents ++ stmts.flatMap stmtEvents ++
        eventsAll (displaced n earlier stmts).1 =
      eventsAll earlier ++ stmts.flatMap stmtEvents := by
  cases stmts with
  | nil => simp
  | cons stmt stmts =>
    obtain ⟨hstmts, hvalues⟩ := events_settleAll n earlier
    rw [displaced_cons, hstmts, hvalues, List.append_nil]

theorem events_concatenation (segments : List Expr) :
    events (concatenation segments) = eventsAll segments := by
  have hchain (first : Expr) (rest : List Expr) :
      events (rest.foldl (fun chain segment => .binary chain .concat segment) first) =
        events first ++ eventsAll rest := by
    induction rest generalizing first with
    | nil => simp
    | cons segment rest ih => simp [ih, events]
  cases segments with
  | nil => rfl
  | cons first rest => exact hchain first rest

theorem eventsAll_textSegment (text : String) : eventsAll (textSegment text) = [] := by
  rw [textSegment]
  split
  · rfl
  · rfl

theorem eventsAll_partSegments (facts : Facts) {parts : List (Source.Substitution Source.Expr)}
    {values : List Expr} (h : values.length = parts.length) :
    eventsAll (partSegments facts parts values) = eventsAll values := by
  induction parts generalizing values with
  | nil =>
    obtain rfl := List.length_eq_zero_iff.1 h
    rfl
  | cons part parts ih =>
    obtain ⟨value, values, rfl⟩ := List.exists_cons_of_length_eq_add_one h
    have hvalue : events (valueSegment facts part.expr value) = events value := by
      rw [valueSegment]
      split
      · rfl
      · simp [events, isConversion]
    have hrest := ih (Nat.succ.inj h)
    simp [partSegments, hvalue, eventsAll_textSegment, hrest]

theorem events_templateValue (facts : Facts) (head : String)
    {parts : List (Source.Substitution Source.Expr)} {values : List Expr}
    (h : values.length = parts.length) :
    events (templateValue facts head parts values) = eventsAll values := by
  rw [templateValue, events_concatenation, eventsAll_append, eventsAll_textSegment,
    eventsAll_partSegments facts h, List.nil_append]

/-- The call that a simple operator becomes, if it does. -/
def formEffects : SimpleForm → List Event
  | .native _ => []
  | .bits _ => [.call 2]

theorem events_build (form : SimpleForm) (a b : Expr) :
    events (form.build a b) = events a ++ events b ++ formEffects form := by
  cases form with
  | native op => simp [SimpleForm.build, events, formEffects]
  | bits function => simp [SimpleForm.build, events, isConversion, formEffects]

/-- A simple operator assigns nothing and calls a function exactly if it works on bits. -/
theorem operatorEffects_simple {op : Source.Operator} {span : Span} {form : SimpleForm}
    (h : operatorKind op span = .ok (.simple form)) :
    op.isAssignment = false ∧ operatorEffects op = formEffects form := by
  cases op with
  | comparison c =>
    cases h
    exact ⟨rfl, rfl⟩
  | calculation c =>
    cases h
    cases c with
    | arithmetic op => exact ⟨rfl, rfl⟩
    | bitwise op => exact ⟨rfl, rfl⟩
  | _ => cases h

theorem eq_logical_of_operatorKind {op : Source.Operator} {span : Span}
    (h : operatorKind op span = .ok .logical) : ∃ l, op = .logical l := by
  cases op with
  | logical l => exact ⟨l, rfl⟩
  | _ => cases h

theorem eq_assign_of_operatorKind {op : Source.Operator} {span : Span}
    (h : operatorKind op span = .ok .assignment) : op = .assign := by
  cases op with
  | assign => rfl
  | _ => cases h

theorem eq_assignWith_of_operatorKind {op : Source.Operator} {span : Span} {c : Calculation}
    (h : operatorKind op span = .ok (.compound c)) : op = .assignWith c := by
  cases op with
  | assignWith d =>
    cases h
    rfl
  | _ => cases h

theorem events_compoundStmt (options : Options) (c : Calculation) {place : Expr}
    (hplace : events place = []) (value : Expr) :
    stmtEvents (compoundStmt options c place value) =
      events value ++ operatorEffects (.assignWith c) ++ [.write (targetLabel place)] := by
  cases c with
  | arithmetic op =>
    rw [compoundStmt]
    split
    · simp [stmtEvents, hplace, operatorEffects]
    · simp [stmtEvents, hplace, operatorEffects, calculationForm, events_build, formEffects]
  | bitwise op =>
    have hnone : (if options.keepCompound then compoundOp? (.bitwise op) else none) = none := by
      split
      · rfl
      · rfl
    simp [compoundStmt, hnone, stmtEvents, hplace, operatorEffects, calculationForm, events_build,
      formEffects]

/-- The target of an assignment has had its effects, and is written under its own label. -/
theorem Lowers.events_target {ctx : Context} {left : Source.Expr} {n : Nat} {place : Expr}
    {g : Growth} (h : Lowers ctx (.target left) n [place] g) (hplace : place.isAssignable = true) :
    events place = [] ∧ targetLabel place = sourceLabel left := by
  cases h with
  | @targetName _ text span _ hunwrap =>
    rw [nameValue] at hplace ⊢
    split at hplace
    · cases hplace
    · rename_i hne
      rw [if_neg hne, sourceLabel, hunwrap]
      exact ⟨rfl, rfl⟩
  | targetProperty hunwrap _ =>
    rw [sourceLabel, hunwrap]
    simp [events, events_atom (saved_isAtom _ _), targetLabel]
  | targetElement hunwrap _ =>
    rw [sourceLabel, hunwrap]
    simp [events, events_atom (saved_isAtom _ _), targetLabel]

/-- Each operand has one value. -/
theorem Lowers.length_values {ctx : Context} {job : Job} {n : Nat} {values : List Expr}
    {g : Growth} (h : Lowers ctx job n values g) :
    values.length = match job with
      | .expr .. | .target _ => 1
      | .operands earlier es => earlier.length + es.length := by
  have hsettle (k : Nat) (vs : List Expr) : (settleAll k vs).1.length = vs.length := by
    induction vs generalizing k with
    | nil => rfl
    | cons v vs ih =>
      cases hv : v.isSettled with
      | true => simp [settleAll_cons_settled hv, ih]
      | false => simp [settleAll_cons_unsettled hv, ih]
  have hmoved (k : Nat) (vs : List Expr) (stmts : List Stmt) :
      (displaced k vs stmts).1.length = vs.length := by
    cases stmts with
    | nil => rfl
    | cons stmt stmts => exact hsettle k vs
  induction h with
  | delete _ _ ih => exact ih
  | wrap _ ih => exact ih
  | noOperand => rfl
  | operand _ _ _ ihtail =>
    simp only [List.length_append, hmoved, List.length_cons, List.length_nil] at ihtail ⊢
    omega
  | _ => rfl

-- ════════════════════════════════════════════════════════════════════════
-- Expressions in which lowering drops nothing and adds nothing
-- ════════════════════════════════════════════════════════════════════════

/-- Among the given expressions no call is expanded, no member is replaced by a constant, and the
name of the inserted conversion is not used. -/
structure Plain (ctx : Context) (nodes : List Source.Expr) : Prop where
  unexpanded : ∀ callee args span, .call callee args span ∈ nodes →
    ∀ expander, callForm ctx.facts callee ≠ .expanded expander
  unfolded : ∀ object name nameSpan optional span,
    .property object name nameSpan optional span ∈ nodes → foldedConstant? ctx span = none
  unconverted : ∀ span, .name "tostring" span ∉ nodes

theorem Plain.mono {ctx : Context} {nodes fewer : List Source.Expr} (h : Plain ctx nodes)
    (hsub : fewer ⊆ nodes) : Plain ctx fewer :=
  ⟨fun callee args span hmem => h.unexpanded callee args span (hsub hmem),
    fun object name nameSpan optional span hmem =>
      h.unfolded object name nameSpan optional span (hsub hmem),
    fun span hmem => h.unconverted span (hsub hmem)⟩

/-- The expressions in a piece of work. -/
def Job.nodes : Job → List Source.Expr
  | .expr _ e => e.nodes
  | .target left => left.nodes
  | .operands _ es => Source.nodesAll es

/-- The expression is not the name of the inserted conversion. -/
def NotConversion (e : Expr) : Prop := e ≠ .name "tostring"

theorem notConversion_saved (n : Nat) {value : Expr} (h : NotConversion value) :
    NotConversion (saved n value).1 := by
  rw [saved]
  split
  · exact h
  · exact Expr.noConfusion

theorem notConversion_displaced (n : Nat) {earlier : List Expr} (stmts : List Stmt)
    (h : ∀ v ∈ earlier, NotConversion v) :
    ∀ v ∈ (displaced n earlier stmts).1, NotConversion v := by
  have hsettle (k : Nat) (vs : List Expr) (hvs : ∀ v ∈ vs, NotConversion v) :
      ∀ v ∈ (settleAll k vs).1, NotConversion v := by
    induction vs generalizing k with
    | nil => simp
    | cons w vs ih =>
      have hrest (j : Nat) := ih j fun v hv => hvs v (List.mem_cons_of_mem _ hv)
      cases hw : w.isSettled with
      | true =>
        rw [settleAll_cons_settled hw]
        exact List.forall_mem_cons.2 ⟨hvs w List.mem_cons_self, hrest k⟩
      | false =>
        rw [settleAll_cons_unsettled hw]
        exact List.forall_mem_cons.2 ⟨Expr.noConfusion, hrest (k + 1)⟩
  cases stmts with
  | nil => exact h
  | cons stmt stmts => exact hsettle n earlier h

theorem notConversion_nameValue {text : String} (h : text ≠ "tostring") :
    NotConversion (nameValue text) := by
  rw [nameValue]
  split
  · exact Expr.noConfusion
  · exact fun heq => h (Expr.name.inj heq)

theorem notConversion_memberRead (role : Option Role) {member : Expr} (h : NotConversion member) :
    NotConversion (memberRead role member).1 := by
  rw [memberRead]
  split
  · exact Expr.noConfusion
  · exact h

theorem notConversion_placeholder : NotConversion .placeholder := by
  intro heq
  have := Expr.name.inj heq
  simp at this

theorem notConversion_propertyRead (ctx : Context) (role : Option Role) (object : Source.Expr)
    (name : String) (nameSpan span : Span) (value : Expr) :
    NotConversion (propertyRead ctx role object name nameSpan span value).1 := by
  rw [propertyRead]
  split
  · exact notConversion_placeholder
  split
  · exact notConversion_placeholder
  split
  · exact notConversion_placeholder
  dsimp only [constantOrMember]
  split
  · rename_i constant _
    cases constant <;> exact Expr.noConfusion
  · exact notConversion_memberRead role Expr.noConfusion

theorem notConversion_elementRead (ctx : Context) (role : Option Role) (object : Source.Expr)
    (value index : Expr) : NotConversion (elementRead ctx role object value index).1 := by
  rw [elementRead]
  split
  · exact notConversion_placeholder
  · exact notConversion_memberRead role Expr.noConfusion

theorem notConversion_textSegment (text : String) : ∀ v ∈ textSegment text, NotConversion v := by
  rw [textSegment]
  split
  · simp
  · simp [NotConversion]

theorem notConversion_partSegments (facts : Facts)
    (parts : List (Source.Substitution Source.Expr)) {values : List Expr}
    (h : ∀ v ∈ values, NotConversion v) :
    ∀ v ∈ partSegments facts parts values, NotConversion v := by
  induction parts generalizing values with
  | nil => simp [partSegments]
  | cons part parts ih =>
    cases values with
    | nil => simp [partSegments]
    | cons value values =>
      obtain ⟨hvalue, hvalues⟩ := List.forall_mem_cons.1 h
      refine List.forall_mem_cons.2 ⟨?_, List.forall_mem_append.2
        ⟨notConversion_textSegment part.text, ih hvalues⟩⟩
      rw [valueSegment]
      split
      · exact hvalue
      · exact Expr.noConfusion

theorem notConversion_concatenation {segments : List Expr}
    (h : ∀ v ∈ segments, NotConversion v) : NotConversion (concatenation segments) := by
  have hchain (first : Expr) (hfirst : NotConversion first) (rest : List Expr) :
      NotConversion (rest.foldl (fun chain segment => .binary chain .concat segment) first) := by
    induction rest generalizing first with
    | nil => exact hfirst
    | cons segment rest ih => exact ih _ Expr.noConfusion
  cases segments with
  | nil => exact Expr.noConfusion
  | cons first rest => exact hchain first (h first List.mem_cons_self) rest

theorem Job.nodes_pair (left right : Source.Expr) :
    (Job.operands [] [left, right]).nodes = left.nodes ++ right.nodes := by
  simp [Job.nodes, Source.nodesAll]

/-- All diagnostics are about names of members, which lowering goes on after. -/
def OnlyNotes (g : Growth) : Prop := ∀ d ∈ g.diagnostics, d.problem = .prototype

theorem OnlyNotes.left {g h : Growth} (hnotes : OnlyNotes (g ++ h)) : OnlyNotes g :=
  fun d hd => hnotes d (List.mem_append_left _ hd)

theorem OnlyNotes.right {g h : Growth} (hnotes : OnlyNotes (g ++ h)) : OnlyNotes h :=
  fun d hd => hnotes d (List.mem_append_right _ hd)

theorem not_onlyNotes_of_refused {problem : Problem} {span : Span} (h : problem ≠ .prototype) :
    ¬ OnlyNotes (.ofDiagnostic problem span) :=
  fun hnotes => h (hnotes _ List.mem_cons_self)

/-- A property access that is not refused and not replaced by a constant is that of a member. -/
theorem propertyRead_of_onlyNotes {ctx : Context} {role : Option Role} {object : Source.Expr}
    {name : String} {nameSpan span : Span} {value : Expr}
    (hconst : foldedConstant? ctx span = none)
    (hnotes : OnlyNotes (propertyRead ctx role object name nameSpan span value).2) :
    (propertyRead ctx role object name nameSpan span value).1 =
        (memberRead role (.property value.toIndexable name)).1 ∧
      (propertyRead ctx role object name nameSpan span value).2.stmts =
        (memberRead role (.property value.toIndexable name)).2.stmts := by
  rw [propertyRead] at hnotes ⊢
  split at hnotes
  · exact absurd hnotes (not_onlyNotes_of_refused Problem.noConfusion)
  rename_i hany
  split at hnotes
  · exact absurd hnotes (not_onlyNotes_of_refused Problem.noConfusion)
  rename_i hexp
  split at hnotes
  · exact absurd hnotes (not_onlyNotes_of_refused Problem.noConfusion)
  rename_i hmethod
  rw [if_neg hany, if_neg hexp, if_neg hmethod]
  simp [constantOrMember, hconst, nameNote_stmts]

/-- An element access that is not refused is that of a member. -/
theorem elementRead_of_onlyNotes {ctx : Context} {role : Option Role} {object : Source.Expr}
    {value index : Expr} (hnotes : OnlyNotes (elementRead ctx role object value index).2) :
    elementRead ctx role object value index = memberRead role (.index value.toIndexable index) := by
  rw [elementRead] at hnotes ⊢
  split at hnotes
  · exact absurd hnotes (not_onlyNotes_of_refused Problem.noConfusion)
  · rename_i hany
    rw [if_neg hany]

/-- The write of an access that is deleted. -/
def removal (role : Option Role) (e : Source.Expr) : List Event :=
  if role = some .deleted then [.write (sourceLabel e)] else []

theorem events_memberRead (role : Option Role) {member : Expr} {e : Source.Expr}
    (h : targetLabel member = sourceLabel e) :
    (memberRead role member).2.stmts.flatMap stmtEvents ++ events (memberRead role member).1 =
      events member ++ removal role e := by
  rw [memberRead, removal]
  split
  · simp [Growth.ofStmts, stmtEvents, events, h]
  · simp

theorem events_propertyRead {ctx : Context} {role : Option Role} {object : Source.Expr}
    {name : String} {nameSpan span : Span} {value : Expr} (optional : Bool)
    (hconst : foldedConstant? ctx span = none)
    (hnotes : OnlyNotes (propertyRead ctx role object name nameSpan span value).2) :
    (propertyRead ctx role object name nameSpan span value).2.stmts.flatMap stmtEvents ++
        events (propertyRead ctx role object name nameSpan span value).1 =
      events value ++ removal role (.property object name nameSpan optional span) := by
  obtain ⟨hvalue, hstmts⟩ := propertyRead_of_onlyNotes hconst hnotes
  rw [hvalue, hstmts,
    events_memberRead role (e := .property object name nameSpan optional span) rfl]
  simp [events]

theorem events_elementRead {ctx : Context} {role : Option Role} {object : Source.Expr}
    {value key : Expr} (index : Source.Expr) (optional : Bool) (span : Span)
    (hnotes : OnlyNotes (elementRead ctx role object value key).2) :
    (elementRead ctx role object value key).2.stmts.flatMap stmtEvents ++
        events (elementRead ctx role object value key).1 =
      events value ++ events key ++ removal role (.element object index optional span) := by
  rw [elementRead_of_onlyNotes hnotes,
    events_memberRead role (e := .element object index optional span) rfl]
  simp [events]

/-- The effects of a piece of work. -/
def Job.effects (facts : Facts) : Job → List Event
  | .expr role e => Lowering.effects facts e ++ removal role e
  | .target left => Lowering.effects facts left
  | .operands earlier es => eventsAll earlier ++ effectsAll facts es

/-- Only member accesses are deleted. -/
def Job.Sensible : Job → Prop
  | .expr role e => role = some .deleted → isDeletable e = true
  | _ => True

/-- What is not a member access is not deleted. -/
theorem Job.effects_expr {facts : Facts} {role : Option Role} {e : Source.Expr}
    (h : (Job.expr role e).Sensible) (hnot : isDeletable e = false) :
    (Job.expr role e).effects facts = Lowering.effects facts e := by
  have hrole : role ≠ some .deleted := by
    intro hrole
    rw [h hrole] at hnot
    cases hnot
  simp [Job.effects, removal, hrole]

/-- What is shown of a derivation: its effects are those of the work, and no value is the name of
the inserted conversion. -/
structure Faithful (ctx : Context) (job : Job) (values : List Expr) (g : Growth) : Prop where
  events_eq : g.stmts.flatMap stmtEvents ++ eventsAll values = job.effects ctx.facts
  names : ∀ v ∈ values, NotConversion v

theorem Faithful.pair {ctx : Context} {left right : Source.Expr} {a b : Expr} {g : Growth}
    (h : Faithful ctx (.operands [] [left, right]) [a, b] g) :
    g.stmts.flatMap stmtEvents ++ (events a ++ events b) =
      effects ctx.facts left ++ effects ctx.facts right := by
  simpa [Job.effects, effectsAll] using h.events_eq

theorem Faithful.single {ctx : Context} {e : Source.Expr} {value : Expr} {g : Growth} {role : Role}
    (h : Faithful ctx (.expr (some role) e) [value] g) (hrole : role ≠ .deleted) :
    g.stmts.flatMap stmtEvents ++ events value = effects ctx.facts e := by
  simpa [Job.effects, removal, hrole] using h.events_eq

/-- A head and its arguments. -/
theorem Faithful.withArgs {ctx : Context} {role : Role} {callee : Source.Expr}
    {args : List Source.Expr} {value head : Expr} {rest : List Expr} {g₁ g₂ : Growth}
    (hhead : Faithful ctx (.expr (some role) callee) [value] g₁) (hrole : role ≠ .deleted)
    (hargs : Faithful ctx (.operands [value] args) (head :: rest) g₂) :
    (g₁ ++ g₂).stmts.flatMap stmtEvents ++ (events head ++ eventsAll rest) =
      effects ctx.facts callee ++ effectsAll ctx.facts args := by
  have htail := hargs.events_eq
  simp only [Job.effects, eventsAll_cons, eventsAll_nil, List.append_nil] at htail
  rw [Growth.append_stmts, List.flatMap_append, List.append_assoc, htail, ← List.append_assoc,
    hhead.single hrole]

/-- An assignment after its parts. -/
theorem events_assign {left right : List Event} {place value : Expr} {g₁ g₂ : Growth} (n : Nat)
    (hleft : g₁.stmts.flatMap stmtEvents = left)
    (hright : g₂.stmts.flatMap stmtEvents ++ events value = right) (hplace : events place = []) :
    (g₁ ++ g₂ ++ (saved n value).2 ++
          .ofStmts [.assign place .set (saved n value).1]).stmts.flatMap stmtEvents ++
        events (saved n value).1 =
      left ++ right ++ [.write (targetLabel place)] := by
  subst hleft hright
  simp [events_saved, Growth.ofStmts, stmtEvents, hplace, events_atom (saved_isAtom _ _)]

/-- A call whose callee is not the inserted conversion. -/
theorem events_plainCall {callee : Expr} (h : NotConversion callee) (args : List Expr) :
    events (.call callee.toIndexable args) =
      events callee ++ eventsAll args ++ [.call args.length] := by
  have hnot : isConversion callee.toIndexable args = false := by
    cases callee with
    | name text =>
      have hne : text ≠ "tostring" := fun heq => h (by rw [heq])
      match args with
      | [] => rfl
      | [_] => simpa [isConversion, Expr.toIndexable, Expr.isIndexable] using hne
      | _ :: _ :: _ => rfl
    | _ => rfl
  simp [events, hnot]

theorem calledMethod?_of_method {facts : Facts} {callee : Source.Expr} {name : String}
    (h : callForm facts callee = .method name) : calledMethod? facts callee = some name := by
  rw [callForm] at h
  split at h
  · rename_i hunwrap
    simp only [calledMethod?, hunwrap]
    split at h
    · cases h
    split at h
    · cases h
    split at h
    · cases h
      exact if_pos ‹_›
    · cases h
  · cases h

theorem calledMethod?_of_plain {facts : Facts} {callee : Source.Expr}
    (h : callForm facts callee = .plain) : calledMethod? facts callee = none := by
  rw [callForm] at h
  split at h
  · rename_i hunwrap
    simp only [calledMethod?, hunwrap]
    split at h
    · cases h
    split at h
    · cases h
    split at h
    · cases h
    · exact if_neg ‹_›
  · rename_i hother
    rw [calledMethod?]
    split
    · exact absurd ‹_› (hother _ _ _ _)
    · rfl

theorem Plain.pair {ctx : Context} {e left right : Source.Expr}
    (h : Plain ctx (e :: (left.nodes ++ right.nodes))) :
    Plain ctx (Job.operands [] [left, right]).nodes := by
  rw [Job.nodes_pair]
  exact h.mono (List.subset_cons_self ..)

/-- A derivation has the effects of the work it does, if nothing in it is refused. -/
theorem Lowers.faithful {ctx : Context} {job : Job} {n : Nat} {values : List Expr} {g : Growth}
    (h : Lowers ctx job n values g) (hplain : Plain ctx job.nodes) (hnotes : OnlyNotes g)
    (hsensible : job.Sensible) (hearlier : ∀ v ∈ job.earlier, NotConversion v) :
    Faithful ctx job values g := by
  have hnever : ∀ v ∈ ([] : List Expr), NotConversion v := by simp
  induction h with
  | @name _ text span =>
    have hnone : events (nameValue text) = [] := by
      rw [nameValue]
      split
      · rfl
      · rfl
    have hne : text ≠ "tostring" := by
      rintro rfl
      exact hplain.unconverted span List.mem_cons_self
    refine ⟨?_, by simpa using notConversion_nameValue hne⟩
    rw [Job.effects_expr hsensible rfl]
    simp [effects, hnone]
  | @literal _ value =>
    have hnone : events (literalValue value) = [] := by
      cases value <;> rfl
    refine ⟨?_, ?_⟩
    · rw [Job.effects_expr hsensible rfl]
      simp [effects, hnone]
    · cases value <;> simp [literalValue, NotConversion]
  | @template _ head parts _ _ values _ hparts ih =>
    have hsub : (Job.operands [] (parts.map (·.expr))).nodes ⊆ Source.partNodes parts := by
      rw [Source.partNodes_eq]
      exact List.Subset.refl _
    have hvalues := ih (hplain.mono (List.Subset.trans hsub (List.subset_cons_self ..))) hnotes
      trivial hnever
    have hlength : values.length = parts.length := by simpa using hparts.length_values
    refine ⟨?_, ?_⟩
    · have heq := hvalues.events_eq
      simp only [Job.effects, eventsAll_nil, List.nil_append] at heq
      rw [Job.effects_expr hsensible rfl]
      simp [effects, events_templateValue ctx.facts head hlength, heq, partEffects_eq]
    · have hsegments := List.forall_mem_append.2
        ⟨notConversion_textSegment head, notConversion_partSegments ctx.facts parts hvalues.names⟩
      exact List.forall_mem_singleton.2 (notConversion_concatenation hsegments)
  | @simple _ _ _ _ _ _ form _ _ _ hop _ ih =>
    have hboth := ih hplain.pair hnotes trivial hnever
    obtain ⟨hassign, heffects⟩ := operatorEffects_simple hop
    refine ⟨?_, ?_⟩
    · rw [Job.effects_expr hsensible rfl, effects, heffects, hassign, ← hboth.pair]
      simp [events_build]
    · cases form <;> simp [SimpleForm.build, NotConversion]
  | logical hop _ ih =>
    have hboth := ih hplain.pair hnotes.right trivial hnever
    obtain ⟨l, rfl⟩ := eq_logical_of_operatorKind hop
    refine ⟨?_, by simp [NotConversion]⟩
    rw [Job.effects_expr hsensible rfl, effects, ← hboth.pair]
    simp [Growth.oneLogical, events, isConversion, operatorEffects, Source.Operator.isAssignment]
  | @assign _ left _ right _ _ _ _ g₁ g₂ hop hleft _ hplace ihleft ihright =>
    obtain rfl := eq_assign_of_operatorKind hop
    obtain ⟨hnone, hlabel⟩ := hleft.events_target hplace
    have hfirst := ihleft (hplain.mono (List.subset_cons_of_subset _ (List.subset_append_left ..)))
      hnotes.left.left.left trivial hnever
    have hsecond := ihright
      (hplain.mono (List.subset_cons_of_subset _ (List.subset_append_right ..)))
      hnotes.left.left.right (fun h => by cases h) hnever
    refine ⟨?_, ?_⟩
    · have htarget : g₁.stmts.flatMap stmtEvents = effects ctx.facts left := by
        simpa [Job.effects, hnone] using hfirst.events_eq
      rw [Job.effects_expr hsensible rfl, effects, ← hlabel]
      simpa [operatorEffects, Source.Operator.isAssignment] using
        events_assign _ htarget (hsecond.single Role.noConfusion) hnone
    · simpa using notConversion_saved _ (hsecond.names _ List.mem_cons_self)
  | @compound _ left _ right _ _ c place value g₁ g₂ hop hleft _ hplace ihleft ihright =>
    obtain rfl := eq_assignWith_of_operatorKind hop
    obtain ⟨hnone, hlabel⟩ := hleft.events_target hplace
    have hfirst := ihleft (hplain.mono (List.subset_cons_of_subset _ (List.subset_append_left ..)))
      hnotes.left.left trivial hnever
    have hsecond := ihright
      (hplain.mono (List.subset_cons_of_subset _ (List.subset_append_right ..)))
      hnotes.left.right (fun h => by cases h) hnever
    refine ⟨?_, hfirst.names⟩
    have htarget : g₁.stmts.flatMap stmtEvents = effects ctx.facts left := by
      simpa [Job.effects, hnone] using hfirst.events_eq
    rw [Job.effects_expr hsensible rfl, effects, ← hlabel, ← htarget,
      ← hsecond.single Role.noConfusion]
    simp [Growth.ofStmts, events_compoundStmt ctx.options c hnone, hnone,
      Source.Operator.isAssignment]
  | property _ ih =>
    have hobject := ih (hplain.mono (List.subset_cons_self ..)) hnotes.left
      (fun h => by cases h) hnever
    have hconst := hplain.unfolded _ _ _ _ _ List.mem_cons_self
    refine ⟨?_, List.forall_mem_singleton.2 (notConversion_propertyRead _ _ _ _ _ _ _)⟩
    rw [Job.effects, effects, ← hobject.single Role.noConfusion]
    have hread := events_propertyRead false hconst hnotes.right
    simp only [Growth.append_stmts, List.flatMap_append, eventsAll_cons, eventsAll_nil,
      List.append_nil, List.append_assoc, hread]
  | chainProperty _ ih =>
    have hobject := ih (hplain.mono (List.subset_cons_self ..)) hnotes.left.left.right
      (fun h => by cases h) hnever
    have hconst := hplain.unfolded _ _ _ _ _ List.mem_cons_self
    refine ⟨?_, List.forall_mem_singleton.2 (notConversion_propertyRead _ _ _ _ _ _ _)⟩
    rw [Job.effects, effects, ← hobject.single Role.noConfusion]
    have hread := events_propertyRead true hconst hnotes.right
    simp only [Growth.append_stmts, List.flatMap_append, eventsAll_cons, eventsAll_nil,
      List.append_nil, List.append_assoc, hread, events_saved, events_atom (saved_isAtom _ _),
      List.nil_append]
    rfl
  | @element _ _ index span _ _ _ _ _ ih =>
    have hboth := ih hplain.pair hnotes.left trivial hnever
    have hread := events_elementRead index false span hnotes.right
    refine ⟨?_, List.forall_mem_singleton.2 (notConversion_elementRead _ _ _ _ _)⟩
    rw [Job.effects, effects, ← hboth.pair]
    simp only [Growth.append_stmts, List.flatMap_append, eventsAll_cons, eventsAll_nil,
      List.append_nil, List.append_assoc, hread]
  | @chainElement _ _ index span _ _ _ _ _ ih =>
    have hboth := ih hplain.pair hnotes.left.right trivial hnever
    have hread := events_elementRead index true span hnotes.right
    refine ⟨?_, List.forall_mem_singleton.2 (notConversion_elementRead _ _ _ _ _)⟩
    rw [Job.effects, effects, ← hboth.pair]
    simp only [Growth.append_stmts, List.flatMap_append, eventsAll_cons, eventsAll_nil,
      List.append_nil, List.append_assoc, hread]
    rfl
  | refusedCall => exact absurd hnotes (not_onlyNotes_of_refused Problem.noConfusion)
  | expandedCall hform => exact absurd hform (hplain.unexpanded _ _ _ List.mem_cons_self _)
  | @methodCall _ callee args _ _ method _ _ _ _ _ _ head values _ _ hform hunwrap _ hargs ihobject
      ihargs =>
    have hcallee := hplain.mono (List.subset_cons_of_subset _ (List.subset_append_left ..))
    have hrest := hplain.mono (List.subset_cons_of_subset _ (List.subset_append_right ..))
    have hobject := ihobject (hcallee.mono (Source.Expr.nodes_property_subset hunwrap))
      hnotes.left (fun h => by cases h) hnever
    have hvalues := ihargs hrest hnotes.right trivial hobject.names
    have hlength : values.length = args.length := by
      have := hargs.length_values
      simp only [List.length_cons, List.length_nil] at this
      omega
    refine ⟨?_, by simp [NotConversion]⟩
    have hparts := hobject.withArgs Role.noConfusion hvalues
    rw [Job.effects_expr hsensible rfl, effects, calledMethod?_of_method hform,
      ← effects_unwrap ctx.facts callee, hunwrap, effects, ← hparts]
    simp [events, hlength]
  | @plainCall _ callee args _ _ _ head values _ _ hform _ hargs ihcallee ihargs =>
    have hcallee := ihcallee
      (hplain.mono (List.subset_cons_of_subset _ (List.subset_append_left ..))) hnotes.left
      (fun h => by cases h) hnever
    have hvalues := ihargs
      (hplain.mono (List.subset_cons_of_subset _ (List.subset_append_right ..))) hnotes.right
      trivial hcallee.names
    have hlength : values.length = args.length := by
      have := hargs.length_values
      simp only [List.length_cons, List.length_nil] at this
      omega
    refine ⟨?_, by simp [NotConversion]⟩
    have hparts := hcallee.withArgs Role.noConfusion hvalues
    rw [Job.effects_expr hsensible rfl, effects, calledMethod?_of_plain hform, ← hparts]
    simp [events_plainCall (hvalues.names head List.mem_cons_self), hlength]
  | delete hdel _ ih =>
    have hoperand := ih (hplain.mono (List.subset_cons_self ..)) hnotes (fun _ => hdel) hnever
    refine ⟨?_, hoperand.names⟩
    rw [Job.effects_expr hsensible rfl, effects, hoperand.events_eq]
    simp [Job.effects, removal]
  | wrap _ ih =>
    have hinner := ih (hplain.mono (List.subset_cons_self ..)) hnotes
      (fun h => by simpa [isDeletable, Source.Expr.unwrap] using hsensible h) hnever
    exact ⟨by simpa [Job.effects, effects, removal, sourceLabel, Source.Expr.unwrap] using
      hinner.events_eq, hinner.names⟩
  | @targetName left text span _ hunwrap =>
    have hne : text ≠ "tostring" := by
      rintro rfl
      refine hplain.unconverted span (left.nodes_unwrap_subset ?_)
      rw [hunwrap]
      exact List.mem_cons_self
    refine ⟨?_, List.forall_mem_singleton.2 (notConversion_nameValue hne)⟩
    have hnone : events (nameValue text) = [] := by
      rw [nameValue]
      split
      · rfl
      · rfl
    rw [Job.effects, ← effects_unwrap, hunwrap]
    simp [effects, hnone]
  | @targetProperty left _ _ _ _ _ _ _ hunwrap _ ih =>
    have hobject := ih (hplain.mono (Source.Expr.nodes_property_subset hunwrap)) hnotes.left
      (fun h => by cases h) hnever
    refine ⟨?_, by simp [NotConversion]⟩
    rw [Job.effects, ← effects_unwrap, hunwrap, effects, ← hobject.single Role.noConfusion]
    simp [events, events_saved, events_atom (saved_isAtom _ _)]
  | @targetElement left object index _ _ _ _ _ hunwrap _ ih =>
    have hsub : (Job.operands [] [object, index]).nodes ⊆ left.nodes := by
      rw [Job.nodes_pair]
      exact Source.Expr.nodes_element_subset hunwrap
    have hboth := ih (hplain.mono hsub) hnotes.left.left trivial hnever
    refine ⟨?_, by simp [NotConversion]⟩
    rw [Job.effects, ← effects_unwrap, hunwrap, effects, ← hboth.pair]
    simp [events, events_saved, events_atom (saved_isAtom _ _)]
  | noOperand => exact ⟨by simp [Job.effects, effectsAll], hearlier⟩
  | @operand earlier e es n value _ g₁ _ _ _ ihhead ihtail =>
    have hhead := ihhead (hplain.mono (List.subset_append_left ..)) hnotes.left.right
      (fun h => by cases h) hnever
    have hmoved := List.forall_mem_append.2
      ⟨notConversion_displaced (n + g₁.temps) g₁.stmts hearlier, hhead.names⟩
    have htail := ihtail (hplain.mono (List.subset_append_right ..)) hnotes.right trivial hmoved
    refine ⟨?_, htail.names⟩
    have heq := htail.events_eq
    simp only [Job.effects, eventsAll_append, eventsAll_cons, eventsAll_nil, List.append_nil] at heq
    have hstep := events_displaced (n + g₁.temps) earlier g₁.stmts
    simp only [Growth.append_stmts, List.flatMap_append, List.append_assoc, heq, Job.effects,
      effectsAll]
    rw [← hhead.single Role.noConfusion]
    simp only [← List.append_assoc, hstep]

/-- The statements of a lowered expression, followed by its value, have the effects of the source
expression: the same ones, each once, and in the same order. -/
theorem effects_kept_in_order {ctx : Context} {e : Source.Expr} {out : Output}
    (hlow : lowerAlone ctx e = .ok out) (hplain : Plain ctx e.nodes)
    (hnotes : ∀ d ∈ out.diagnostics, d.problem = .prototype) :
    out.stmts.flatMap stmtEvents ++ events out.value = effects ctx.facts e := by
  obtain ⟨value, g, h, rfl⟩ := lowerAlone_eq_ok_iff.1 hlow
  have hfaithful := h.faithful hplain hnotes (fun hrole => by cases hrole) (by simp [Job.earlier])
  exact hfaithful.single Role.noConfusion

/-- `o.m(f(x), y |= g())`, where `o.m` is a method. -/
def methodCallSample : Source.Expr :=
  .call (.property (.name "o" (.point 1 1)) "m" (.point 1 3) false (.point 1 2))
    [.call (.name "f" (.point 1 5)) [.name "x" (.point 1 7)] (.point 1 6),
      .binary (.name "y" (.point 1 9)) (.assignWith (.bitwise .or))
        (.call (.name "g" (.point 1 12)) [] (.point 1 13)) (.point 1 10)]
    (.point 1 4)

/-- The context in which `o.m` is a method. -/
def methodCallContext : Context := ⟨Facts.empty.withMethod (.point 1 2), default⟩

/-- The object and the call of `f` are saved before the assignment, which comes before the call of
the method. -/
theorem effects_of_method_call :
    lowerAlone methodCallContext methodCallSample =
        .ok ⟨[.declare ⟨0⟩ (.name "o"), .declare ⟨1⟩ (.call (.name "f") [.name "x"]),
            .assign (.name "y") .set (.call (.property (.name "bit32") "bor")
              [.name "y", .call (.name "g") []])],
          .method (.temp ⟨0⟩) "m" [.temp ⟨1⟩, .name "y"], [], 0, 0⟩ ∧
      [Stmt.declare ⟨0⟩ (.name "o"), .declare ⟨1⟩ (.call (.name "f") [.name "x"]),
            .assign (.name "y") .set (.call (.property (.name "bit32") "bor")
              [.name "y", .call (.name "g") []])].flatMap stmtEvents ++
          events (.method (.temp ⟨0⟩) "m" [.temp ⟨1⟩, .name "y"]) =
        [.call 1, .call 0, .call 2, .write (.variable "y"), .method "m" 2] := by
  have hplain : Plain methodCallContext methodCallSample.nodes := by
    refine ⟨?_, fun _ _ _ _ _ _ => rfl, ?_⟩
    · intro callee args span _ expander hform
      rw [callForm] at hform
      split at hform
      · split at hform
        · cases hform
        split at hform
        · rename_i hexp
          rw [Facts.expanderAt?, Option.bind_eq_some_iff] at hexp
          obtain ⟨_, -, hnone⟩ := hexp
          cases hnone
        · split at hform <;> cases hform
      · cases hform
    · simp [methodCallSample, Source.Expr.nodes, Source.nodesAll]
  exact ⟨rfl, effects_kept_in_order rfl hplain (fun d hd => absurd hd List.not_mem_nil)⟩

end ExprLowering.Lowering
