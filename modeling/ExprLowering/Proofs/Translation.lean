import ExprLowering.Proofs.Coverage
import ExprLowering.Proofs.Reports

/-!
# Expressions without statements

Where nothing is assigned, deleted, chained or expanded, lowering emits no statement and takes no
temporary. If nothing is reported and no constant is put in the place of a member either, the value
is a translation of the expression that needs no state.

## Main definitions

* `emits`: the expressions that may need statements.
* `translate`: the translation.

## Main results

* `Lowers.direct`: derivations for expressions that need no statements.
* `plain_expressions_translate`: runs on such expressions, from every state.
-/

namespace ExprLowering.Lowering

open Source (Substitution)
open Target

-- ════════════════════════════════════════════════════════════════════════
-- The translation
-- ════════════════════════════════════════════════════════════════════════

/-- Whether the lowering of an expression may need statements, apart from those of the expressions
inside it: assignments and deletions, optional property accesses, and expanded calls. -/
def emits (facts : Facts) : Source.Expr → Bool
  | .property _ _ _ optional _ => optional
  | .call callee _ _ =>
    match callee.unwrap with
    | .property object _ _ false span =>
      !(facts.typeOf object).isAny && (facts.expanderAt? span).isSome
    | _ => false
  | e => writes e

/-- Whether a constant is put in the place of an expression. -/
def isReplaced (ctx : Context) : Source.Expr → Bool
  | .property _ _ _ _ span => (foldedConstant? ctx span).isSome
  | _ => false

/-- The target expression for an operator on two translated sides. -/
def translateOperator (op : Source.Operator) (left right : Expr) : Expr :=
  match op with
  | .comparison .eq => .binary left .eq right
  | .comparison .ne => .binary left .ne right
  | .comparison .lt => .binary left .lt right
  | .comparison .le => .binary left .le right
  | .comparison .gt => .binary left .gt right
  | .comparison .ge => .binary left .ge right
  | .calculation (.arithmetic .add) => .binary left .add right
  | .calculation (.arithmetic .sub) => .binary left .sub right
  | .calculation (.arithmetic .mul) => .binary left .mul right
  | .calculation (.arithmetic .div) => .binary left .div right
  | .calculation (.arithmetic .mod) => .binary left .mod right
  | .calculation (.arithmetic .pow) => .binary left .pow right
  | .calculation (.bitwise op) => .call (.property (.name "bit32") (bitName op)) [left, right]
  | .logical _ => .call (.name "logical") [left, right]
  | _ => .placeholder

/-- A chain of concatenations with one more segment at its end. -/
def chained : Option Expr → Expr → Option Expr
  | none, segment => some segment
  | some chain, segment => some (.binary chain .concat segment)

/-- A chain with a text of a template at its end, unless the text is empty. -/
def withText (chain : Option Expr) (text : String) : Option Expr :=
  if text.isEmpty then chain else chained chain (.string (StringBody.ofTemplate text))

mutual

/-- The translation of an expression, node by node. There is none for what needs statements. -/
def translate (facts : Facts) : Source.Expr → Expr
  | .name text _ => if text = "undefined" then .nil else .name text
  | .literal value _ => literalValue value
  | .template head parts _ => (translateParts facts parts (withText none head)).getD (.string "")
  | .binary left op right _ => translateOperator op (translate facts left) (translate facts right)
  | .property object name _ _ _ => .property (translate facts object).toIndexable name
  | .element object index _ _ =>
    .index (translate facts object).toIndexable (translate facts index)
  | .call callee args _ =>
    match calledMethod? facts callee with
    | some name =>
      .method (translateReceiver facts callee).toIndexable name (translateAll facts args)
    | none => .call (translate facts callee).toIndexable (translateAll facts args)
  | .delete .. => .placeholder
  | .wrap _ inner _ => translate facts inner

/-- The translation of the object of a member access, inside all its wrappers. -/
def translateReceiver (facts : Facts) : Source.Expr → Expr
  | .property object _ _ _ _ => translate facts object
  | .wrap _ inner _ => translateReceiver facts inner
  | _ => .placeholder

/-- The translations of arguments. -/
def translateAll (facts : Facts) : List Source.Expr → List Expr
  | [] => []
  | e :: es => translate facts e :: translateAll facts es

/-- A chain with the substitutions of a template and the texts after them at its end. Values that
are not known to be strings are converted. -/
def translateParts (facts : Facts) :
    List (Substitution Source.Expr) → Option Expr → Option Expr
  | [], chain => chain
  | ⟨e, text, _⟩ :: parts, chain =>
    let value := translate facts e
    let segment :=
      if (facts.typeOf e).isString then value else .call (.name "tostring") [value]
    translateParts facts parts (withText (chained chain segment) text)

end

theorem translateAll_eq_map (facts : Facts) (es : List Source.Expr) :
    translateAll facts es = es.map (translate facts) := by
  induction es with
  | nil => rfl
  | cons e es ih => rw [translateAll, ih, List.map_cons]

/-- A list of segments is concatenated to the chain of all of them. -/
theorem concatenation_eq_chained (segments : List Expr) :
    concatenation segments = (segments.foldl chained none).getD (.string "") := by
  have hchain (first : Expr) (rest : List Expr) : rest.foldl chained (some first) =
      some (rest.foldl (fun chain segment => .binary chain .concat segment) first) := by
    induction rest generalizing first with
    | nil => rfl
    | cons segment rest ih => exact ih _
  cases segments with
  | nil => rfl
  | cons first rest =>
    rw [List.foldl_cons, chained, hchain]
    rfl

theorem foldl_textSegment (chain : Option Expr) (text : String) :
    (textSegment text).foldl chained chain = withText chain text := by
  rw [textSegment, withText]
  split
  · rfl
  · rfl

theorem foldl_partSegments (facts : Facts) (parts : List (Substitution Source.Expr))
    (chain : Option Expr) :
    (partSegments facts parts (parts.map fun part => translate facts part.expr)).foldl chained
      chain = translateParts facts parts chain := by
  induction parts generalizing chain with
  | nil => rfl
  | cons part parts ih =>
    rw [List.map_cons, partSegments, List.foldl_cons, List.foldl_append, foldl_textSegment, ih]
    rfl

theorem templateValue_translate (facts : Facts) (head : String)
    (parts : List (Substitution Source.Expr)) :
    templateValue facts head parts (parts.map fun part => translate facts part.expr) =
      (translateParts facts parts (withText none head)).getD (.string "") := by
  rw [templateValue, concatenation_eq_chained, List.foldl_append, foldl_textSegment,
    foldl_partSegments]

theorem translateReceiver_of_unwrap {facts : Facts} {callee object : Source.Expr} {name : String}
    {nameSpan span : Span} {optional : Bool}
    (h : callee.unwrap = .property object name nameSpan optional span) :
    translateReceiver facts callee = translate facts object := by
  fun_induction Source.Expr.unwrap callee with
  | case1 _ inner _ ih => rw [translateReceiver]; exact ih h
  | case2 callee _ => rw [h, translateReceiver]

theorem build_eq_translateOperator {op : Source.Operator} {span : Span} {form : SimpleForm}
    (h : operatorKind op span = .ok (.simple form)) (left right : Expr) :
    form.build left right = translateOperator op left right := by
  cases op with
  | comparison c =>
    cases h
    cases c <;> rfl
  | calculation c =>
    cases h
    cases c with
    | arithmetic op => cases op <;> rfl
    | bitwise op =>
      rw [calculationForm, SimpleForm.build, name_bitFunction]
      rfl
  | looseEq | looseNe | logical | assign | assignWith | membership | instanceOf | comma => cases h

-- ════════════════════════════════════════════════════════════════════════
-- Member accesses
-- ════════════════════════════════════════════════════════════════════════

variable {ctx : Context}

theorem emits_of_expanded {facts : Facts} {callee : Source.Expr} {expander : Expander}
    (h : callForm facts callee = .expanded expander) (args : List Source.Expr) (span : Span) :
    emits facts (.call callee args span) = true := by
  rw [callForm] at h
  rw [emits]
  split at h
  · split at h
    · cases h
    · split at h
      · simp_all
      · split at h <;> cases h
  · cases h

/-- What is added emits nothing and takes no temporary. -/
structure Growth.Silent (g : Growth) : Prop where
  stmts : g.stmts = []
  temps : g.temps = 0

theorem Growth.Silent.append {g h : Growth} (hg : g.Silent) (hh : h.Silent) : (g ++ h).Silent where
  stmts := by rw [append_stmts, hg.stmts, hh.stmts, List.append_nil]
  temps := by rw [append_temps, hg.temps, hh.temps]

theorem silent_propertyRead {role : Option Role} (hrole : role ≠ some .deleted)
    (object : Source.Expr) (name : String) (nameSpan span : Span) (value : Expr) :
    (propertyRead ctx role object name nameSpan span value).2.Silent := by
  have hnote : (nameNote name nameSpan).Silent := by
    rw [nameNote]
    split
    · exact ⟨rfl, rfl⟩
    · exact ⟨rfl, rfl⟩
  rw [propertyRead]
  split
  · exact ⟨rfl, rfl⟩
  split
  · exact ⟨rfl, rfl⟩
  split
  · exact ⟨rfl, rfl⟩
  refine hnote.append ?_
  rw [constantOrMember, memberRead_of_ne hrole]
  split
  · exact ⟨rfl, rfl⟩
  · exact ⟨rfl, rfl⟩

theorem silent_elementRead {role : Option Role} (hrole : role ≠ some .deleted)
    (object : Source.Expr) (value index : Expr) :
    (elementRead ctx role object value index).2.Silent := by
  rw [elementRead, memberRead_of_ne hrole]
  split
  · exact ⟨rfl, rfl⟩
  · exact ⟨rfl, rfl⟩

/-- A property access about which nothing is reported is read, unless a constant takes its place. -/
theorem propertyRead_eq_member {role : Option Role} (hrole : role ≠ some .deleted)
    {object : Source.Expr} {name : String} {nameSpan span : Span} {value : Expr}
    (hconstant : foldedConstant? ctx span = none)
    (hreports : (propertyRead ctx role object name nameSpan span value).2.diagnostics = []) :
    (propertyRead ctx role object name nameSpan span value).1 =
      .property value.toIndexable name := by
  rw [propertyRead] at hreports ⊢
  split at hreports
  · cases hreports
  split at hreports
  · cases hreports
  split at hreports
  · cases hreports
  simp [*, constantOrMember, memberRead_of_ne]

theorem elementRead_eq_member {role : Option Role} (hrole : role ≠ some .deleted)
    {object : Source.Expr} {value index : Expr}
    (hreports : (elementRead ctx role object value index).2.diagnostics = []) :
    (elementRead ctx role object value index).1 = .index value.toIndexable index := by
  rw [elementRead] at hreports ⊢
  split at hreports
  · cases hreports
  · simp [*, memberRead_of_ne]

-- ════════════════════════════════════════════════════════════════════════
-- Derivations
-- ════════════════════════════════════════════════════════════════════════

/-- The work reads: it neither resolves a target nor deletes. -/
def Job.Reads : Job → Prop
  | .expr role _ => role ≠ some .deleted
  | .target _ => False
  | .operands _ _ => True

/-- The translations of the expressions in a piece of work, after the earlier values. -/
def Job.translation (facts : Facts) : Job → List Expr
  | .expr _ e => [translate facts e]
  | .target _ => []
  | .operands earlier es => earlier ++ es.map (translate facts)

/-- A piece of work that needs no statements is silent, and yields the translation unless something
is reported or replaced by a constant. -/
structure Direct (ctx : Context) (job : Job) (values : List Expr) (g : Growth) : Prop where
  silent : g.Silent
  values : g.diagnostics = [] → (∀ v ∈ job.visits ctx.facts, isReplaced ctx v.2 = false) →
    values = job.translation ctx.facts

theorem visits_binary_subset {op : Source.Operator} (h : op.isAssignment = false) (facts : Facts)
    (role : Option Role) (left right : Source.Expr) (span : Span) :
    visitsAll facts (asOperands [left, right]) ⊆
      visits facts role (.binary left op right span) := by
  rw [← parts_simple facts role h left right span]
  exact visitsAll_parts_subset ..

/-- Counting an operator or an access before the work changes nothing. -/
theorem Direct.counted {job : Job} {values : List Expr} {g count : Growth}
    (h : Direct ctx job values g) (hsilent : count.Silent) (hreports : count.diagnostics = []) :
    Direct ctx job values (count ++ g) where
  silent := hsilent.append h.silent
  values hall := h.values (by rwa [Growth.append_diagnostics, hreports] at hall)

theorem Direct.element {role : Option Role} (hrole : role ≠ some .deleted)
    {object index : Source.Expr} {a b : Expr} {g : Growth}
    (h : Direct ctx (.operands [] [object, index]) [a, b] g) (optional : Bool) (span : Span) :
    Direct ctx (.expr role (.element object index optional span))
      [(elementRead ctx role object a b).1] (g ++ (elementRead ctx role object a b).2) where
  silent := h.silent.append (silent_elementRead hrole ..)
  values hreports hkept := by
    have hsub := visitsAll_parts_subset ctx.facts role (.element object index optional span)
    obtain ⟨hboth, hown⟩ := List.append_eq_nil_iff.1 hreports
    cases h.values hboth fun v hv => hkept v (hsub hv)
    rw [elementRead_eq_member hrole hown]
    rfl

/-- A callee or an object, and arguments after it. -/
theorem Direct.withArgs {role : Option Role} {head : Source.Expr} {args : List Source.Expr}
    {value first : Expr} {rest : List Expr} {g₁ g₂ : Growth}
    (hhead : Direct ctx (.expr role head) [value] g₁)
    (hargs : Direct ctx (.operands [value] args) (first :: rest) g₂)
    (hreports : (g₁ ++ g₂).diagnostics = [])
    (hkept : ∀ v ∈ visitsAll ctx.facts ((role, head) :: asOperands args),
      isReplaced ctx v.2 = false) :
    first = translate ctx.facts head ∧ rest = translateAll ctx.facts args := by
  obtain ⟨hbefore, hafter⟩ := List.append_eq_nil_iff.1 hreports
  obtain ⟨hone, hall⟩ := List.forall_mem_append.1 hkept
  cases hhead.values hbefore hone
  cases hargs.values hafter hall
  exact ⟨rfl, (translateAll_eq_map ..).symm⟩

/-- Work that only reads, and visits nothing that needs statements, is done directly. -/
theorem Lowers.direct {job : Job} {n : Nat} {values : List Expr} {g : Growth}
    (h : Lowers ctx job n values g) (hreads : job.Reads)
    (hfree : ∀ v ∈ job.visits ctx.facts, emits ctx.facts v.2 = false) :
    Direct ctx job values g := by
  have hoperand : some Role.operand ≠ some .deleted := by decide
  have hcallee : some Role.callee ≠ some .deleted := by decide
  induction h with
  | name => exact ⟨⟨rfl, rfl⟩, fun _ _ => rfl⟩
  | literal => exact ⟨⟨rfl, rfl⟩, fun _ _ => rfl⟩
  | @template role head parts span _ values g _ ih =>
    have hsub := visitsAll_parts_subset ctx.facts role (.template head parts span)
    obtain ⟨hsilent, hvalues⟩ := ih trivial fun v hv => hfree v (hsub hv)
    refine ⟨hsilent, fun hreports hkept => ?_⟩
    have hlist : values = parts.map fun part => translate ctx.facts part.expr := by
      rw [hvalues hreports fun v hv => hkept v (hsub hv)]
      exact List.map_map
    rw [hlist, templateValue_translate]
    rfl
  | @simple role left op right span _ form a b g hop _ ih =>
    have hsub := visits_binary_subset (operatorEffects_simple hop).1 ctx.facts role left right span
    obtain ⟨hsilent, hvalues⟩ := ih trivial fun v hv => hfree v (hsub hv)
    refine ⟨hsilent, fun hreports hkept => ?_⟩
    cases hvalues hreports fun v hv => hkept v (hsub hv)
    rw [build_eq_translateOperator hop]
    rfl
  | @logical role left op right span _ a b g hop _ ih =>
    obtain ⟨l, rfl⟩ := eq_logical_of_operatorKind hop
    have hop : (Source.Operator.logical l).isAssignment = false := rfl
    have hsub := visits_binary_subset hop ctx.facts role left right span
    obtain ⟨hsilent, hvalues⟩ := ih trivial fun v hv => hfree v (hsub hv)
    refine Direct.counted ⟨hsilent, fun hreports hkept => ?_⟩ ⟨rfl, rfl⟩ rfl
    cases hvalues hreports fun v hv => hkept v (hsub hv)
    rfl
  | assign hop =>
    obtain rfl := eq_assign_of_operatorKind hop
    cases hfree _ (mem_visits_self ..)
  | compound hop =>
    obtain rfl := eq_assignWith_of_operatorKind hop
    cases hfree _ (mem_visits_self ..)
  | @property role object name nameSpan span _ value g _ ih =>
    have hsub : visits ctx.facts (some .operand) object ⊆
        visits ctx.facts role (.property object name nameSpan false span) :=
      visits_subset_of_mem_parts (p := (some .operand, object)) List.mem_cons_self
    obtain ⟨hsilent, hvalues⟩ := ih hoperand fun v hv => hfree v (hsub hv)
    refine ⟨hsilent.append (silent_propertyRead hreads ..), fun hreports hkept => ?_⟩
    obtain ⟨hobject, hown⟩ := List.append_eq_nil_iff.1 hreports
    cases hvalues hobject fun v hv => hkept v (hsub hv)
    have hconstant : foldedConstant? ctx span = none := by
      simpa [isReplaced] using hkept _ (mem_visits_self ..)
    rw [propertyRead_eq_member hreads hconstant hown]
    rfl
  | chainProperty => cases hfree _ (mem_visits_self ..)
  | @element role object index span _ _ _ _ _ ih =>
    have hsub := visitsAll_parts_subset ctx.facts role (.element object index false span)
    exact (ih trivial fun v hv => hfree v (hsub hv)).element hreads false span
  | @chainElement role object index span _ _ _ _ _ ih =>
    have hsub := visitsAll_parts_subset ctx.facts role (.element object index true span)
    rw [Growth.append_assoc]
    exact ((ih trivial fun v hv => hfree v (hsub hv)).element hreads true span).counted
      ⟨rfl, rfl⟩ rfl
  | refusedCall => exact ⟨⟨rfl, rfl⟩, fun hreports => by cases hreports⟩
  | expandedCall hform =>
    cases (emits_of_expanded hform ..).symm.trans (hfree _ (mem_visits_self ..))
  | @methodCall role callee args span _ _ _ _ _ _ _ _ _ _ _ _ hform hunwrap _ _ ihobject ihargs =>
    have hsub := visitsAll_parts_subset ctx.facts role (.call callee args span)
    rw [parts_memberCall hunwrap (.inr ⟨_, hform⟩)] at hsub
    obtain ⟨hone, hall⟩ := List.forall_mem_append.1 fun v hv => hfree v (hsub hv)
    have hobject := ihobject hoperand hone
    have hargs := ihargs trivial hall
    refine ⟨hobject.silent.append hargs.silent, fun hreports hkept => ?_⟩
    obtain ⟨rfl, rfl⟩ := hobject.withArgs hargs hreports fun v hv => hkept v (hsub hv)
    rw [Job.translation, translate, calledMethod?_of_method hform,
      translateReceiver_of_unwrap hunwrap]
  | @plainCall role callee args span _ _ _ _ _ _ hform _ _ ihcallee ihargs =>
    have hsub := visitsAll_parts_subset ctx.facts role (.call callee args span)
    rw [parts_plainCall hform] at hsub
    obtain ⟨hone, hall⟩ := List.forall_mem_append.1 fun v hv => hfree v (hsub hv)
    have hhead := ihcallee hcallee hone
    have hargs := ihargs trivial hall
    refine ⟨hhead.silent.append hargs.silent, fun hreports hkept => ?_⟩
    obtain ⟨rfl, rfl⟩ := hhead.withArgs hargs hreports fun v hv => hkept v (hsub hv)
    rw [Job.translation, translate, calledMethod?_of_plain hform]
  | delete => cases hfree _ (mem_visits_self ..)
  | @wrap role wrapper inner span _ _ _ _ ih =>
    have hsub : visits ctx.facts role inner ⊆ visits ctx.facts role (.wrap wrapper inner span) :=
      visits_subset_of_mem_parts (p := (role, inner)) List.mem_cons_self
    obtain ⟨hsilent, hvalues⟩ := ih hreads fun v hv => hfree v (hsub hv)
    exact ⟨hsilent, fun hreports hkept => hvalues hreports fun v hv => hkept v (hsub hv)⟩
  | targetName | targetProperty | targetElement => cases hreads
  | noOperand => exact ⟨⟨rfl, rfl⟩, fun _ _ => (List.append_nil _).symm⟩
  | @operand earlier e es n value values g₁ g₂ _ _ ihhead ihtail =>
    obtain ⟨hone, hall⟩ := List.forall_mem_append.1 hfree
    obtain ⟨hsilent, hvalue⟩ := ihhead hoperand hone
    obtain ⟨hsilent', hvalues⟩ := ihtail trivial hall
    have hearlier : displaced (n + g₁.temps) earlier g₁.stmts = (earlier, ∅) := by
      rw [hsilent.stmts]
      rfl
    rw [hearlier, Growth.empty_append]
    refine ⟨hsilent.append hsilent', fun hreports hkept => ?_⟩
    obtain ⟨hhead, htail⟩ := List.append_eq_nil_iff.1 hreports
    obtain ⟨hfirst, hrest⟩ := List.forall_mem_append.1 hkept
    cases hvalue hhead hfirst
    rw [hvalues htail hrest, hearlier]
    simp [Job.translation]

-- ════════════════════════════════════════════════════════════════════════
-- Runs
-- ════════════════════════════════════════════════════════════════════════

/-- Expressions without assignments, deletions, optional property accesses and expanded calls are
lowered without statements and temporaries, from every state and whatever is reported. If nothing
is reported, and no constant is put in the place of a member access that is lowered, the value is
the translation of the expression. -/
theorem plain_expressions_translate {e : Source.Expr} {s t : State} {value : Expr}
    (hfree : ∀ d ∈ e.nodes, emits ctx.facts d = false)
    (hrun : (lowerExpr ctx e).run s = (.ok value, t)) :
    (t.frame = s.frame ∧ t.outer = s.outer ∧ t.nextTemp = s.nextTemp) ∧
      (t.diagnostics = s.diagnostics →
        (∀ v ∈ visits ctx.facts (some .operand) e, isReplaced ctx v.2 = false) →
        value = translate ctx.facts e) := by
  obtain ⟨g, rfl, hlow⟩ := (lowers_of_run ctx e).inRole hrun
  have hvisited : ∀ v ∈ visits ctx.facts (some .operand) e, emits ctx.facts v.2 = false :=
    fun v hv => hfree v.2 (mem_nodes_of_mem_visits v hv)
  obtain ⟨hsilent, hvalues⟩ := hlow.direct (by simp [Job.Reads, State.role?_enter]) hvisited
  refine ⟨⟨?_, rfl, ?_⟩, fun hreports hkept => ?_⟩
  · simp [State.grow, hsilent.stmts]
  · simp [State.grow, hsilent.temps]
  · have hnone : g.diagnostics = [] := by simpa [State.grow] using hreports
    cases hvalues hnone hkept
    rfl

/-- `o.m(f(q.r))! & b`, where `o.m` is a method. -/
def calledSample : Source.Expr :=
  .binary (.wrap .nonNull
      (.call (.property (.name "o" (.point 1 1)) "m" (.point 1 2) false (.point 1 3))
        [.call (.name "f" (.point 1 4))
          [.property (.name "q" (.point 1 5)) "r" (.point 1 6) false (.point 1 7)] (.point 1 8)]
        (.point 1 9)) (.point 1 10))
    (.calculation (.bitwise .and)) (.name "b" (.point 1 11)) (.point 1 12)

/-- ``(`n${x < 1}-${t}` + 'k').p``, where `t` is a string. -/
def chainedSample : Source.Expr :=
  .property (.wrap .parens (.binary
    (.template "n" [⟨.binary (.name "x" (.point 2 1)) (.comparison .lt)
        (.literal (.number "1") (.point 2 2)) (.point 2 3), "-", .point 2 4⟩,
      ⟨.name "t" (.point 2 5), "", .point 2 6⟩] (.point 2 7))
    (.calculation (.arithmetic .add)) (.literal (.string "'k'") (.point 2 8)) (.point 2 9))
    (.point 2 10)) "p" (.point 2 11) false (.point 2 12)

/-- The value of `q.r` is known, but constants are not folded. -/
def sampleContext : Context :=
  ⟨((Facts.empty.withMethod (.point 1 3)).withConstant (.point 1 7) (.text "k")).withType
    (.point 2 5) (.ofTags .string), ⟨false, true⟩⟩

/-- The translation of the sample with calls. -/
def calledTranslation : Expr :=
  .call (.property (.name "bit32") "band")
    [.method (.name "o") "m" [.call (.name "f") [.property (.name "q") "r"]], .name "b"]

/-- The translation of the sample with a template. The object needs parentheses, and the first
value is converted. -/
def chainedTranslation : Expr :=
  .property (.paren (.binary
    (.binary (.binary (.binary (.string "n") .concat
      (.call (.name "tostring") [.binary (.name "x") .lt (.number "1")])) .concat (.string "-"))
      .concat (.name "t"))
    .add (.string "k"))) "p"

/-- A state with a statement in the frame and temporaries in use. -/
def busyState : State := ⟨[.assign (.name "x") .set .nil], [], [.deleted], [], 3, 0, 0⟩

/-- Both samples are lowered to their translations. -/
theorem samples_translate :
    ((lowerExpr sampleContext calledSample).run busyState = (.ok calledTranslation, busyState) ∧
        calledTranslation = translate sampleContext.facts calledSample) ∧
      (lowerExpr sampleContext chainedSample).run busyState =
          (.ok chainedTranslation, busyState) ∧
        chainedTranslation = translate sampleContext.facts chainedSample := by
  have hkept (e : Source.Expr) :
      ∀ v ∈ visits sampleContext.facts (some .operand) e, isReplaced sampleContext v.2 = false := by
    rintro ⟨role, d⟩ -
    cases d <;> rfl
  have hcalled : (lowerExpr sampleContext calledSample).run busyState =
      (.ok calledTranslation, busyState) := rfl
  have hchained : (lowerExpr sampleContext chainedSample).run busyState =
      (.ok chainedTranslation, busyState) := rfl
  exact ⟨⟨hcalled, (plain_expressions_translate (by decide) hcalled).2 rfl (hkept _)⟩,
    hchained, (plain_expressions_translate (by decide) hchained).2 rfl (hkept _)⟩

end ExprLowering.Lowering
