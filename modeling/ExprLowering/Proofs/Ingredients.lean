import ExprLowering.Proofs.Effects

/-!
# What lowered expressions are made of

The statements and the value of a lowering are trees, and every node in them is of one of a few
kinds: names and strings come from the source or are put in by lowering itself, and what is indexed
or called may be indexed or called. What is to hold of all nodes has to be shown for these kinds
only.

## Main definitions

* `Expr.nodes`, `Stmt.nodes`, `Output.nodes`: everything in expressions, statements and outputs.
* `Ingredient`: the kinds of nodes.
* `MadeOf`: all nodes of some values and of a growth have a property.

## Main results

* `Lowers.madeOf`: derivations are made of ingredients.
* `every_node_of_lowerAlone`: the same for an expression on its own.
-/

namespace ExprLowering.Target

mutual

/-- An expression and all expressions inside it. -/
def Expr.nodes : Expr → List Expr
  | .nil => [.nil]
  | .bool value => [.bool value]
  | .number text => [.number text]
  | .string body => [.string body]
  | .name text => [.name text]
  | .temp t => [.temp t]
  | .binary left op right => .binary left op right :: (left.nodes ++ right.nodes)
  | .property object name => .property object name :: object.nodes
  | .index object key => .index object key :: (object.nodes ++ key.nodes)
  | .call callee args => .call callee args :: (callee.nodes ++ nodesAll args)
  | .method object name args => .method object name args :: (object.nodes ++ nodesAll args)
  | .paren inner => .paren inner :: inner.nodes

/-- All expressions inside the expressions of a list, and these themselves. -/
def nodesAll : List Expr → List Expr
  | [] => []
  | e :: es => e.nodes ++ nodesAll es

end

/-- The expression and everything inside it has a property. -/
def Expr.Every (P : Expr → Prop) (e : Expr) : Prop := ∀ m ∈ e.nodes, P m

/-- Everything in a list of expressions has a property. -/
def EveryIn (P : Expr → Prop) (es : List Expr) : Prop := ∀ m ∈ nodesAll es, P m

/-- All expressions in a statement. -/
def Stmt.nodes : Stmt → List Expr
  | .assign left _ right => left.nodes ++ right.nodes
  | .declare _ value => value.nodes

@[simp] theorem nodesAll_nil : nodesAll [] = [] := rfl

@[simp] theorem nodesAll_cons (e : Expr) (es : List Expr) :
    nodesAll (e :: es) = e.nodes ++ nodesAll es := rfl

@[simp] theorem nodesAll_append (xs ys : List Expr) :
    nodesAll (xs ++ ys) = nodesAll xs ++ nodesAll ys := by
  induction xs with
  | nil => rfl
  | cons e es ih => simp [ih]

section

variable {P : Expr → Prop}

/-- An expression with nothing inside. -/
theorem Expr.Every.leaf {e : Expr} (h : P e) (hnodes : e.nodes = [e]) : e.Every P := by
  rw [Expr.Every, hnodes]
  exact List.forall_mem_singleton.2 h

theorem everyIn_nil : EveryIn P [] := by simp [EveryIn]

@[simp] theorem everyIn_cons {e : Expr} {es : List Expr} :
    EveryIn P (e :: es) ↔ e.Every P ∧ EveryIn P es := List.forall_mem_append

@[simp] theorem everyIn_append {xs ys : List Expr} :
    EveryIn P (xs ++ ys) ↔ EveryIn P xs ∧ EveryIn P ys := by
  rw [EveryIn, nodesAll_append]
  exact List.forall_mem_append

theorem everyIn_single {e : Expr} : EveryIn P [e] ↔ e.Every P := by
  rw [everyIn_cons, and_iff_left everyIn_nil]

end

end ExprLowering.Target

namespace ExprLowering.Lowering

open Source (Substitution)
open Target

/-- All expressions in what a lowering gives out. -/
def Output.nodes (out : Output) : List Expr := out.stmts.flatMap Stmt.nodes ++ out.value.nodes

-- ════════════════════════════════════════════════════════════════════════
-- The kinds of nodes
-- ════════════════════════════════════════════════════════════════════════

/-- The names that lowering puts in by itself. -/
def insertedNames : List String := ["logical", "tostring", "bit32", "rawlen", "table", "effect"]

/-- The nodes that a lowering can produce, given the expressions `nodes` of the source and what was
reported. The placeholder stands for something that was reported. -/
inductive Ingredient (facts : Facts) (nodes : List Source.Expr) (reports : List Diagnostic) :
    Expr → Prop where
  | nil : Ingredient facts nodes reports .nil
  | bool {value} : Ingredient facts nodes reports (.bool value)
  | number {text} : Ingredient facts nodes reports (.number text)
  | temp {t} : Ingredient facts nodes reports (.temp t)
  | sourceName {text span} : .name text span ∈ nodes → Ingredient facts nodes reports (.name text)
  | insertedName {text} : text ∈ insertedNames → Ingredient facts nodes reports (.name text)
  | placeholder : reports ≠ [] → Ingredient facts nodes reports .placeholder
  | noText : Ingredient facts nodes reports (.string "")
  | quoted {raw span} : .literal (.string raw) span ∈ nodes →
      Ingredient facts nodes reports (.string (StringBody.ofQuoted raw))
  | quotedTemplate {raw span} : .literal (.template raw) span ∈ nodes →
      Ingredient facts nodes reports (.string (StringBody.ofQuotedTemplate raw))
  | headText {head parts span} : .template head parts span ∈ nodes →
      Ingredient facts nodes reports (.string (StringBody.ofTemplate head))
  | partText {head parts span part} : .template head parts span ∈ nodes → part ∈ parts →
      Ingredient facts nodes reports (.string (StringBody.ofTemplate part.text))
  | constant {span value} : facts.constantAt? span = some (.text value) →
      Ingredient facts nodes reports (.string (StringBody.ofText value))
  | binary {left op right} : Ingredient facts nodes reports (.binary left op right)
  | property {object name} : object.isIndexable = true →
      Ingredient facts nodes reports (.property object name)
  | index {object key} : object.isIndexable = true →
      Ingredient facts nodes reports (.index object key)
  | call {callee args} : callee.isIndexable = true →
      Ingredient facts nodes reports (.call callee args)
  | method {object name args} : object.isIndexable = true →
      Ingredient facts nodes reports (.method object name args)
  | paren {inner} : inner.isIndexable = false → Ingredient facts nodes reports (.paren inner)

/-- The property holds of all ingredients. -/
def Admits (P : Expr → Prop) (facts : Facts) (nodes : List Source.Expr)
    (reports : List Diagnostic) : Prop :=
  ∀ m, Ingredient facts nodes reports m → P m

theorem Admits.mono {P : Expr → Prop} {facts : Facts} {nodes fewer : List Source.Expr}
    {reports less : List Diagnostic} (h : Admits P facts nodes reports) (hnodes : fewer ⊆ nodes)
    (hreports : less ⊆ reports) : Admits P facts fewer less := by
  intro m hm
  apply h
  cases hm with
  | nil => exact .nil
  | bool => exact .bool
  | number => exact .number
  | temp => exact .temp
  | sourceName hmem => exact .sourceName (hnodes hmem)
  | insertedName hmem => exact .insertedName hmem
  | placeholder hne =>
    refine .placeholder fun hnil => hne ?_
    rw [hnil] at hreports
    exact List.subset_nil.1 hreports
  | noText => exact .noText
  | quoted hmem => exact .quoted (hnodes hmem)
  | quotedTemplate hmem => exact .quotedTemplate (hnodes hmem)
  | headText hmem => exact .headText (hnodes hmem)
  | partText hmem hpart => exact .partText (hnodes hmem) hpart
  | constant hconstant => exact .constant hconstant
  | binary => exact .binary
  | property h => exact .property h
  | index h => exact .index h
  | call h => exact .call h
  | method h => exact .method h
  | paren h => exact .paren h

theorem Admits.within {P : Expr → Prop} {facts : Facts} {nodes fewer : List Source.Expr}
    {reports : List Diagnostic} (h : Admits P facts nodes reports) (hnodes : fewer ⊆ nodes) :
    Admits P facts fewer reports :=
  h.mono hnodes (List.Subset.refl _)

theorem Admits.left {P : Expr → Prop} {facts : Facts} {nodes : List Source.Expr} {g₁ g₂ : Growth}
    (h : Admits P facts nodes (g₁ ++ g₂).diagnostics) : Admits P facts nodes g₁.diagnostics :=
  h.mono (List.Subset.refl _) (List.subset_append_left ..)

theorem Admits.right {P : Expr → Prop} {facts : Facts} {nodes : List Source.Expr} {g₁ g₂ : Growth}
    (h : Admits P facts nodes (g₁ ++ g₂).diagnostics) : Admits P facts nodes g₂.diagnostics :=
  h.mono (List.Subset.refl _) (List.subset_append_right ..)

-- ════════════════════════════════════════════════════════════════════════
-- Expressions made of ingredients
-- ════════════════════════════════════════════════════════════════════════

section

variable {P : Expr → Prop} {facts : Facts} {nodes : List Source.Expr} {reports : List Diagnostic}

theorem Admits.toIndexable (hP : Admits P facts nodes reports) {e : Expr} (h : e.Every P) :
    e.toIndexable.Every P := by
  unfold Expr.toIndexable
  split
  · exact h
  · rename_i hnot
    exact List.forall_mem_cons.2 ⟨hP _ (.paren (Bool.eq_false_iff.2 hnot)), h⟩

theorem Admits.property (hP : Admits P facts nodes reports) {value : Expr} (h : value.Every P)
    (name : String) : (Expr.property value.toIndexable name).Every P :=
  List.forall_mem_cons.2
    ⟨hP _ (.property (Expr.isIndexable_toIndexable value)), hP.toIndexable h⟩

theorem Admits.index (hP : Admits P facts nodes reports) {value key : Expr} (h : value.Every P)
    (hkey : key.Every P) : (Expr.index value.toIndexable key).Every P :=
  List.forall_mem_cons.2 ⟨hP _ (.index (Expr.isIndexable_toIndexable value)),
    List.forall_mem_append.2 ⟨hP.toIndexable h, hkey⟩⟩

theorem Admits.call (hP : Admits P facts nodes reports) {callee : Expr} {args : List Expr}
    (hindexable : callee.isIndexable = true) (hcallee : callee.Every P) (hargs : EveryIn P args) :
    (Expr.call callee args).Every P :=
  List.forall_mem_cons.2 ⟨hP _ (.call hindexable), List.forall_mem_append.2 ⟨hcallee, hargs⟩⟩

theorem Admits.method (hP : Admits P facts nodes reports) {object : Expr} {args : List Expr}
    (hindexable : object.isIndexable = true) (hobject : object.Every P) (hargs : EveryIn P args)
    (name : String) : (Expr.method object name args).Every P :=
  List.forall_mem_cons.2 ⟨hP _ (.method hindexable), List.forall_mem_append.2 ⟨hobject, hargs⟩⟩

theorem Admits.binary (hP : Admits P facts nodes reports) {a b : Expr} (ha : a.Every P)
    (hb : b.Every P) (op : Binop) : (Expr.binary a op b).Every P :=
  List.forall_mem_cons.2 ⟨hP _ .binary, List.forall_mem_append.2 ⟨ha, hb⟩⟩

theorem Admits.inserted (hP : Admits P facts nodes reports) {text : String}
    (h : text ∈ insertedNames) : (Expr.name text).Every P :=
  .leaf (hP _ (.insertedName h)) rfl

theorem Admits.library (hP : Admits P facts nodes reports) {text : String}
    (h : text ∈ insertedNames) (name : String) : (Expr.property (.name text) name).Every P :=
  List.forall_mem_cons.2 ⟨hP _ (.property rfl), hP.inserted h⟩

theorem Admits.build (hP : Admits P facts nodes reports) (form : SimpleForm) {a b : Expr}
    (ha : a.Every P) (hb : b.Every P) : (form.build a b).Every P := by
  cases form with
  | native op => exact hP.binary ha hb op
  | bits function =>
    have hargs : EveryIn P [a, b] := by simpa using ⟨ha, hb, everyIn_nil⟩
    exact hP.call rfl (hP.library (by decide) _) hargs

theorem Admits.nameValue (hP : Admits P facts nodes reports) {text : String} {span : Span}
    (h : .name text span ∈ nodes) : (Lowering.nameValue text).Every P := by
  rw [Lowering.nameValue]
  split
  · exact .leaf (hP _ .nil) rfl
  · exact .leaf (hP _ (.sourceName h)) rfl

theorem Admits.literalValue (hP : Admits P facts nodes reports) {value : Source.Literal}
    {span : Span} (h : .literal value span ∈ nodes) : (Lowering.literalValue value).Every P := by
  cases value with
  | bool value => exact .leaf (hP _ .bool) rfl
  | number raw => exact .leaf (hP _ .number) rfl
  | string raw => exact .leaf (hP _ (.quoted h)) rfl
  | template raw => exact .leaf (hP _ (.quotedTemplate h)) rfl

theorem Admits.foldedConstant {ctx : Context} (hP : Admits P ctx.facts nodes reports) {span : Span}
    {constant : Constant} (h : foldedConstant? ctx span = some constant) :
    (constantValue constant).Every P := by
  rw [foldedConstant?] at h
  split at h
  · cases constant with
    | text value => exact .leaf (hP _ (.constant h)) rfl
    | number value => exact .leaf (hP _ .number) rfl
  · cases h

theorem Admits.concatenation (hP : Admits P facts nodes reports) {segments : List Expr}
    (h : EveryIn P segments) : (Lowering.concatenation segments).Every P := by
  have hchain (first : Expr) (hfirst : first.Every P) (rest : List Expr) (hrest : EveryIn P rest) :
      (rest.foldl (fun chain segment => .binary chain .concat segment) first).Every P := by
    induction rest generalizing first with
    | nil => exact hfirst
    | cons segment rest ih =>
      obtain ⟨hsegment, hrest⟩ := everyIn_cons.1 hrest
      exact ih _ (hP.binary hfirst hsegment _) hrest
  cases segments with
  | nil => exact .leaf (hP _ .noText) rfl
  | cons first rest =>
    obtain ⟨hfirst, hrest⟩ := everyIn_cons.1 h
    exact hchain first hfirst rest hrest

theorem everyIn_textSegment {text : String} (h : P (.string (StringBody.ofTemplate text))) :
    EveryIn P (textSegment text) := by
  rw [textSegment]
  split
  · exact everyIn_nil
  · exact everyIn_single.2 (.leaf h rfl)

theorem Admits.partSegments (hP : Admits P facts nodes reports)
    {parts : List (Substitution Source.Expr)}
    (htexts : ∀ part ∈ parts, P (.string (StringBody.ofTemplate part.text))) {values : List Expr}
    (h : EveryIn P values) (types : Facts) :
    EveryIn P (Lowering.partSegments types parts values) := by
  induction parts generalizing values with
  | nil => exact everyIn_nil
  | cons part parts ih =>
    cases values with
    | nil => exact everyIn_nil
    | cons value values =>
      obtain ⟨hvalue, hvalues⟩ := everyIn_cons.1 h
      obtain ⟨htext, htexts⟩ := List.forall_mem_cons.1 htexts
      refine everyIn_cons.2 ⟨?_, everyIn_append.2 ⟨everyIn_textSegment htext, ih htexts hvalues⟩⟩
      rw [valueSegment]
      split
      · exact hvalue
      · exact hP.call rfl (hP.inserted (by decide)) (everyIn_single.2 hvalue)

theorem Admits.templateValue (hP : Admits P facts nodes reports) {head : String}
    {parts : List (Substitution Source.Expr)} {span : Span} (h : .template head parts span ∈ nodes)
    {values : List Expr} (hvalues : EveryIn P values) (types : Facts) :
    (Lowering.templateValue types head parts values).Every P := by
  have hhead := everyIn_textSegment (hP _ (.headText h))
  have hparts := hP.partSegments (fun part hpart => hP _ (.partText h hpart)) hvalues types
  exact hP.concatenation (everyIn_append.2 ⟨hhead, hparts⟩)

theorem Admits.pair {e left right : Source.Expr}
    (hP : Admits P facts (e :: (left.nodes ++ right.nodes)) reports) :
    Admits P facts (Job.operands [] [left, right]).nodes reports := by
  rw [Job.nodes_pair]
  exact hP.within (List.subset_cons_self ..)

end

-- ════════════════════════════════════════════════════════════════════════
-- Values with the statements before them
-- ════════════════════════════════════════════════════════════════════════

/-- Everything in the values and in the statements has a property. -/
structure MadeOf (P : Expr → Prop) (values : List Expr) (g : Growth) : Prop where
  values : EveryIn P values
  stmts : ∀ m ∈ g.stmts.flatMap Stmt.nodes, P m

namespace MadeOf

variable {P : Expr → Prop} {facts : Facts} {nodes : List Source.Expr} {reports : List Diagnostic}
  {values values₁ values₂ : List Expr} {g g₁ g₂ : Growth}

theorem silent (h : EveryIn P values) (hstmts : g.stmts = []) : MadeOf P values g :=
  ⟨h, by simp [hstmts]⟩

theorem withValues (h : MadeOf P values₁ g) (hvalues : EveryIn P values₂) : MadeOf P values₂ g :=
  ⟨hvalues, h.stmts⟩

theorem append (h₁ : MadeOf P values₁ g₁) (h₂ : MadeOf P values₂ g₂) :
    MadeOf P (values₁ ++ values₂) (g₁ ++ g₂) := by
  refine ⟨everyIn_append.2 ⟨h₁.values, h₂.values⟩, ?_⟩
  rw [Growth.append_stmts, List.flatMap_append]
  exact List.forall_mem_append.2 ⟨h₁.stmts, h₂.stmts⟩

/-- The values of the second part count, the statements of both. -/
theorem followedBy (h₁ : MadeOf P values₁ g₁) (h₂ : MadeOf P values₂ g₂) :
    MadeOf P values₂ (g₁ ++ g₂) :=
  (h₁.append h₂).withValues h₂.values

theorem single {value : Expr} (h : MadeOf P [value] g) : value.Every P := everyIn_single.1 h.values

theorem pair {a b : Expr} (h : MadeOf P [a, b] g) : a.Every P ∧ b.Every P := by
  obtain ⟨ha, hb⟩ := everyIn_cons.1 h.values
  exact ⟨ha, everyIn_single.1 hb⟩

theorem ofAssign {left right : Expr} (op : AssignOp) (hleft : left.Every P)
    (hright : right.Every P) : MadeOf P [] (.ofStmts [.assign left op right]) := by
  refine ⟨everyIn_nil, ?_⟩
  rw [Growth.ofStmts, List.flatMap_cons, List.flatMap_nil, List.append_nil]
  exact List.forall_mem_append.2 ⟨hleft, hright⟩

theorem ofDeclaring (hP : Admits P facts nodes reports) {value : Expr} (h : value.Every P)
    (n : Nat) : MadeOf P [.temp ⟨n⟩] (.declaring n value) := by
  refine ⟨everyIn_single.2 (.leaf (hP _ .temp) rfl), ?_⟩
  rw [Growth.declaring, List.flatMap_cons, List.flatMap_nil, List.append_nil]
  exact h

theorem ofSaved (hP : Admits P facts nodes reports) {value : Expr} (h : value.Every P) (n : Nat) :
    MadeOf P [(saved n value).1] (saved n value).2 := by
  rw [saved]
  split
  · exact .silent (everyIn_single.2 h) rfl
  · exact .ofDeclaring hP h n

theorem ofSettleAll (hP : Admits P facts nodes reports) (h : EveryIn P values) (n : Nat) :
    MadeOf P (settleAll n values).1 (settleAll n values).2 := by
  induction values generalizing n with
  | nil => exact .silent everyIn_nil rfl
  | cons value values ih =>
    obtain ⟨hvalue, hvalues⟩ := everyIn_cons.1 h
    cases hsettled : value.isSettled with
    | true =>
      have htail := ih hvalues n
      rw [settleAll_cons_settled hsettled]
      exact htail.withValues (everyIn_cons.2 ⟨hvalue, htail.values⟩)
    | false =>
      rw [settleAll_cons_unsettled hsettled]
      exact (ofDeclaring hP hvalue n).append (ih hvalues (n + 1))

theorem ofDisplaced (hP : Admits P facts nodes reports) (h : EveryIn P values) (n : Nat)
    (stmts : List Stmt) : MadeOf P (displaced n values stmts).1 (displaced n values stmts).2 := by
  cases stmts with
  | nil => exact .silent h rfl
  | cons stmt stmts => exact .ofSettleAll hP h n

theorem ofMemberRead (hP : Admits P facts nodes reports) (role : Option Role) {member : Expr}
    (h : member.Every P) : MadeOf P [(memberRead role member).1] (memberRead role member).2 := by
  have hnil : Expr.nil.Every P := .leaf (hP _ .nil) rfl
  rw [memberRead]
  split
  · exact (ofAssign .set h hnil).withValues (everyIn_single.2 hnil)
  · exact .silent (everyIn_single.2 h) rfl

/-- A refused value is a placeholder, and it was reported. -/
theorem ofRefused {problem : Problem} {span : Span}
    (hP : Admits P facts nodes (Growth.ofDiagnostic problem span).diagnostics) :
    MadeOf P [.placeholder] (.ofDiagnostic problem span) :=
  .silent (everyIn_single.2 (.leaf (hP _ (.placeholder (List.cons_ne_nil _ _))) rfl)) rfl

theorem ofPropertyRead {ctx : Context} {role : Option Role} {object : Source.Expr} {name : String}
    {nameSpan span : Span} {value : Expr}
    (hP : Admits P ctx.facts nodes
      (propertyRead ctx role object name nameSpan span value).2.diagnostics)
    (h : value.Every P) :
    MadeOf P [(propertyRead ctx role object name nameSpan span value).1]
      (propertyRead ctx role object name nameSpan span value).2 := by
  rw [propertyRead] at hP ⊢
  by_cases hany : (ctx.facts.typeOf object).isAny = true
  · rw [if_pos hany] at hP ⊢
    exact ofRefused hP
  rw [if_neg hany] at hP ⊢
  by_cases hexpanded : (ctx.facts.expanderAt? span).isSome = true
  · rw [if_pos hexpanded] at hP ⊢
    exact ofRefused hP
  rw [if_neg hexpanded] at hP ⊢
  by_cases hmethod : (ctx.facts.isMethodAt span && role != some .callee) = true
  · rw [if_pos hmethod] at hP ⊢
    exact ofRefused hP
  rw [if_neg hmethod] at hP ⊢
  have hnote : MadeOf P [] (nameNote name nameSpan) := .silent everyIn_nil (nameNote_stmts ..)
  refine hnote.followedBy ?_
  rw [constantOrMember]
  cases hconstant : foldedConstant? ctx span with
  | some constant => exact .silent (everyIn_single.2 (hP.foldedConstant hconstant)) rfl
  | none => exact .ofMemberRead hP role (hP.property h name)

theorem ofElementRead {ctx : Context} {role : Option Role} {object : Source.Expr}
    {value key : Expr}
    (hP : Admits P facts nodes (elementRead ctx role object value key).2.diagnostics)
    (h : value.Every P) (hkey : key.Every P) :
    MadeOf P [(elementRead ctx role object value key).1]
      (elementRead ctx role object value key).2 := by
  rw [elementRead] at hP ⊢
  by_cases hany : (ctx.facts.typeOf object).isAny = true
  · rw [if_pos hany] at hP ⊢
    exact ofRefused hP
  · rw [if_neg hany] at hP ⊢
    exact .ofMemberRead hP role (hP.index h hkey)

theorem ofExpansion (hP : Admits P facts nodes reports) {n : Nat} {object result : Expr}
    {args : List Expr} {expander : Expander}
    (hexpansion : expansion n object args expander = some (result, g)) (h : object.Every P)
    (hargs : EveryIn P args) : MadeOf P [result] g := by
  cases expander with
  | unit =>
    cases hexpansion
    exact .silent (everyIn_single.2 (.leaf (hP _ .nil) rfl)) rfl
  | length =>
    cases hexpansion
    exact .silent (everyIn_single.2
      (hP.call rfl (hP.inserted (by decide)) (everyIn_single.2 h))) rfl
  | push =>
    cases hexpansion
    have hsaved := ofSaved hP h n
    exact hsaved.withValues (everyIn_single.2
      (hP.call rfl (hP.library (by decide) _) (everyIn_cons.2 ⟨hsaved.single, hargs⟩)))
  | fail => cases hexpansion
  | effect =>
    cases hexpansion
    have hdeclared := ofDeclaring hP h n
    have hassign := ofAssign .set (hP.inserted (by decide : "effect" ∈ insertedNames))
      hdeclared.single
    have hreport : MadeOf P [] (.ofDiagnostic .prototype (.point 8 8)) := .silent everyIn_nil rfl
    exact ((hdeclared.append hassign).append hreport).withValues
      (everyIn_single.2 (hP.method rfl hdeclared.single hargs _))

theorem ofCompoundStmt (hP : Admits P facts nodes reports) (options : Options)
    (op : Source.Calculation) {place value : Expr} (hplace : place.Every P) (h : value.Every P) :
    MadeOf P [] (.ofStmts [compoundStmt options op place value]) := by
  rw [compoundStmt]
  split
  · exact .ofAssign _ hplace h
  · exact .ofAssign _ hplace (hP.build _ hplace h)

end MadeOf

-- ════════════════════════════════════════════════════════════════════════
-- Derivations
-- ════════════════════════════════════════════════════════════════════════

theorem subset_callee_object {e callee object : Source.Expr} {args : List Source.Expr}
    {name : String} {nameSpan span : Span} {optional : Bool}
    (h : callee.unwrap = .property object name nameSpan optional span) :
    object.nodes ⊆ e :: (callee.nodes ++ Source.nodesAll args) :=
  List.subset_cons_of_subset _
    (List.Subset.trans (Source.Expr.nodes_property_subset h) (List.subset_append_left ..))

/-- Whatever holds of all ingredients, and of everything in the values that the work starts from,
holds of everything in its result. -/
theorem Lowers.madeOf {P : Expr → Prop} {ctx : Context} {job : Job} {n : Nat} {values : List Expr}
    {g : Growth} (h : Lowers ctx job n values g)
    (hP : Admits P ctx.facts job.nodes g.diagnostics) (hearlier : EveryIn P job.earlier) :
    MadeOf P values g := by
  induction h with
  | name => exact .silent (everyIn_single.2 (hP.nameValue List.mem_cons_self)) rfl
  | literal => exact .silent (everyIn_single.2 (hP.literalValue List.mem_cons_self)) rfl
  | @template _ _ parts _ _ _ _ _ ih =>
    have hsub : (Job.operands [] (parts.map (·.expr))).nodes ⊆ Source.partNodes parts := by
      rw [Source.partNodes_eq]
      exact List.Subset.refl _
    have hparts := ih (hP.within (List.Subset.trans hsub (List.subset_cons_self ..))) everyIn_nil
    exact hparts.withValues
      (everyIn_single.2 (hP.templateValue List.mem_cons_self hparts.values ctx.facts))
  | @simple _ _ _ _ _ _ form _ _ _ _ _ ih =>
    have hboth := ih hP.pair everyIn_nil
    exact hboth.withValues (everyIn_single.2 (hP.build form hboth.pair.1 hboth.pair.2))
  | logical _ _ ih =>
    have hboth := ih hP.right.pair everyIn_nil
    have hcount : MadeOf P [] Growth.oneLogical := .silent everyIn_nil rfl
    exact (hcount.append hboth).withValues
      (everyIn_single.2 (hP.call rfl (hP.inserted (by decide)) hboth.values))
  | @assign _ _ _ _ _ n _ _ g₁ g₂ _ _ _ _ ihleft ihright =>
    have hleft := ihleft
      (hP.left.left.left.within (List.subset_cons_of_subset _ (List.subset_append_left ..)))
      everyIn_nil
    have hright := ihright
      (hP.left.left.right.within (List.subset_cons_of_subset _ (List.subset_append_right ..)))
      everyIn_nil
    have hsaved := MadeOf.ofSaved hP hright.single (n + (g₁ ++ g₂).temps)
    exact (((hleft.followedBy hright).followedBy hsaved).append
      (.ofAssign .set hleft.single hsaved.single)).withValues hsaved.values
  | @compound _ _ _ _ _ _ calculation _ _ _ _ _ _ _ _ ihleft ihright =>
    have hleft := ihleft
      (hP.left.left.within (List.subset_cons_of_subset _ (List.subset_append_left ..)))
      everyIn_nil
    have hright := ihright
      (hP.left.right.within (List.subset_cons_of_subset _ (List.subset_append_right ..)))
      everyIn_nil
    have hstmt := MadeOf.ofCompoundStmt hP ctx.options calculation hleft.single hright.single
    exact ((hleft.append hright).append hstmt).withValues hleft.values
  | property _ ih =>
    have hobject := ih (hP.left.within (List.subset_cons_self ..)) everyIn_nil
    exact hobject.followedBy (.ofPropertyRead hP.right hobject.single)
  | @chainProperty _ _ _ _ _ n _ g _ ih =>
    have hcount : MadeOf P [] Growth.oneChain := .silent everyIn_nil rfl
    have hobject := ih (hP.left.left.right.within (List.subset_cons_self ..)) everyIn_nil
    have hsaved := MadeOf.ofSaved hP hobject.single (n + g.temps)
    exact ((hcount.followedBy hobject).followedBy hsaved).followedBy
      (.ofPropertyRead hP.right hsaved.single)
  | element _ ih =>
    have hboth := ih hP.left.pair everyIn_nil
    exact hboth.followedBy (.ofElementRead hP.right hboth.pair.1 hboth.pair.2)
  | chainElement _ ih =>
    have hcount : MadeOf P [] Growth.oneChain := .silent everyIn_nil rfl
    have hboth := ih hP.left.right.pair everyIn_nil
    exact (hcount.followedBy hboth).followedBy
      (.ofElementRead hP.right hboth.pair.1 hboth.pair.2)
  | refusedCall => exact .ofRefused hP
  | expandedCall _ hcallee _ _ hexpansion ihobject ihargs =>
    have hobject := ihobject (hP.left.left.within (subset_callee_object hcallee)) everyIn_nil
    have hargs := ihargs
      (hP.left.right.within (List.subset_cons_of_subset _ (List.subset_append_right ..)))
      hobject.values
    obtain ⟨hhead, hrest⟩ := everyIn_cons.1 hargs.values
    exact (hobject.followedBy hargs).followedBy (.ofExpansion hP hexpansion hhead hrest)
  | methodCall _ hcallee _ _ ihobject ihargs =>
    have hobject := ihobject (hP.left.within (subset_callee_object hcallee)) everyIn_nil
    have hargs := ihargs
      (hP.right.within (List.subset_cons_of_subset _ (List.subset_append_right ..)))
      hobject.values
    obtain ⟨hhead, hrest⟩ := everyIn_cons.1 hargs.values
    exact (hobject.followedBy hargs).withValues (everyIn_single.2
      (hP.method (Expr.isIndexable_toIndexable _) (hP.toIndexable hhead) hrest _))
  | plainCall _ _ _ ihcallee ihargs =>
    have hcallee := ihcallee
      (hP.left.within (List.subset_cons_of_subset _ (List.subset_append_left ..))) everyIn_nil
    have hargs := ihargs
      (hP.right.within (List.subset_cons_of_subset _ (List.subset_append_right ..)))
      hcallee.values
    obtain ⟨hhead, hrest⟩ := everyIn_cons.1 hargs.values
    exact (hcallee.followedBy hargs).withValues (everyIn_single.2
      (hP.call (Expr.isIndexable_toIndexable _) (hP.toIndexable hhead) hrest))
  | delete _ _ ih => exact ih (hP.within (List.subset_cons_self ..)) everyIn_nil
  | wrap _ ih => exact ih (hP.within (List.subset_cons_self ..)) everyIn_nil
  | @targetName left _ _ _ hunwrap =>
    have hmem := left.nodes_unwrap_subset
    rw [hunwrap] at hmem
    exact .silent (everyIn_single.2 (hP.nameValue (hmem List.mem_cons_self))) rfl
  | @targetProperty _ _ name _ _ n _ g hunwrap _ ih =>
    have hobject := ih (hP.left.within (Source.Expr.nodes_property_subset hunwrap)) everyIn_nil
    have hsaved := MadeOf.ofSaved hP hobject.single (n + g.temps)
    exact (hobject.followedBy hsaved).withValues
      (everyIn_single.2 (hP.property hsaved.single name))
  | @targetElement left object index _ n a _ g hunwrap _ ih =>
    have hsub : (Job.operands [] [object, index]).nodes ⊆ left.nodes := by
      rw [Job.nodes_pair]
      exact Source.Expr.nodes_element_subset hunwrap
    have hboth := ih (hP.left.left.within hsub) everyIn_nil
    have hbase := MadeOf.ofSaved hP hboth.pair.1 (n + g.temps)
    have hkey := MadeOf.ofSaved hP hboth.pair.2 (n + (g ++ (saved (n + g.temps) a).2).temps)
    exact ((hboth.followedBy hbase).followedBy hkey).withValues
      (everyIn_single.2 (hP.index hbase.single hkey.single))
  | noOperand => exact .silent hearlier rfl
  | @operand _ _ _ n _ _ g₁ _ _ _ ihhead ihtail =>
    have hhead := ihhead (hP.left.right.within (List.subset_append_left ..)) everyIn_nil
    have hmoved := (MadeOf.ofDisplaced hP hearlier (n + g₁.temps) g₁.stmts).append hhead
    exact hmoved.followedBy (ihtail (hP.right.within (List.subset_append_right ..)) hmoved.values)

/-- Whatever holds of all ingredients holds of everything that the lowering of an expression gives
out. -/
theorem every_node_of_lowerAlone {P : Expr → Prop} {ctx : Context} {e : Source.Expr} {out : Output}
    (hout : lowerAlone ctx e = .ok out) (hP : Admits P ctx.facts e.nodes out.diagnostics) :
    ∀ m ∈ out.nodes, P m := by
  obtain ⟨value, g, hlow, rfl⟩ := lowerAlone_eq_ok_iff.1 hout
  have hmade := hlow.madeOf hP everyIn_nil
  exact List.forall_mem_append.2 ⟨hmade.stmts, hmade.single⟩

end ExprLowering.Lowering
