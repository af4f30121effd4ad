import ExprLowering.Proofs.Coverage
import ExprLowering.Proofs.Targets

/-!
# Lowering keeps the meaning of expressions

The statements that the lowering of a covered expression emits, followed by the value that is still
pending, do what the expression does: they give the same value and end in the same store, whatever
the temporaries hold at the start.

## Main definitions

* `Means`: every lowering of an expression does what the expression does.
* `Locates`: a target keeps standing for the place that was found before the right side.

## Main results

* `Covered.means`: lowering keeps the meaning of covered expressions.
* `lowering_keeps_meaning`: the same for an expression on its own.
-/

namespace ExprLowering.Lowering

open Source (Substitution)
open Target

variable {V W : Type} {ctx : Context} {I : Interp V W}

-- ════════════════════════════════════════════════════════════════════════
-- Templates
-- ════════════════════════════════════════════════════════════════════════

theorem eval_concatenation (P : I.PureText) (τ : Nat → V) (segments : List Expr) (s : Store V W) :
    eval I τ (concatenation segments) s =
      (joinAll P (evalAll I τ segments s).1, (evalAll I τ segments s).2) := by
  have hchain (first : Expr) (rest : List Expr) :
      eval I τ (rest.foldl (fun chain segment => .binary chain .concat segment) first) s =
        ((evalAll I τ rest (eval I τ first s).2).1.foldl P.join (eval I τ first s).1,
          (evalAll I τ rest (eval I τ first s).2).2) := by
    induction rest generalizing first with
    | nil => rfl
    | cons segment rest ih =>
      rw [List.foldl_cons, ih]
      simp only [eval, P.binary_concat, evalAll_cons, List.foldl_cons]
  cases segments with
  | nil => rfl
  | cons first rest => exact hchain first rest

theorem evalAll_textSegment (I : Interp V W) (τ : Nat → V) (text : String) (s : Store V W) :
    evalAll I τ (textSegment text) s = (textValues I text, s) := by
  rw [textSegment, textValues]
  split
  · rfl
  · rfl

theorem eval_valueSegment (P : I.PureText) (facts : Facts) (source : Source.Expr) (τ : Nat → V)
    (value : Expr) (s : Store V W) :
    eval I τ (valueSegment facts source value) s =
      (if (facts.typeOf source).isString then (eval I τ value s).1
        else P.text (eval I τ value s).1, (eval I τ value s).2) := by
  rw [valueSegment]
  split
  · rfl
  · simp [eval, evalAll, Interp.lookup, P.fixed_eq, P.call_tostring]

theorem evalAll_partSegments (P : I.PureText) (facts : Facts) (τ : Nat → V)
    {parts : List (Substitution Source.Expr)} {values : List Expr}
    (h : values.length = parts.length) (s : Store V W) :
    evalAll I τ (partSegments facts parts values) s =
      (partValues P facts parts (evalAll I τ values s).1, (evalAll I τ values s).2) := by
  induction parts generalizing values s with
  | nil =>
    obtain rfl := List.length_eq_zero_iff.1 h
    rfl
  | cons part parts ih =>
    obtain ⟨value, values, rfl⟩ := List.exists_cons_of_length_eq_add_one h
    simp only [partSegments, evalAll_cons, evalAll_append, evalAll_textSegment,
      eval_valueSegment P, ih (Nat.succ.inj h), partValues]

theorem eval_templateValue (P : I.PureText) (facts : Facts) (τ : Nat → V) (head : String)
    {parts : List (Substitution Source.Expr)} {values : List Expr}
    (h : values.length = parts.length) (s : Store V W) :
    eval I τ (templateValue facts head parts values) s =
      (joinAll P (textValues I head ++ partValues P facts parts (evalAll I τ values s).1),
        (evalAll I τ values s).2) := by
  rw [templateValue, eval_concatenation P, evalAll_append, evalAll_textSegment,
    evalAll_partSegments P facts τ h]

-- ════════════════════════════════════════════════════════════════════════
-- Expressions that write nothing themselves
-- ════════════════════════════════════════════════════════════════════════

/-- Every lowering of an expression, unless it is deleted, does what the expression does. -/
def Means (P : I.PureText) (ctx : Context) (e : Source.Expr) : Prop :=
  ∀ role n value g, Lowers ctx (.expr role e) n [value] g → OnlyNotes g →
    role ≠ some .deleted → Realizes I g.stmts value (meaning P ctx.facts e)

theorem Means.operands {P : I.PureText} {es : List Source.Expr} (h : ∀ e ∈ es, Means P ctx e)
    {earlier values : List Expr} {n : Nat} {g : Growth}
    (hes : Lowers ctx (.operands earlier es) n values g) (hnotes : OnlyNotes g)
    (hlt : ∀ t ∈ tempsAll earlier, t < n) (m : Machine V W) :
    results I g.stmts values m =
      ((evalAll I m.temps earlier m.store).1 ++
          (runAll (meaning P ctx.facts) es (evalAll I m.temps earlier m.store).2).1,
        (runAll (meaning P ctx.facts) es (evalAll I m.temps earlier m.store).2).2) :=
  hes.results_operands I (fun _ _ happend => ⟨happend.left, happend.right⟩)
    (fun e he n value g hl hg => h e he _ n value g hl hg (by simp)) hnotes hlt m

theorem Means.pair {P : I.PureText} {left right : Source.Expr} (hleft : Means P ctx left)
    (hright : Means P ctx right) {a b : Expr} {n : Nat} {g : Growth}
    (h : Lowers ctx (.operands [] [left, right]) n [a, b] g) (hnotes : OnlyNotes g)
    (m : Machine V W) :
    let first := eval I (execAll I g.stmts m).temps a (execAll I g.stmts m).store
    let second := eval I (execAll I g.stmts m).temps b first.2
    first.1 = (meaning P ctx.facts left m.store).1 ∧
      second.1 = (meaning P ctx.facts right (meaning P ctx.facts left m.store).2).1 ∧
      second.2 = (meaning P ctx.facts right (meaning P ctx.facts left m.store).2).2 := by
  have hall : ∀ e ∈ [left, right], Means P ctx e :=
    List.forall_mem_cons.2 ⟨hleft, List.forall_mem_cons.2 ⟨hright, by simp⟩⟩
  exact h.eval_pair I (fun _ _ happend => ⟨happend.left, happend.right⟩)
    (fun e he n value g hl hg => hall e he _ n value g hl hg (by simp)) hnotes m

theorem Means.name (P : I.PureText) {text : String} {span : Span} :
    Means P ctx (.name text span) := by
  intro role n value g hl _ _ m
  cases hl
  rw [meaning, nameValue]
  split
  · rfl
  · rfl

theorem Means.literal (P : I.PureText) {literal : Source.Literal} {span : Span} :
    Means P ctx (.literal literal span) := by
  intro role n value g hl _ _ m
  cases hl
  cases literal <;> rfl

theorem Means.template {P : I.PureText} {head : String} {parts : List (Substitution Source.Expr)}
    {span : Span} (h : ∀ e ∈ parts.map (·.expr), Means P ctx e) :
    Means P ctx (.template head parts span) := by
  intro role n value g hl hnotes _ m
  cases hl with
  | @template _ _ _ _ _ values _ hparts =>
    have hlength : values.length = parts.length := by simpa using hparts.length_values
    have hresults := Means.operands h hparts hnotes (by simp) m
    rw [results] at hresults
    rw [result, eval_templateValue P _ _ _ hlength, hresults, meaning, partMeanings_eq_runAll]
    rfl

theorem operation_native {op : Source.Operator} {span : Span} {binop : Binop}
    (h : operatorKind op span = .ok (.simple (.native binop)))
    (left right : Store V W → V × Store V W) (place : Store V W → Place V × Store V W)
    (s : Store V W) :
    operation I op left place right s =
      I.binary binop (left s).1 (right (left s).2).1 (right (left s).2).2 := by
  cases op with
  | comparison c =>
    cases h
    rw [operation, binary_comparisonOp]
  | calculation c =>
    cases c with
    | arithmetic a =>
      cases h
      rw [operation, binary_arithmeticOp]
    | bitwise b => cases h
  | _ => cases h

theorem Means.native {P : I.PureText} {left right : Source.Expr} {op : Source.Operator}
    {span : Span} {binop : Binop} (hop : operatorKind op span = .ok (.simple (.native binop)))
    (hleft : Means P ctx left) (hright : Means P ctx right) :
    Means P ctx (.binary left op right span) := by
  intro role n value g hl hnotes _ m
  cases hl with
  | logical hop' => rw [hop] at hop'; cases hop'
  | assign hop' => rw [hop] at hop'; cases hop'
  | compound hop' => rw [hop] at hop'; cases hop'
  | simple hop' hpair =>
    rw [hop] at hop'
    cases hop'
    obtain ⟨ha, hb, hstore⟩ := hleft.pair hright hpair hnotes m
    rw [meaning, operation_native hop, result, SimpleForm.build, eval, ha, hb, hstore]

theorem Means.property {P : I.PureText} {object : Source.Expr} {name : String}
    {nameSpan span : Span} (hconst : foldedConstant? ctx span = none) (h : Means P ctx object) :
    Means P ctx (.property object name nameSpan false span) := by
  intro role n value g hl hnotes hrole m
  cases hl with
  | property hobject =>
    obtain ⟨hvalue, hstmts⟩ := propertyRead_of_onlyNotes hconst hnotes.right
    have hresult := h _ _ _ _ hobject hnotes.left (by simp) m
    rw [result] at hresult
    rw [hvalue, memberRead_of_ne hrole, result, Growth.append_stmts, hstmts,
      memberRead_of_ne hrole, Growth.empty_stmts, List.append_nil, eval, eval_toIndexable, hresult,
      meaning]

theorem Means.element {P : I.PureText} {object index : Source.Expr} {span : Span}
    (hobject : Means P ctx object) (hindex : Means P ctx index) :
    Means P ctx (.element object index false span) := by
  intro role n value g hl hnotes hrole m
  cases hl with
  | element hpair =>
    obtain ⟨ha, hb, hstore⟩ := hobject.pair hindex hpair hnotes.left m
    rw [elementRead_of_onlyNotes hnotes.right, memberRead_of_ne hrole, result, Growth.append_stmts,
      Growth.empty_stmts, List.append_nil, eval, eval_toIndexable, ha, hb, hstore, meaning]

theorem Means.call {P : I.PureText} {callee : Source.Expr} {args : List Source.Expr} {span : Span}
    (hexpanded : ∀ expander, callForm ctx.facts callee ≠ .expanded expander)
    (hmethod : ∀ method, callForm ctx.facts callee ≠ .method method)
    (hcallee : Means P ctx callee) (hargs : ∀ e ∈ args, Means P ctx e) :
    Means P ctx (.call callee args span) := by
  intro role n value g hl hnotes _ m
  cases hl with
  | refusedCall => exact absurd hnotes (not_onlyNotes_of_refused Problem.noConfusion)
  | expandedCall hform => exact absurd hform (hexpanded _)
  | methodCall hform => exact absurd hform (hmethod _)
  | @plainCall _ _ _ _ _ pending head values g₁ g₂ _ hfirst hrest =>
    have htidy := hfirst.tidy Tidy.nil_lt
    have hlt : ∀ t ∈ tempsAll [pending], t < n + g₁.temps := fun t ht =>
      htidy.lt_of_mem Tidy.nil_lt (htidy.values_subset ht)
    have hhead := hcallee _ _ _ _ hfirst hnotes.left (by simp) m
    have hresults := Means.operands hargs hrest hnotes.right hlt (execAll I g₁.stmts m)
    rw [result] at hhead
    simp only [results, evalAll_cons, evalAll_nil, hhead, List.cons_append, List.nil_append,
      Prod.mk.injEq, List.cons.injEq] at hresults
    obtain ⟨⟨hvalue, hvalues⟩, hstore⟩ := hresults
    rw [meaning, meanings_eq_runAll, result, Growth.append_stmts, execAll_append, eval,
      eval_toIndexable, hvalue, hvalues, hstore]

-- ════════════════════════════════════════════════════════════════════════
-- Places
-- ════════════════════════════════════════════════════════════════════════

/-- Storing a value changes no name that has this value already. -/
theorem lookup_put (hI : I.Confined) (place : Place V) {x : String} {v : V} {s : Store V W}
    (h : I.lookup x s = v) : I.lookup x (I.put place v s) = v := by
  rw [Interp.lookup] at h ⊢
  by_cases hplace : place = .var x
  · subst hplace
    cases hfixed : I.fixed x with
    | none => simp [Interp.put, Store.bind]
    | some w => rwa [hfixed] at h
  · rwa [vars_put hI hplace]

/-- Statements find a place that an expression stands for, and the expression still stands for it
after the right side has run. -/
def Locates (P : I.PureText) (facts : Facts) (left right : Source.Expr) (stmts : List Stmt)
    (place : Expr) : Prop :=
  ∀ m : Machine V W, (execAll I stmts m).store = (placeMeaning P facts left m.store).2 ∧
    ∀ τ : Nat → V, (∀ t ∈ place.temps, τ t = (execAll I stmts m).temps t) →
      ∀ s, s = (meaning P facts right (execAll I stmts m).store).2 →
        placeOf I τ place s = ((placeMeaning P facts left m.store).1, s)

theorem Means.assign (hI : I.Confined) {P : I.PureText} {left right : Source.Expr} {span : Span}
    (hleft : ∀ n place g, Lowers ctx (.target left) n [place] g → OnlyNotes g →
      Locates P ctx.facts left right g.stmts place)
    (hright : Means P ctx right) : Means P ctx (.binary left .assign right span) := by
  intro role n value g hl hnotes _ m
  cases hl with
  | simple hop => cases hop
  | logical hop => cases hop
  | compound hop => cases hop
  | @assign _ _ _ _ _ _ place pending g₁ g₂ _ htarget hvalue _ =>
    obtain ⟨hstore, hplace⟩ := hleft n place g₁ htarget hnotes.left.left.left m
    -- The right side, and the value that is saved.
    have hresult := hright _ _ _ _ hvalue hnotes.left.left.right (by simp) (execAll I g₁.stmts m)
    obtain ⟨hend, hsaved⟩ := exec_saved I (n + (g₁ ++ g₂).temps) pending
      (execAll I g₂.stmts (execAll I g₁.stmts m))
    rw [result] at hresult
    rw [hresult] at hend hsaved
    -- The target still stands for its place.
    have hkept := fun t ht =>
      (htarget.temps_target_kept hvalue I (execAll I g₁.stmts m) (t := t) ht).2
    have hfound := hplace _ hkept _ hend
    have hnotTemp := htarget.isTemp_target
    rw [meaning, operation, ← hstore]
    simp only [result, Growth.append_stmts, execAll_append, Growth.ofStmts, execAll_cons,
      execAll_nil]
    revert hend hsaved hfound
    generalize execAll I (saved (n + (g₁ ++ g₂).temps) pending).2.stmts
        (execAll I g₂.stmts (execAll I g₁.stmts m)) = last
    intro hend hsaved hfound
    have htemps : (save I ⟨last.temps, last.store⟩ (placeMeaning P ctx.facts left m.store).1
        (meaning P ctx.facts right (execAll I g₁.stmts m).store).1).temps = last.temps := by
      have hsame := save_placeOf_temps I hnotTemp last.temps last.store last
        (meaning P ctx.facts right (execAll I g₁.stmts m).store).1
      rwa [hfound] at hsame
    rw [exec_set hfound, hsaved, ← hend]
    -- The saved value is the same after the store.
    rw [eval_atom_later (saved_isAtom _ _) I (s := last.store) (τ := last.temps)
      (fun t _ => congrFun htemps t), hsaved, store_save]
    intro x hname
    rw [hname, eval, Prod.mk.injEq] at hsaved
    rw [store_save, lookup_put hI _ hsaved.1, hsaved.1]

theorem Locates.name (P : I.PureText) {facts : Facts} {left right : Source.Expr} {text : String}
    {span : Span} (hleft : left.unwrap = .name text span) :
    Locates P facts left right [] (.name text) := by
  intro m
  rw [← placeMeaning_unwrap, hleft, placeMeaning]
  exact ⟨rfl, fun τ _ s _ => rfl⟩

theorem Locates.property (hI : I.Confined) {P : I.PureText} {left object right : Source.Expr}
    {name : String} {nameSpan span : Span} {n : Nat} {value : Expr} {g : Growth}
    (hleft : left.unwrap = .property object name nameSpan false span)
    (hmeans : Means P ctx object) (hnamed : Named ctx object)
    (hkeeps : ∀ x ∈ bareNames ctx.facts object, Keeps x right)
    (h : Lowers ctx (.expr (some .operand) object) n [value] g) (hnotes : OnlyNotes g) :
    Locates P ctx.facts left right (g ++ (saved (n + g.temps) value).2).stmts
      (.property (saved (n + g.temps) value).1.toIndexable name) := by
  intro m
  rw [← placeMeaning_unwrap, hleft, placeMeaning]
  have hresult := hmeans _ _ _ _ h hnotes (by simp) m
  obtain ⟨hstore, hpoints⟩ := points_property I (n + g.temps) value name (execAll I g.stmts m)
  rw [result] at hresult
  rw [hresult] at hstore hpoints
  rw [Growth.append_stmts, execAll_append]
  refine ⟨hstore, fun τ htemps s hs => hpoints.placeOf_eq htemps (unmoved_property.2 ?_)⟩
  intro x hx
  obtain rfl := eq_name_of_saved hx
  have hbare := hnamed _ _ _ _ h hnotes x rfl
  rw [hs, lookup_meaning hI P _ (hkeeps x hbare), hstore, ← hresult]
  rfl

theorem Locates.element (hI : I.Confined) {P : I.PureText} {left object index right : Source.Expr}
    {span : Span} {n : Nat} {a b : Expr} {g : Growth}
    (hleft : left.unwrap = .element object index false span)
    (hobject : Means P ctx object) (hindex : Means P ctx index)
    (hobjectNamed : Named ctx object) (hindexNamed : Named ctx index) (htells : Tells ctx index)
    (hobjectKeeps : ∀ x ∈ bareNames ctx.facts object, Quiet index → Keeps x index ∧ Keeps x right)
    (hindexKeeps : ∀ x ∈ bareNames ctx.facts index, Keeps x right)
    (h : Lowers ctx (.operands [] [object, index]) n [a, b] g) (hnotes : OnlyNotes g) :
    Locates P ctx.facts left right
      (g ++ (saved (n + g.temps) a).2 ++
        (saved (n + (g ++ (saved (n + g.temps) a).2).temps) b).2).stmts
      (.index (saved (n + g.temps) a).1.toIndexable
        (saved (n + (g ++ (saved (n + g.temps) a).2).temps) b).1) := by
  intro m
  rw [← placeMeaning_unwrap, hleft, placeMeaning]
  obtain ⟨ha, hb, hend⟩ := hobject.pair hindex h hnotes m
  have htidy := h.tidy Tidy.nil_lt
  have hlt : ∀ t ∈ tempsAll [a, b], t < n + g.temps := fun t ht =>
    htidy.lt_of_mem Tidy.nil_lt (htidy.values_subset ht)
  obtain ⟨hstore, hpoints⟩ := points_element I (a := a) (b := b)
    (fun t ht => hlt t (by simp [ht])) (fun t ht => hlt t (by simp [ht])) (execAll I g.stmts m)
  rw [hend] at hstore
  rw [ha, hb] at hpoints
  simp only [Growth.append_stmts, Growth.append_temps, ← Nat.add_assoc, execAll_append]
  refine ⟨hstore, fun τ htemps s hs =>
    hpoints.placeOf_eq htemps (unmoved_index.2 ⟨fun x hx => ?_, fun x hx => ?_⟩)⟩
  · -- An object that is a name was read right before the index, which keeps it.
    obtain rfl := eq_name_of_saved hx
    obtain ⟨g₁, g₂, hfirst, hsecond, hnil, rfl⟩ := h.pair_of_name
    have hread := hobject _ _ _ _ hfirst hnotes.left (by simp) m
    have hbare := hobjectNamed _ _ _ _ hfirst hnotes.left x rfl
    have hquiet := (htells _ _ _ _ hsecond hnotes.right (by simp)).1 hnil
    obtain ⟨hkeepIndex, hkeepRight⟩ := hobjectKeeps x hbare hquiet
    rw [hs, lookup_meaning hI P _ hkeepRight, hstore, lookup_meaning hI P _ hkeepIndex, ← hread]
    rfl
  · obtain rfl := eq_name_of_saved hx
    obtain ⟨v, g₁, g₂, moved, -, hsecond, -, rfl⟩ := h.pair_cases
    have hbare := hindexNamed _ _ _ _ hsecond hnotes.right.right x rfl
    rw [hs, lookup_meaning hI P _ (hindexKeeps x hbare), hstore, ← hb, ← hend]
    rfl

-- ════════════════════════════════════════════════════════════════════════
-- Removals and compound assignments
-- ════════════════════════════════════════════════════════════════════════

theorem Means.deleteProperty {P : I.PureText} {operand object : Source.Expr} {name : String}
    {nameSpan accessSpan span : Span}
    (hoperand : operand.unwrap = .property object name nameSpan false accessSpan)
    (hconst : foldedConstant? ctx accessSpan = none) (h : Means P ctx object) :
    Means P ctx (.delete operand span) := by
  intro role n value g hl hnotes _ m
  obtain ⟨v, g', hobject, hnotes', rfl, hstmts⟩ := hl.delete_property hoperand hconst hnotes
  have hresult := h _ _ _ _ hobject hnotes' (by simp) m
  rw [result] at hresult
  have hplace : placeOf I (execAll I g'.stmts m).temps (.property v.toIndexable name)
      (execAll I g'.stmts m).store = placeMeaning P ctx.facts operand m.store := by
    rw [← placeMeaning_unwrap, hoperand, placeMeaning, placeOf, eval_toIndexable, hresult]
  rw [meaning, result, hstmts, execAll_append, execAll_cons, execAll_nil, exec_set hplace]
  simp only [eval, store_save]

theorem Means.deleteElement {P : I.PureText} {operand object index : Source.Expr}
    {accessSpan span : Span}
    (hoperand : operand.unwrap = .element object index false accessSpan)
    (hobject : Means P ctx object) (hindex : Means P ctx index) :
    Means P ctx (.delete operand span) := by
  intro role n value g hl hnotes _ m
  obtain ⟨a, b, g', hpair, hnotes', rfl, hstmts⟩ := hl.delete_element hoperand hnotes
  obtain ⟨ha, hb, hstore⟩ := hobject.pair hindex hpair hnotes' m
  have hplace : placeOf I (execAll I g'.stmts m).temps (.index a.toIndexable b)
      (execAll I g'.stmts m).store = placeMeaning P ctx.facts operand m.store := by
    rw [← placeMeaning_unwrap, hoperand, placeMeaning, placeOf, eval_toIndexable, ha, hb, hstore]
  rw [meaning, result, hstmts, execAll_append, execAll_cons, execAll_nil, exec_set hplace]
  simp only [eval, store_save]

/-- Both forms of a compound assignment to a name read it before the right side. -/
theorem exec_compoundStmt_name (I : Interp V W) (options : Options) (op : Source.Arithmetic)
    (x : String) (value : Expr) (m : Machine V W) :
    exec I (compoundStmt options (.arithmetic op) (.name x) value) m =
      save I ⟨m.temps, (I.arithmetic op (I.lookup x m.store)
          (eval I m.temps value m.store).1 (eval I m.temps value m.store).2).2⟩ (.var x)
        (I.arithmetic op (I.lookup x m.store)
          (eval I m.temps value m.store).1 (eval I m.temps value m.store).2).1 := by
  have hplain : exec I (.assign (.name x) .set
      ((calculationForm (.arithmetic op)).build (.name x) value)) m = _ := exec_set rfl
  rw [← binary_arithmeticOp, compoundStmt]
  split
  · rename_i compound hsome
    have hop : compoundOp? (.arithmetic op) = some compound := by
      split at hsome
      · exact hsome
      · cases hsome
    simp only [exec, placeOf, assigned, binop?_of_compoundOp? hop, load]
  · exact hplain

theorem Means.compoundName {P : I.PureText} {left right : Source.Expr} {text : String}
    {nameSpan span : Span} {op : Source.Arithmetic} (hleft : left.unwrap = .name text nameSpan)
    (hne : text ≠ "undefined") (hfree : text ≠ "tostring") (hquiet : Quiet right)
    (htells : Tells ctx right) (hright : Means P ctx right) :
    Means P ctx (.binary left (.assignWith (.arithmetic op)) right span) := by
  intro role n value g hl hnotes _ m
  cases hl with
  | simple hop => cases hop
  | logical hop => cases hop
  | assign hop => cases hop
  | @compound _ _ _ _ _ _ _ place pending g₁ g₂ hop htarget hvalue _ =>
    cases hop
    cases htarget with
    | targetProperty hother => rw [hleft] at hother; cases hother
    | targetElement hother => rw [hleft] at hother; cases hother
    | targetName hname =>
      rw [hleft] at hname
      cases hname
      have hnil := (htells _ _ _ _ hvalue hnotes.left.right (by simp)).2 hquiet
      have hresult := hright _ _ _ _ hvalue hnotes.left.right (by simp) m
      rw [result, hnil, execAll_nil] at hresult
      have hplace : placeMeaning P ctx.facts left m.store = (.var text, m.store) := by
        rw [← placeMeaning_unwrap, hleft, placeMeaning]
      have hfixed : I.fixed text = none := by rw [P.fixed_eq, if_neg hfree]
      rw [meaning, operation, hplace, nameValue, if_neg hne]
      simp only [result, Growth.append_stmts, Growth.empty_stmts, hnil, Growth.ofStmts,
        List.nil_append, execAll_cons, execAll_nil, exec_compoundStmt_name, hresult, load, eval,
        save, Interp.put]
      simp [Interp.lookup, hfixed, Store.bind]

/-- Lowering keeps the meaning of covered expressions. -/
theorem Covered.means (hI : I.Confined) (P : I.PureText) {e : Source.Expr} (h : Covered ctx e) :
    Means P ctx e := by
  induction h with
  | name => exact .name P
  | literal => exact .literal P
  | template _ ih => exact .template ih
  | @native _ _ _ span hnative _ _ ihleft ihright =>
    obtain ⟨binop, hop⟩ := exists_native hnative span
    exact .native hop ihleft ihright
  | property hconst _ ih => exact .property hconst ih
  | element _ _ ihobject ihindex => exact .element ihobject ihindex
  | call hexpanded hmethod _ _ ihcallee ihargs => exact .call hexpanded hmethod ihcallee ihargs
  | deleteProperty hoperand hconst _ ih => exact .deleteProperty hoperand hconst ih
  | deleteElement hoperand _ _ ihobject ihindex => exact .deleteElement hoperand ihobject ihindex
  | wrap _ ih =>
    intro role n value g hl hnotes hrole m
    cases hl with
    | wrap hinner =>
      rw [meaning]
      exact ih _ _ _ _ hinner hnotes hrole m
  | assignName hleft hne _ ih =>
    refine .assign hI (fun n place g htarget _ => ?_) ih
    cases htarget with
    | targetName hname =>
      rw [hleft] at hname
      cases hname
      rw [nameValue, if_neg hne]
      exact .name P hleft
    | targetProperty hother => rw [hleft] at hother; cases hother
    | targetElement hother => rw [hleft] at hother; cases hother
  | compoundName hleft hne hfree hright hquiet ih =>
    exact .compoundName hleft hne hfree hquiet hright.stmts_eq_nil_iff ih
  | assignProperty hleft hobject _ hkeeps ihobject ihright =>
    refine .assign hI (fun n place g htarget hnotes => ?_) ihright
    cases htarget with
    | targetName hother => rw [hleft] at hother; cases hother
    | targetElement hother => rw [hleft] at hother; cases hother
    | targetProperty hproperty hlowers =>
      rw [hleft] at hproperty
      cases hproperty
      exact .property hI hleft ihobject hobject.named hkeeps hlowers hnotes.left
  | assignElement hleft hobject hindex _ hobjectKeeps hindexKeeps ihobject ihindex ihright =>
    refine .assign hI (fun n place g htarget hnotes => ?_) ihright
    cases htarget with
    | targetName hother => rw [hleft] at hother; cases hother
    | targetProperty hother => rw [hleft] at hother; cases hother
    | targetElement helement hlowers =>
      rw [hleft] at helement
      cases helement
      exact .element hI hleft ihobject ihindex hobject.named hindex.named hindex.stmts_eq_nil_iff
        hobjectKeeps hindexKeeps hlowers hnotes.left.left

-- ════════════════════════════════════════════════════════════════════════
-- Expressions on their own
-- ════════════════════════════════════════════════════════════════════════

/-- A covered expression can be lowered. If nothing is refused, then the emitted statements followed
by the value give the value of the expression and end in the store in which it ends, whatever the
temporaries hold before. -/
theorem lowering_keeps_meaning (ctx : Context) (e : Source.Expr) (h : Covered ctx e) :
    ∃ out, lowerAlone ctx e = .ok out ∧
      ((∀ d ∈ out.diagnostics, d.problem = .prototype) →
        ∀ (V W : Type) (I : Interp V W) (P : I.PureText) (_ : I.Confined) (m : Machine V W),
          result I out.stmts out.value m = meaning P ctx.facts e m.store) := by
  obtain ⟨value, g, hl⟩ := h.exists_lowers (some .operand) 0
  refine ⟨g.output value, lowerAlone_eq_ok_iff.2 ⟨value, g, hl, rfl⟩, ?_⟩
  intro hnotes V W I P hI m
  exact h.means hI P _ _ _ _ hl hnotes (by simp) m

/-- An interpretation over numbers that logs what happens; a call changes the name `a`. -/
def logInterp : Interp Nat (List Nat) where
  nil := 0
  bool b := b.toNat
  number text := text.length
  string text := text.length
  fixed x := if x = "tostring" then some 0 else none
  binary op a b s :=
    match op with
    | .concat => (a + b, s)
    | .sub => (a - b, { s with world := a :: b :: s.world })
    | .lt => ((decide (a < b)).toNat, { s with world := a :: b :: s.world })
    | _ => (a + b, { s with world := a :: b :: s.world })
  read object _ s := (object, { s with world := object :: s.world })
  write object _ v s := { s with world := object :: v :: s.world }
  call f args s :=
    match f, args with
    | 0, [v] => (v, s)
    | f, _ => (f + 1, (s.bind "a" (f + 2)))
  method object _ _ s := (object, s)

def logText : logInterp.PureText where
  tostring := 0
  text v := v
  join a b := a + b
  fixed_eq _ := rfl
  call_tostring _ _ := rfl
  binary_concat _ _ _ := rfl

theorem logInterp_confined : logInterp.Confined where
  binary op _ _ _ := by cases op <;> rfl
  read _ _ _ := rfl
  write _ _ _ _ := rfl

/-- `g().p = a - (a = f(1)) < b`. -/
def nestedWrites : Source.Expr :=
  .binary
    (.property (.call (.name "g" (.point 1 1)) [] (.point 1 2)) "p" (.point 1 4) false (.point 1 3))
    .assign
    (.binary
      (.binary (.name "a" (.point 1 7)) (.calculation (.arithmetic .sub))
        (.binary (.name "a" (.point 1 9)) .assign
          (.call (.name "f" (.point 1 11)) [.literal (.number "1") (.point 1 13)] (.point 1 12))
          (.point 1 10))
        (.point 1 8))
      (.comparison .lt) (.name "b" (.point 1 15)) (.point 1 14))
    (.point 1 6)

/-- The object of the target is saved before the right side runs, and the name `a` before it is
assigned to. -/
theorem nested_writes_keep_meaning :
    Covered ⟨Facts.empty, default⟩ nestedWrites ∧
      ∃ out, lowerAlone ⟨Facts.empty, default⟩ nestedWrites = .ok out ∧ out.diagnostics = [] ∧
        out.stmts = [.declare ⟨0⟩ (.call (.name "g") []), .declare ⟨2⟩ (.name "a"),
          .declare ⟨1⟩ (.call (.name "f") [.number "1"]), .assign (.name "a") .set (.temp ⟨1⟩),
          .declare ⟨3⟩ (.binary (.binary (.temp ⟨2⟩) .sub (.temp ⟨1⟩)) .lt (.name "b")),
          .assign (.property (.temp ⟨0⟩) "p") .set (.temp ⟨3⟩)] ∧
        result logInterp out.stmts out.value ⟨fun _ => 7, ⟨fun _ => 3, []⟩⟩ =
          meaning logText Facts.empty nestedWrites ⟨fun _ => 3, []⟩ := by
  have hcovered : Covered ⟨Facts.empty, default⟩ nestedWrites := by
    refine .assignProperty rfl (.call nofun nofun .name (by simp))
      (.native rfl (.native rfl .name (.assignName rfl (by decide)
        (.call nofun nofun .name (List.forall_mem_singleton.2 .literal)))) .name) ?_
    intro x hx
    cases hx
  obtain ⟨out, hout, hmeans⟩ := lowering_keeps_meaning _ _ hcovered
  cases hout
  exact ⟨hcovered, _, rfl, rfl, rfl,
    hmeans (fun d hd => absurd hd List.not_mem_nil) _ _ logInterp logText logInterp_confined _⟩

end ExprLowering.Lowering
