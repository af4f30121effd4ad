import ExprLowering.Proofs.Coverage
import ExprLowering.Proofs.Traces

/-!
# How much is done before a value is used

The statements of a lowering have some of the calls and writes of an expression, and the value that
is still pending has the others. How many there are on either side can be read off the source
expression: what is pending is done as soon as a later operand needs statements, and what an access
drops is not done at all.

## Main definitions

* `isRefused`, `isFolded`: the accesses that drop the value of their object.
* `Effort`: how much is done early, and how much is left.
* `effort`: the effort of a source expression, from those of its parts.
* `Measures`, `Sequenced`: what efforts say about lowered code.

## Main results

* `Measures.before`: one operand before others.
* `measured_of_no_expanders`: a lowering does what the effort of the expression says.
-/

namespace ExprLowering.Lowering

open Source (Substitution)
open Target

-- ════════════════════════════════════════════════════════════════════════
-- Refused and folded accesses
-- ════════════════════════════════════════════════════════════════════════

/-- Whether a member access is refused, so that a placeholder takes its place. -/
def isRefused (facts : Facts) (role : Option Role) : Source.Expr → Bool
  | .property object _ _ _ span =>
    (facts.typeOf object).isAny || (facts.expanderAt? span).isSome ||
      facts.isMethodAt span && role != some .callee
  | .element object _ _ _ => (facts.typeOf object).isAny
  | _ => false

/-- Whether a constant takes the place of a member access when constants are folded. -/
def isFolded (facts : Facts) (role : Option Role) : Source.Expr → Bool
  | .property object name nameSpan optional span =>
    !isRefused facts role (.property object name nameSpan optional span) &&
      (facts.constantAt? span).isSome
  | _ => false

/-- Lowering with constants folded. -/
abbrev folding (facts : Facts) (keep : Bool) : Context := ⟨facts, ⟨true, keep⟩⟩

/-- Lowering with no constant folded. -/
abbrev unfolding (facts : Facts) (keep : Bool) : Context := ⟨facts, ⟨false, keep⟩⟩

section

variable {facts : Facts} {role : Option Role} {object index : Source.Expr} {name : String}
  {nameSpan span : Span} {optional : Bool}

/-- A refused access yields the placeholder, whatever its role and the options. -/
theorem propertyRead_refused
    (h : isRefused facts role (.property object name nameSpan optional span) = true)
    (options : Options) (value : Expr) :
    (propertyRead ⟨facts, options⟩ role object name nameSpan span value).1 = .placeholder ∧
      (propertyRead ⟨facts, options⟩ role object name nameSpan span value).2.stmts = [] ∧
      ∀ options', propertyRead ⟨facts, options⟩ role object name nameSpan span value =
        propertyRead ⟨facts, options'⟩ (some .operand) object name nameSpan span value := by
  rw [isRefused] at h
  simp only [propertyRead]
  by_cases hany : (facts.typeOf object).isAny = true
  · simp [hany, Growth.ofDiagnostic]
  by_cases hexpander : (facts.expanderAt? span).isSome = true
  · simp [hany, hexpander, Growth.ofDiagnostic]
  have hmethod : facts.isMethodAt span = true ∧ role ≠ some .callee := by
    simpa [hany, hexpander] using h
  simp [hany, hexpander, hmethod, Growth.ofDiagnostic]

theorem propertyRead_not_refused
    (h : isRefused facts role (.property object name nameSpan optional span) = false)
    (options : Options) (value : Expr) :
    propertyRead ⟨facts, options⟩ role object name nameSpan span value =
      ((constantOrMember ⟨facts, options⟩ role span (.property value.toIndexable name)).1,
        nameNote name nameSpan ++
          (constantOrMember ⟨facts, options⟩ role span (.property value.toIndexable name)).2) := by
  rw [isRefused, Bool.or_eq_false_iff, Bool.or_eq_false_iff] at h
  obtain ⟨⟨hany, hexpander⟩, hmethod⟩ := h
  rw [propertyRead, hany, hexpander, hmethod]
  rfl

theorem elementRead_refused
    (h : isRefused facts role (.element object index optional span) = true) (options : Options)
    (role' : Option Role) (a b : Expr) :
    elementRead ⟨facts, options⟩ role' object a b =
      (.placeholder, .ofDiagnostic .anyValue object.span) := by
  rw [isRefused] at h
  rw [elementRead, h]
  rfl

theorem elementRead_not_refused
    (h : isRefused facts role (.element object index optional span) = false) (options : Options)
    (a b : Expr) :
    elementRead ⟨facts, options⟩ role object a b = memberRead role (.index a.toIndexable b) := by
  rw [isRefused] at h
  rw [elementRead, h]
  rfl

/-- Where nothing is folded, the option makes no difference. -/
theorem propertyRead_not_folded
    (h : isFolded facts role (.property object name nameSpan optional span) = false)
    (keep : Bool) (value : Expr) :
    propertyRead (folding facts keep) role object name nameSpan span value =
      propertyRead (unfolding facts keep) role object name nameSpan span value := by
  cases hrefused : isRefused facts role (.property object name nameSpan optional span) with
  | true =>
    rw [(propertyRead_refused hrefused ⟨true, keep⟩ value).2.2 ⟨false, keep⟩,
      ← (propertyRead_refused hrefused ⟨false, keep⟩ value).2.2]
  | false =>
    rw [isFolded, hrefused] at h
    have hnone : facts.constantAt? span = none := by simpa using h
    rw [propertyRead_not_refused hrefused, propertyRead_not_refused hrefused]
    simp [constantOrMember, foldedConstant?, hnone]

/-- Where an access is folded, its constant is all that is left of it. -/
theorem propertyRead_folded
    (h : isFolded facts role (.property object name nameSpan optional span) = true)
    (keep : Bool) (value : Expr) :
    (propertyRead (folding facts keep) role object name nameSpan span value).1.isAtom = true ∧
      (propertyRead (folding facts keep) role object name nameSpan span value).2.stmts = [] := by
  rw [isFolded, Bool.and_eq_true, Bool.not_eq_true'] at h
  obtain ⟨hrefused, hsome⟩ := h
  obtain ⟨constant, hconstant⟩ := Option.isSome_iff_exists.1 hsome
  rw [propertyRead_not_refused hrefused]
  simp only [constantOrMember, foldedConstant?, hconstant, if_true, Growth.append_empty]
  refine ⟨?_, nameNote_stmts name nameSpan⟩
  cases constant <;> rfl

/-- Without folding, an access that is not refused is read or removed. -/
theorem propertyRead_unfolding
    (h : isRefused facts role (.property object name nameSpan optional span) = false)
    (keep : Bool) (value : Expr) :
    (propertyRead (unfolding facts keep) role object name nameSpan span value).1 =
        (memberRead role (.property value.toIndexable name)).1 ∧
      (propertyRead (unfolding facts keep) role object name nameSpan span value).2.stmts =
        (memberRead role (.property value.toIndexable name)).2.stmts := by
  rw [propertyRead_not_refused h]
  simp [constantOrMember, foldedConstant?, nameNote_stmts]

end

-- ════════════════════════════════════════════════════════════════════════
-- Efforts
-- ════════════════════════════════════════════════════════════════════════

/-- How many calls and writes of an expression are done by its statements, and how many are left to
its value. -/
structure Effort where
  /-- Whether there are statements. -/
  emits : Bool
  /-- Whether the value is an atom. -/
  atom : Bool
  /-- The number of calls and writes in the statements. -/
  early : Nat
  /-- The number of calls in the value. -/
  late : Nat
deriving DecidableEq, Repr

namespace Effort

/-- Nothing is done for an atom. -/
def idle : Effort := ⟨false, true, 0, 0⟩

/-- The number of all calls and writes. -/
def total (w : Effort) : Nat := w.early + w.late

/-- An operand before others. If these have statements, what is left in its value is done before
them. -/
def before (w rest : Effort) : Effort where
  emits := w.emits || rest.emits
  atom := false
  early := w.early + rest.early + if rest.emits then w.late else 0
  late := rest.late + if rest.emits then 0 else w.late

/-- Operands, one after the other. -/
def inOrder (ws : List Effort) : Effort := ws.foldr before idle

/-- Calls are made when the value is used. -/
def calling (w : Effort) (calls : Nat) : Effort := { w with atom := false, late := w.late + calls }

/-- The value is saved, unless it is an atom. -/
def held (w : Effort) : Effort := if w.atom then w else ⟨true, true, w.total, 0⟩

/-- An atom takes the place of the value. -/
def dropped (w : Effort) : Effort := { w with atom := true, late := 0 }

/-- A member of the value is read, or removed if the access is deleted. -/
def member (w : Effort) (role : Option Role) : Effort :=
  if role = some .deleted then ⟨true, true, w.total + 1, 0⟩ else { w with atom := false }

theorem total_before (w rest : Effort) : (w.before rest).total = w.total + rest.total := by
  cases h : rest.emits with
  | true =>
    simp only [before, total, h, if_true]
    omega
  | false =>
    simp only [before, total, h, Bool.false_eq_true, if_false]
    omega

theorem total_inOrder_append (ws us : List Effort) :
    (inOrder (ws ++ us)).total = (inOrder ws).total + (inOrder us).total := by
  induction ws with
  | nil => exact (Nat.zero_add _).symm
  | cons w ws ih =>
    show (w.before (inOrder (ws ++ us))).total = (w.before (inOrder ws)).total + _
    rw [total_before, total_before, ih, Nat.add_assoc]

@[simp] theorem total_inOrder_singleton (w : Effort) : (inOrder [w]).total = w.total :=
  total_before w idle

end Effort

/-- Whether a template is an atom, given which of its substitutions are: it is a text, or nothing
but a string that is an atom. -/
def isAtomicTemplate (facts : Facts) (head : String) :
    List (Substitution Source.Expr) → List Bool → Bool
  | [], _ => true
  | [part], [atom] =>
    head.isEmpty && part.text.isEmpty && (facts.typeOf part.expr).isString && atom
  | _, _ => false

/-- Whether an expression is a name, whatever its wrappers. -/
def isName (e : Source.Expr) : Bool :=
  match e.unwrap with
  | .name .. => true
  | _ => false

/-- The effort of an expression in its role, given those of its parts. An assignment is done as a
whole before its value is used. -/
def effortOf (facts : Facts) (fold : Bool) (role : Option Role) :
    Source.Expr → List Effort → Effort
  | .template head parts _, ws =>
    { Effort.inOrder ws with
      atom := isAtomicTemplate facts head parts (ws.map (·.atom))
      late := (Effort.inOrder ws).late + (parts.flatMap (conversion facts)).length }
  | .binary left op _ _, ws =>
    if op.isAssignment then
      ⟨true, decide (op = .assign) || isName left,
        (Effort.inOrder ws).total + (operatorEffects op).length + 1, 0⟩
    else (Effort.inOrder ws).calling (operatorEffects op).length
  | .property object name nameSpan optional span, [w] =>
    let access := .property object name nameSpan optional span
    let receiver := if optional then w.held else w
    if isRefused facts role access || fold && isFolded facts role access then receiver.dropped
    else receiver.member role
  | .element object index optional span, ws =>
    if isRefused facts role (.element object index optional span) then (Effort.inOrder ws).dropped
    else (Effort.inOrder ws).member role
  | .call .., w :: ws => (Effort.inOrder (w :: ws)).calling 1
  | .delete .., [w] | .wrap .., [w] => w
  | _, _ => .idle

/-- The effort of an expression in its role, with or without folding of constants. -/
def effort (facts : Facts) (fold : Bool) (role : Option Role) (e : Source.Expr) : Effort :=
  effortOf facts fold role e ((parts facts role e).attach.map fun p =>
    have := sizeOf_lt_of_mem_parts p.2
    effort facts fold p.1.1 p.1.2)
termination_by sizeOf e

/-- The efforts of parts. -/
def efforts (facts : Facts) (fold : Bool) (ps : List Visit) : List Effort :=
  ps.map fun p => effort facts fold p.1 p.2

theorem effort_eq (facts : Facts) (fold : Bool) (role : Option Role) (e : Source.Expr) :
    effort facts fold role e =
      effortOf facts fold role e (efforts facts fold (parts facts role e)) := by
  have hmap := List.map_map (f := Subtype.val) (g := fun p : Visit => effort facts fold p.1 p.2)
    (l := (parts facts role e).attach)
  rw [List.attach_map_subtype_val] at hmap
  rw [effort, efforts, hmap]
  rfl

-- ════════════════════════════════════════════════════════════════════════
-- Efforts of lowered code
-- ════════════════════════════════════════════════════════════════════════

/-- An effort says what is in the statements of a lowering and in its value. -/
structure Measures (w : Effort) (v : Expr) (g : Growth) : Prop where
  emits : w.emits = true ↔ g.stmts ≠ []
  atom : w.atom = v.isAtom
  early : g.trace.length = w.early
  late : (trace v).length = w.late

/-- The same for operands after earlier ones. What is pending of these is done as soon as there are
statements. -/
structure Sequenced (w : Effort) (earlier values : List Expr) (g : Growth) : Prop where
  emits : w.emits = true ↔ g.stmts ≠ []
  early : g.trace.length = w.early + if w.emits then (traceAll earlier).length else 0
  late : (traceAll values).length = w.late + if w.emits then 0 else (traceAll earlier).length

section

variable {w rest : Effort} {v : Expr} {g g' : Growth} {earlier values : List Expr} {n : Nat}

theorem Measures.of_idle (hatom : v.isAtom = true) (hg : g.stmts = []) : Measures .idle v g where
  emits := by simp [Effort.idle, hg]
  atom := hatom.symm
  early := by rw [Growth.trace_of_stmts hg]; rfl
  late := by rw [trace_atom hatom]; rfl

/-- Only the statements matter. -/
theorem Measures.congr (h : Measures w v g) (hg : g'.stmts = g.stmts) : Measures w v g' where
  emits := by rw [hg]; exact h.emits
  atom := h.atom
  early := by rw [Growth.trace_congr hg]; exact h.early
  late := h.late

theorem Measures.stmts_eq_nil (h : Measures w v g) (hemits : w.emits = false) : g.stmts = [] := by
  simpa [hemits] using h.emits

theorem Sequenced.nil (earlier : List Expr) : Sequenced .idle earlier earlier ∅ where
  emits := by simp [Effort.idle]
  early := rfl
  late := (Nat.zero_add _).symm

/-- One operand before others, after earlier ones. -/
theorem Measures.before (h : Measures w v g)
    (hrest : Sequenced rest ((displaced n earlier g.stmts).1 ++ [v]) values g') :
    Sequenced (w.before rest) earlier values ((displaced n earlier g.stmts).2 ++ g ++ g') := by
  have hsaved : (displaced n earlier g.stmts).2.trace.length =
      if w.emits then (traceAll earlier).length else 0 := by
    cases hemits : w.emits with
    | true => exact congrArg _ (trace_displaced_of_ne_nil (h.emits.1 hemits) n earlier)
    | false => rw [h.stmts_eq_nil hemits]; rfl
  -- What is not saved of the earlier values is still pending after the operand.
  have hmoved := congrArg List.length (trace_displaced n earlier g v)
  have hstmts := hrest.early
  have hvalues := hrest.late
  simp only [traceAll_append, traceAll_cons, traceAll_nil, List.append_nil, List.length_append,
    h.late, hsaved] at hmoved hstmts hvalues
  refine ⟨?_, ?_, ?_⟩
  · cases hemits : w.emits with
    | true => simp [Effort.before, hemits, h.emits.1 hemits]
    | false => simp [Effort.before, hemits, h.stmts_eq_nil hemits, hrest.emits]
  · simp only [Effort.before, Growth.trace_append, List.length_append, hsaved, h.early, hstmts]
    grind
  · simp only [Effort.before, hvalues]
    grind

theorem Measures.first (h : Measures w v g) (hrest : Sequenced rest [v] values g') :
    Sequenced (w.before rest) [] values (g ++ g') := by
  have hmoved : displaced 0 [] g.stmts = ([], ∅) := displaced_empty 0 g.stmts
  have hall : Sequenced (w.before rest) [] values ((displaced 0 [] g.stmts).2 ++ g ++ g') :=
    h.before (by rw [hmoved]; exact hrest)
  rwa [hmoved, Growth.empty_append] at hall

/-- What calls are made of operands alone. -/
theorem Sequenced.calling (h : Sequenced w [] values g) {calls : Nat} (hatom : v.isAtom = false)
    (hv : (trace v).length = (traceAll values).length + calls) :
    Measures (w.calling calls) v g where
  emits := h.emits
  atom := hatom.symm
  early := by simpa [Effort.calling] using h.early
  late := by
    have hvalues := h.late
    simp only [traceAll_nil, List.length_nil, ite_self, Nat.add_zero] at hvalues
    rw [hv, hvalues]
    rfl

theorem Sequenced.total (h : Sequenced w [] values g) :
    g.trace.length + (traceAll values).length = w.total := by
  simpa [Effort.total] using congrArg₂ (· + ·) h.early h.late

theorem Measures.total (h : Measures w v g) : g.trace.length + (trace v).length = w.total :=
  congrArg₂ (· + ·) h.early h.late

/-- A value that is saved unless it is an atom. -/
theorem Measures.held (h : Measures w v g) (n : Nat) :
    Measures w.held (saved n v).1 (g ++ (saved n v).2) := by
  have hatom := h.atom
  rw [Effort.held]
  cases hv : v.isAtom with
  | true =>
    rw [hv] at hatom
    rw [if_pos hatom, saved_atom hv, Growth.append_empty]
    exact h
  | false =>
    rw [hv] at hatom
    rw [if_neg (by simp [hatom])]
    refine ⟨?_, (saved_isAtom n v).symm, ?_, ?_⟩
    · simp [saved_complex hv, Growth.declaring]
    · rw [Growth.trace_append, trace_saved, List.length_append, h.total]
    · rw [trace_saved_value]
      rfl

theorem Measures.received {optional : Bool} {v' : Expr} (h : Measures w v g)
    (hreceived : Received v g optional v' g') :
    Measures (if optional then w.held else w) v' g' := by
  cases hreceived with
  | asIs => exact h
  | inTemp m => exact h.held m

theorem Measures.dropped {v' : Expr} (h : Measures w v g) (hatom : v'.isAtom = true)
    (hg : g'.stmts = g.stmts) : Measures w.dropped v' g' where
  emits := by rw [hg]; exact h.emits
  atom := hatom.symm
  early := by rw [Growth.trace_congr hg]; exact h.early
  late := by rw [trace_atom hatom]; rfl

/-- A member that is read, or removed. -/
theorem Measures.member {member : Expr} (h : Measures w v g) (role : Option Role)
    (hatom : member.isAtom = false) (htrace : trace member = trace v) :
    Measures (w.member role) (memberRead role member).1 (g ++ (memberRead role member).2) := by
  rw [Effort.member]
  split
  · next hrole =>
    simp only [memberRead, if_pos hrole]
    refine ⟨by simp [Growth.ofStmts], rfl, ?_, rfl⟩
    rw [Growth.trace_append, List.length_append, ← h.total, Nat.add_assoc]
    simp [stmtTrace, trace, htrace]
  · next hrole =>
    rw [memberRead_of_ne hrole, Growth.append_empty]
    exact ⟨h.emits, hatom.symm, h.early, htrace ▸ h.late⟩

end

-- ════════════════════════════════════════════════════════════════════════
-- Templates
-- ════════════════════════════════════════════════════════════════════════

/-- Whether a chain of segments is an atom depends on its only segment. -/
theorem isAtom_concatenation {segments : List Expr} :
    (concatenation segments).isAtom = true ↔
      segments = [] ∨ ∃ segment, segments = [segment] ∧ segment.isAtom = true := by
  have hchain (first : Expr) (rest : List Expr) (hrest : rest ≠ []) :
      (rest.foldl (fun chain segment => .binary chain .concat segment) first).isAtom = false := by
    induction rest generalizing first with
    | nil => exact absurd rfl hrest
    | cons segment rest ih =>
      cases rest with
      | nil => rfl
      | cons next rest => exact ih _ (List.cons_ne_nil _ _)
  cases segments with
  | nil => exact ⟨fun _ => .inl rfl, fun _ => rfl⟩
  | cons first rest =>
    cases rest with
    | nil => simp [concatenation]
    | cons second rest =>
      have hnot := hchain first (second :: rest) (List.cons_ne_nil _ _)
      simpa [concatenation] using hnot

/-- Whether the value of a template is an atom depends on its only substitution. -/
theorem isAtom_templateValue (facts : Facts) (head : String)
    {parts : List (Substitution Source.Expr)} {values : List Expr}
    (h : values.length = parts.length) :
    (templateValue facts head parts values).isAtom =
      isAtomicTemplate facts head parts (values.map Expr.isAtom) := by
  rw [Bool.eq_iff_iff, templateValue, isAtom_concatenation]
  cases parts with
  | nil =>
    obtain rfl := List.length_eq_zero_iff.1 h
    refine iff_of_true ?_ rfl
    rw [textSegment]
    split
    · exact .inl rfl
    · exact .inr ⟨_, rfl, rfl⟩
  | cons part parts =>
    obtain ⟨value, values, rfl⟩ := List.exists_cons_of_length_eq_add_one h
    cases parts with
    | nil =>
      obtain rfl := List.length_eq_zero_iff.1 (Nat.succ.inj h)
      rw [List.map_singleton, isAtomicTemplate, partSegments, valueSegment, textSegment,
        textSegment]
      cases head.isEmpty <;> cases part.text.isEmpty <;>
        cases (facts.typeOf part.expr).isString <;> simp [partSegments, Expr.isAtom]
    | cons next parts =>
      -- Two parts give a chain of at least two segments.
      obtain ⟨value', values, rfl⟩ := List.exists_cons_of_length_eq_add_one (Nat.succ.inj h)
      simp [isAtomicTemplate, partSegments, List.append_eq_singleton_iff]

/-- Only for a single substitution it matters whether it is an atom. -/
theorem isAtomicTemplate_imp {facts : Facts} {head : String}
    {parts : List (Substitution Source.Expr)} {atoms atoms' : List Bool}
    (h : ∀ part, parts = [part] → atoms = [true] → atoms' = [true])
    (hatom : isAtomicTemplate facts head parts atoms = true) :
    isAtomicTemplate facts head parts atoms' = true := by
  rw [isAtomicTemplate.eq_def] at hatom
  split at hatom
  · rfl
  · next part atom =>
    have htrue : atom = true := (Bool.and_eq_true_iff.1 hatom).2
    rw [h part rfl (congrArg ([·]) htrue)]
    exact htrue ▸ hatom
  · cases hatom

-- ════════════════════════════════════════════════════════════════════════
-- Expressions
-- ════════════════════════════════════════════════════════════════════════

/-- Every lowering of an expression in a role does what its effort says. -/
def Measured (facts : Facts) (options : Options) (role : Option Role) (e : Source.Expr) : Prop :=
  ∀ ⦃n : Nat⦄ ⦃v : Expr⦄ ⦃g : Growth⦄, Lowers ⟨facts, options⟩ (.expr role e) n [v] g →
    Measures (effort facts options.foldConstants role e) v g

section

variable {facts : Facts} {options : Options} {role : Option Role}

/-- Operands after earlier ones, one operand at a time. -/
theorem Lowers.operands_sequenced {es : List Source.Expr}
    (hes : ∀ e ∈ es, Measured facts options (some .operand) e) {earlier values : List Expr}
    {n : Nat} {g : Growth} (h : Lowers ⟨facts, options⟩ (.operands earlier es) n values g) :
    Sequenced (.inOrder (efforts facts options.foldConstants (asOperands es))) earlier values
      g := by
  induction es generalizing earlier n g with
  | nil =>
    cases h
    exact .nil _
  | cons e es ih =>
    cases h with
    | operand hhead htail =>
      have hrest := ih (fun d hd => hes d (List.mem_cons_of_mem e hd)) htail
      exact (hes e List.mem_cons_self hhead).before hrest

theorem measured_operands {es : List Source.Expr}
    (h : ∀ p ∈ asOperands es, Measured facts options p.1 p.2) :
    ∀ e ∈ es, Measured facts options (some .operand) e :=
  fun e he => h (some .operand, e) (List.mem_map_of_mem he)

theorem measured_template {head : String} {parts : List (Substitution Source.Expr)} {span : Span}
    (hes : ∀ e ∈ parts.map (·.expr), Measured facts options (some .operand) e) :
    Measured facts options role (.template head parts span) := by
  intro n v g h
  rw [effort_eq, Lowering.parts, effortOf]
  cases h with
  | @template _ _ _ _ _ values _ hparts =>
    have hlength : values.length = parts.length := by simpa using hparts.length_values
    have hall := hparts.operands_sequenced hes
    have hlate := hall.late
    obtain ⟨hperm, -⟩ := trace_templateValue facts head hlength
    refine ⟨hall.emits, ?_, by simpa using hall.early, ?_⟩
    · have hone : ∀ part, parts = [part] → values.map Expr.isAtom =
          (efforts facts options.foldConstants (asOperands (parts.map (·.expr)))).map (·.atom) := by
        rintro part rfl
        obtain ⟨value, rfl, hlow⟩ := hparts.single
        exact congrArg ([·]) (hes part.expr List.mem_cons_self hlow).atom.symm
      rw [isAtom_templateValue facts head hlength, Bool.eq_iff_iff]
      exact ⟨isAtomicTemplate_imp fun part hpart => (hone part hpart).trans,
        isAtomicTemplate_imp fun part hpart => (hone part hpart).symm.trans⟩
    · rw [hperm.length_eq, List.length_append]
      simpa using hlate

theorem measured_operator {left right : Source.Expr} {op : Source.Operator} {span : Span}
    (hop : op.isAssignment = false)
    (hboth : ∀ d ∈ [left, right], Measured facts options (some .operand) d) :
    Measured facts options role (.binary left op right span) := by
  intro n v g h
  obtain ⟨a, b, g₀, hlow, hg, hatom, hv⟩ := h.operator_parts hop
  rw [effort_eq, parts_simple facts role hop, effortOf, if_neg (by simp [hop])]
  refine ((hlow.operands_sequenced hboth).calling hatom ?_).congr hg
  simp [hv, Nat.add_assoc]

/-- All that the parts of a target do is done when it is written to. -/
theorem measured_target {left : Source.Expr} {n : Nat} {v : Expr} {g : Growth}
    (hparts : ∀ p ∈ memberParts left, Measured facts options p.1 p.2)
    (h : Lowers ⟨facts, options⟩ (.target left) n [v] g) :
    g.trace.length =
      (Effort.inOrder (efforts facts options.foldConstants (memberParts left))).total := by
  have htarget := h.target_parts
  rw [memberParts] at hparts ⊢
  cases hunwrap : left.unwrap with
  | property object name nameSpan optional span =>
    rw [hunwrap] at htarget hparts
    obtain ⟨value, g₀, hlow, htrace⟩ := htarget
    rw [htrace, List.length_append, (hparts _ List.mem_cons_self hlow).total]
    exact (Effort.total_inOrder_singleton _).symm
  | element object index optional span =>
    rw [hunwrap] at htarget hparts
    obtain ⟨a, b, g₀, hlow, htrace⟩ := htarget
    rw [htrace, List.length_append]
    exact (hlow.operands_sequenced (measured_operands hparts)).total
  | name | literal | template | binary | call | delete | wrap =>
    rw [hunwrap] at htarget
    rw [htarget]
    rfl

theorem measured_assignment {left right : Source.Expr} {op : Source.Operator} {span : Span}
    (hop : op.isAssignment = true)
    (hleft : ∀ p ∈ memberParts left, Measured facts options p.1 p.2)
    (hright : Measured facts options (some .operand) right) :
    Measured facts options role (.binary left op right span) := by
  intro n v g h
  obtain ⟨place, value, g₁, g₂, m, htarget, hvalue, hdone, hstmts, hatom, htrace⟩ :=
    h.assignment_parts hop
  rw [effort_eq, parts_assignment facts role hop, effortOf, if_pos hop]
  refine ⟨by simpa using hstmts, ?_, ?_, by rw [hdone]; rfl⟩
  · have hname : isName left = true ↔ ∃ text span, left.unwrap = .name text span := by
      rw [isName]
      cases left.unwrap <;> simp
    rw [Bool.eq_iff_iff, hatom, Bool.or_eq_true, decide_eq_true_iff, hname]
  · have hsides := congrArg₂ (· + ·) (measured_target hleft htarget) (hright hvalue).total
    simp only [htrace, List.length_append, List.length_singleton, hsides, efforts, List.map_append,
      Effort.total_inOrder_append]
    rw [asOperands, List.map_singleton, List.map_singleton, Effort.total_inOrder_singleton]
    rfl

theorem measured_property {object : Source.Expr} {name : String} {nameSpan span : Span}
    {optional : Bool} (hobject : Measured facts options (some .operand) object) :
    Measured facts options role (.property object name nameSpan optional span) := by
  intro n v g h
  obtain ⟨fold, keep⟩ := options
  obtain ⟨value, g₀, receiver, g₁, hlow, hreceived, rfl, hg⟩ := h.property_parts
  have hreceiver := (hobject hlow).received hreceived
  rw [effort_eq]
  show Measures (if _ then _ else _) _ _
  cases hrefused : isRefused facts role (.property object name nameSpan optional span) with
  | true =>
    obtain ⟨hv, hstmts, -⟩ := propertyRead_refused hrefused ⟨fold, keep⟩ receiver
    rw [hstmts, List.append_nil] at hg
    rw [hv]
    exact hreceiver.dropped rfl hg
  | false =>
    cases hfolded : fold && isFolded facts role (.property object name nameSpan optional span) with
    | true =>
      obtain ⟨rfl, hfolded⟩ := Bool.and_eq_true_iff.1 hfolded
      obtain ⟨hatom, hstmts⟩ := propertyRead_folded hfolded keep receiver
      rw [hstmts, List.append_nil] at hg
      exact hreceiver.dropped hatom hg
    | false =>
      have hsame : propertyRead ⟨facts, fold, keep⟩ role object name nameSpan span receiver =
          propertyRead (unfolding facts keep) role object name nameSpan span receiver := by
        cases fold with
        | true => exact propertyRead_not_folded hfolded keep receiver
        | false => rfl
      obtain ⟨hv, hstmts⟩ := propertyRead_unfolding hrefused keep receiver
      rw [hsame, hstmts] at hg
      rw [hsame, hv]
      have hmember : Measures _ (memberRead role (.property receiver.toIndexable name)).1 _ :=
        hreceiver.member role rfl (trace_toIndexable _)
      exact hmember.congr hg

theorem measured_element {object index : Source.Expr} {span : Span} {optional : Bool}
    (hboth : ∀ d ∈ [object, index], Measured facts options (some .operand) d) :
    Measured facts options role (.element object index optional span) := by
  intro n v g h
  obtain ⟨a, b, g₀, hlow, rfl, hg⟩ := h.element_parts
  have hmember : Measures ((Effort.inOrder (efforts facts options.foldConstants
      (asOperands [object, index]))).calling 0) (.index a.toIndexable b) g₀ :=
    (hlow.operands_sequenced hboth).calling rfl (by simp [trace])
  rw [effort_eq, effortOf]
  cases hrefused : isRefused facts role (.element object index optional span) with
  | true =>
    rw [elementRead_refused hrefused] at hg ⊢
    exact hmember.dropped rfl (hg.trans (List.append_nil _))
  | false =>
    rw [elementRead_not_refused hrefused] at hg ⊢
    exact (hmember.member role rfl rfl).congr hg

theorem measured_call {callee : Source.Expr} {args : List Source.Expr} {span : Span}
    (hexpanders : facts.expanders.isEmpty = true)
    (hparts : ∀ p ∈ parts facts role (.call callee args span), Measured facts options p.1 p.2) :
    Measured facts options role (.call callee args span) := by
  intro n v g h
  rw [effort_eq]
  rcases h.call_parts hexpanders with ⟨hnone, rfl, hg⟩ |
    ⟨receiver, value, head, values, g₁, g₂, m, hcons, hlow, hargs, hg, hatom, hv⟩
  · rw [hnone]
    exact .of_idle rfl hg
  · rw [hcons] at hparts ⊢
    obtain ⟨hreceiver, hes⟩ := List.forall_mem_cons.1 hparts
    have hrest := hargs.operands_sequenced (measured_operands hes)
    refine (((hreceiver hlow).first hrest).calling hatom ?_).congr hg
    rw [hv, List.length_append]
    rfl

end

/-- A lowering does what the effort of the expression says, by induction along its parts. -/
theorem measured_of_no_expanders {facts : Facts} (hexpanders : facts.expanders.isEmpty = true)
    (options : Options) (role : Option Role) (e : Source.Expr) :
    Measured facts options role e := by
  refine parts_induction facts (fun role e ih => ?_) role e
  cases e with
  | name text span =>
    intro n v g h
    rw [effort_eq]
    cases h
    exact .of_idle (isAtom_nameValue text) rfl
  | literal value span =>
    intro n v g h
    rw [effort_eq]
    cases h
    exact .of_idle (isAtom_literalValue value) rfl
  | template head parts span => exact measured_template (measured_operands ih)
  | binary left op right span =>
    cases hop : op.isAssignment with
    | true =>
      rw [parts_assignment facts role hop] at ih
      obtain ⟨hleft, hright⟩ := List.forall_mem_append.1 ih
      exact measured_assignment hop hleft (hright _ List.mem_cons_self)
    | false =>
      rw [parts_simple facts role hop] at ih
      exact measured_operator hop (measured_operands ih)
  | property object name nameSpan optional span =>
    exact measured_property (ih _ List.mem_cons_self)
  | element object index optional span => exact measured_element (measured_operands ih)
  | call callee args span => exact measured_call hexpanders ih
  | delete operand span =>
    intro n v g h
    rw [effort_eq]
    cases h with
    | delete _ hlow => exact ih _ List.mem_cons_self hlow
  | wrap wrapper inner span =>
    intro n v g h
    rw [effort_eq]
    cases h with
    | wrap hlow => exact ih _ List.mem_cons_self hlow

-- In `(h() + y.c?.d).z`, where the sum is of type `any` and `c` is a constant, the last access
-- drops the sum. Without folding `y.c` is saved, and the result of the call before it; with folding
-- there is nothing to save, and the call is dropped.
example :
    let facts := (Facts.empty.withConstant (.point 1 5) (.text "k")).withType (.point 1 9)
      (.ofTags .any)
    let chain : Source.Expr := .property (.property (.name "y" (.point 1 4)) "c" (.point 1 6) false
      (.point 1 5)) "d" (.point 1 8) true (.point 1 7)
    let e : Source.Expr := .property (.binary (.call (.name "h" (.point 1 2)) [] (.point 1 3))
      (.calculation (.arithmetic .add)) chain (.point 1 9)) "z" (.point 1 10) false (.point 1 11)
    effort facts true (some .operand) e = ⟨false, true, 0, 0⟩ ∧
      effort facts false (some .operand) e = ⟨true, true, 1, 0⟩ := by
  decide +kernel

end ExprLowering.Lowering
