import ExprLowering.Proofs.Meaning

/-!
# Expressions with a meaning

The expressions whose meaning lowering keeps, and what their lowerings look like: there always is
one, it emits statements exactly if something is written, and its value is a name only if the
expression says so.

## Main definitions

* `bareNames`: the names that the value of an expression may be read from.
* `Quiet`: expressions in which nothing is written, apart from what is called.
* `Covered`: the expressions.

## Main results

* `Covered.exists_lowers`: they can be lowered.
* `Covered.stmts_eq_nil_iff`: what emits no statement is quiet.
* `Covered.named`: a value that is a name is one of the bare names.
-/

namespace ExprLowering.Lowering

open Source (Substitution)
open Target

/-- The name that an expression is, whatever its wrappers. -/
def targetNames : Source.Expr → List String
  | .name text _ => [text]
  | .wrap _ inner _ => targetNames inner
  | _ => []

/-- The names that the value of an expression may be read from, after its statements. -/
def bareNames (facts : Facts) : Source.Expr → List String
  | .name text _ => if text = "undefined" then [] else [text]
  | .wrap _ inner _ => bareNames facts inner
  | .binary _ .assign right _ => bareNames facts right
  | .binary left (.assignWith _) _ _ => targetNames left
  | .template head [⟨e, text, _⟩] _ =>
    if head.isEmpty && text.isEmpty && (facts.typeOf e).isString then bareNames facts e else []
  | _ => []

/-- Whether an expression writes, apart from what it calls. -/
def writes : Source.Expr → Bool
  | .binary _ op _ _ => op.isAssignment
  | .delete .. => true
  | _ => false

/-- Nothing inside an expression writes, apart from what is called. -/
def Quiet (e : Source.Expr) : Prop := ∀ d ∈ e.nodes, writes d = false

/-- Whether an operator compares without conversion or is one of arithmetic. -/
def isNative : Source.Operator → Bool
  | .comparison _ | .calculation (.arithmetic _) => true
  | _ => false

/-- The expressions whose meaning is kept. Where a member is assigned to, a name that gives the
object or the key must not change between its evaluation and the store. -/
inductive Covered (ctx : Context) : Source.Expr → Prop where
  | name {text span} : Covered ctx (.name text span)
  | literal {value span} : Covered ctx (.literal value span)
  | template {head parts span} :
      (∀ e ∈ parts.map (·.expr), Covered ctx e) → Covered ctx (.template head parts span)
  | native {left op right span} :
      isNative op = true → Covered ctx left → Covered ctx right →
      Covered ctx (.binary left op right span)
  | property {object name nameSpan span} :
      foldedConstant? ctx span = none → Covered ctx object →
      Covered ctx (.property object name nameSpan false span)
  | element {object index span} :
      Covered ctx object → Covered ctx index → Covered ctx (.element object index false span)
  | call {callee args span} :
      (∀ expander, callForm ctx.facts callee ≠ .expanded expander) →
      (∀ method, callForm ctx.facts callee ≠ .method method) →
      Covered ctx callee → (∀ e ∈ args, Covered ctx e) → Covered ctx (.call callee args span)
  | deleteProperty {operand object name nameSpan span accessSpan} :
      operand.unwrap = .property object name nameSpan false accessSpan →
      foldedConstant? ctx accessSpan = none → Covered ctx object →
      Covered ctx (.delete operand span)
  | deleteElement {operand object index span accessSpan} :
      operand.unwrap = .element object index false accessSpan →
      Covered ctx object → Covered ctx index → Covered ctx (.delete operand span)
  | wrap {wrapper inner span} : Covered ctx inner → Covered ctx (.wrap wrapper inner span)
  | assignName {left text nameSpan right span} :
      left.unwrap = .name text nameSpan → text ≠ "undefined" → Covered ctx right →
      Covered ctx (.binary left .assign right span)
  | compoundName {left text nameSpan op right span} :
      left.unwrap = .name text nameSpan → text ≠ "undefined" → text ≠ "tostring" →
      Covered ctx right → Quiet right →
      Covered ctx (.binary left (.assignWith (.arithmetic op)) right span)
  | assignProperty {left object name nameSpan accessSpan right span} :
      left.unwrap = .property object name nameSpan false accessSpan →
      Covered ctx object → Covered ctx right →
      (∀ x ∈ bareNames ctx.facts object, Keeps x right) →
      Covered ctx (.binary left .assign right span)
  | assignElement {left object index accessSpan right span} :
      left.unwrap = .element object index false accessSpan →
      Covered ctx object → Covered ctx index → Covered ctx right →
      (∀ x ∈ bareNames ctx.facts object, Quiet index → Keeps x index ∧ Keeps x right) →
      (∀ x ∈ bareNames ctx.facts index, Keeps x right) →
      Covered ctx (.binary left .assign right span)

-- ════════════════════════════════════════════════════════════════════════
-- They can be lowered
-- ════════════════════════════════════════════════════════════════════════

variable {ctx : Context}

theorem Lowers.of_unwrap {role : Option Role} {e : Source.Expr} {n : Nat} {values : List Expr}
    {g : Growth} (h : Lowers ctx (.expr role e.unwrap) n values g) :
    Lowers ctx (.expr role e) n values g := by
  fun_induction Source.Expr.unwrap e with
  | case1 wrapper inner span ih => exact .wrap (ih h)
  | case2 e _ => exact h

theorem Lowers.to_unwrap {role : Option Role} {e : Source.Expr} {n : Nat} {values : List Expr}
    {g : Growth} (h : Lowers ctx (.expr role e) n values g) :
    Lowers ctx (.expr role e.unwrap) n values g := by
  fun_induction Source.Expr.unwrap e with
  | case1 wrapper inner span ih =>
    cases h with
    | wrap h => exact ih h
  | case2 e _ => exact h

/-- Comparisons and arithmetic become operators of the target. -/
theorem exists_native {op : Source.Operator} (h : isNative op = true) (span : Span) :
    ∃ binop, operatorKind op span = .ok (.simple (.native binop)) := by
  unfold isNative at h
  split at h
  · exact ⟨_, rfl⟩
  · exact ⟨_, rfl⟩
  · cases h

/-- There is a lowering wherever temporaries start, in every role. -/
def Lowerable (ctx : Context) (e : Source.Expr) : Prop :=
  ∀ role n, ∃ value g, Lowers ctx (.expr role e) n [value] g

theorem Lowerable.operands {es : List Source.Expr} (h : ∀ e ∈ es, Lowerable ctx e)
    (earlier : List Expr) (n : Nat) : ∃ values g, Lowers ctx (.operands earlier es) n values g := by
  induction es generalizing earlier n with
  | nil => exact ⟨earlier, ∅, .noOperand⟩
  | cons e es ih =>
    obtain ⟨value, g, hhead⟩ := h e List.mem_cons_self (some .operand) n
    obtain ⟨values, g', htail⟩ := ih (fun d hd => h d (List.mem_cons_of_mem _ hd)) _ _
    exact ⟨values, _, .operand hhead htail⟩

theorem Lowerable.pair {left right : Source.Expr} (hleft : Lowerable ctx left)
    (hright : Lowerable ctx right) (n : Nat) :
    ∃ a b g, Lowers ctx (.operands [] [left, right]) n [a, b] g := by
  have hall : ∀ e ∈ [left, right], Lowerable ctx e := by
    intro e he
    rcases List.mem_cons.1 he with rfl | he
    · exact hleft
    · exact List.mem_singleton.1 he ▸ hright
  obtain ⟨values, g, h⟩ := Lowerable.operands hall [] n
  have hlength : values.length = 2 := h.length_values
  obtain ⟨a, b, rfl⟩ : ∃ a b, values = [a, b] := by
    match values, hlength with
    | [a, b], _ => exact ⟨a, b, rfl⟩
  exact ⟨a, b, g, h⟩

theorem Lowerable.property {object : Source.Expr} {name : String} {nameSpan span : Span}
    (h : Lowerable ctx object) : Lowerable ctx (.property object name nameSpan false span) := by
  intro role n
  obtain ⟨value, g, hobject⟩ := h (some .operand) n
  exact ⟨_, _, .property hobject⟩

theorem Lowerable.element {object index : Source.Expr} {span : Span}
    (hobject : Lowerable ctx object) (hindex : Lowerable ctx index) :
    Lowerable ctx (.element object index false span) := by
  intro role n
  obtain ⟨a, b, g, hpair⟩ := hobject.pair hindex n
  exact ⟨_, _, .element hpair⟩

theorem Lowerable.delete {operand : Source.Expr} {span : Span} (hop : isDeletable operand = true)
    (h : Lowerable ctx operand.unwrap) : Lowerable ctx (.delete operand span) := by
  intro role n
  obtain ⟨value, g, hoperand⟩ := h (some .deleted) n
  exact ⟨_, _, .delete hop hoperand.of_unwrap⟩

theorem Lowerable.target_property {left object : Source.Expr} {name : String}
    {nameSpan span : Span} (hleft : left.unwrap = .property object name nameSpan false span)
    (h : Lowerable ctx object) (n : Nat) :
    ∃ place g, Lowers ctx (.target left) n [place] g ∧ place.isAssignable = true := by
  obtain ⟨value, g, hobject⟩ := h (some .operand) n
  exact ⟨_, _, .targetProperty hleft hobject, rfl⟩

theorem Lowerable.target_element {left object index : Source.Expr} {span : Span}
    (hleft : left.unwrap = .element object index false span) (hobject : Lowerable ctx object)
    (hindex : Lowerable ctx index) (n : Nat) :
    ∃ place g, Lowers ctx (.target left) n [place] g ∧ place.isAssignable = true := by
  obtain ⟨a, b, g, h⟩ := hobject.pair hindex n
  exact ⟨_, _, .targetElement hleft h, rfl⟩

theorem target_name {left : Source.Expr} {text : String} {span : Span}
    (hleft : left.unwrap = .name text span) (h : text ≠ "undefined") (n : Nat) :
    ∃ place g, Lowers ctx (.target left) n [place] g ∧ place.isAssignable = true :=
  ⟨_, _, .targetName hleft, by rw [nameValue, if_neg h]; rfl⟩

theorem Lowerable.assign {left right : Source.Expr} {span : Span}
    (hleft : ∀ n, ∃ place g, Lowers ctx (.target left) n [place] g ∧ place.isAssignable = true)
    (hright : Lowerable ctx right) : Lowerable ctx (.binary left .assign right span) := by
  intro role n
  obtain ⟨place, g, htarget, hplace⟩ := hleft n
  obtain ⟨value, g', hvalue⟩ := hright (some .operand) (n + g.temps)
  exact ⟨_, _, .assign rfl htarget hvalue hplace⟩

theorem Covered.exists_lowers {e : Source.Expr} (h : Covered ctx e) : Lowerable ctx e := by
  induction h with
  | name => exact fun role n => ⟨_, _, .name⟩
  | literal => exact fun role n => ⟨_, _, .literal⟩
  | template _ ih =>
    intro role n
    obtain ⟨values, g, hparts⟩ := Lowerable.operands ih [] n
    exact ⟨_, _, .template hparts⟩
  | @native _ _ _ span hnative _ _ ihleft ihright =>
    intro role n
    obtain ⟨binop, hop⟩ := exists_native hnative span
    obtain ⟨a, b, g, hpair⟩ := ihleft.pair ihright n
    exact ⟨_, _, .simple hop hpair⟩
  | property _ _ ih => exact ih.property
  | element _ _ ihobject ihindex => exact ihobject.element ihindex
  | @call callee args span hexpanded hmethod _ _ ihcallee ihargs =>
    intro role n
    cases hform : callForm ctx.facts callee with
    | refused object => exact ⟨_, _, .refusedCall hform⟩
    | expanded expander => exact absurd hform (hexpanded expander)
    | method name => exact absurd hform (hmethod name)
    | plain =>
      obtain ⟨value, g, hcallee⟩ := ihcallee (some .callee) n
      obtain ⟨values, g', hargs⟩ := Lowerable.operands ihargs [value] (n + g.temps)
      have hlength : values.length = 1 + args.length := hargs.length_values
      obtain ⟨head, values, rfl⟩ := List.exists_cons_of_length_pos (l := values) (by omega)
      exact ⟨_, _, .plainCall hform hcallee hargs⟩
  | deleteProperty hoperand _ _ ih =>
    exact .delete (by simp [isDeletable, hoperand]) (hoperand ▸ ih.property)
  | deleteElement hoperand _ _ ihobject ihindex =>
    exact .delete (by simp [isDeletable, hoperand]) (hoperand ▸ ihobject.element ihindex)
  | wrap _ ih =>
    intro role n
    obtain ⟨value, g, hinner⟩ := ih role n
    exact ⟨_, _, .wrap hinner⟩
  | assignName hleft hne _ ih => exact .assign (target_name hleft hne) ih
  | compoundName hleft hne _ _ _ ih =>
    intro role n
    obtain ⟨place, g, htarget, hplace⟩ : ∃ place g, Lowers ctx (.target _) n [place] g ∧
        place.isAssignable = true := target_name hleft hne n
    obtain ⟨value, g', hvalue⟩ := ih (some .operand) (n + g.temps)
    exact ⟨_, _, .compound rfl htarget hvalue hplace⟩
  | assignProperty hleft _ _ _ ihobject ihright =>
    exact .assign (ihobject.target_property hleft) ihright
  | assignElement hleft _ _ _ _ _ ihobject ihindex ihright =>
    exact .assign (ihobject.target_element hleft ihindex) ihright

-- ════════════════════════════════════════════════════════════════════════
-- What emits statements
-- ════════════════════════════════════════════════════════════════════════

theorem quiet_binary {left right : Source.Expr} {op : Source.Operator} {span : Span} :
    Quiet (.binary left op right span) ↔ op.isAssignment = false ∧ Quiet left ∧ Quiet right := by
  simp only [Quiet, Source.Expr.nodes, List.forall_mem_cons, List.forall_mem_append, writes]

theorem quiet_property {object : Source.Expr} {name : String} {nameSpan span : Span}
    {optional : Bool} : Quiet (.property object name nameSpan optional span) ↔ Quiet object := by
  simp only [Quiet, Source.Expr.nodes, List.forall_mem_cons, writes, true_and]

theorem quiet_element {object index : Source.Expr} {span : Span} {optional : Bool} :
    Quiet (.element object index optional span) ↔ Quiet object ∧ Quiet index := by
  simp only [Quiet, Source.Expr.nodes, List.forall_mem_cons, List.forall_mem_append, writes,
    true_and]

theorem quiet_wrap {wrapper : Source.Wrapper} {inner : Source.Expr} {span : Span} :
    Quiet (.wrap wrapper inner span) ↔ Quiet inner := by
  simp only [Quiet, Source.Expr.nodes, List.forall_mem_cons, writes, true_and]

theorem quiet_nodesAll (es : List Source.Expr) :
    (∀ d ∈ Source.nodesAll es, writes d = false) ↔ ∀ e ∈ es, Quiet e := by
  induction es with
  | nil => simp [Source.nodesAll]
  | cons e es ih =>
    rw [Source.nodesAll, List.forall_mem_append, List.forall_mem_cons, ih, Quiet]

theorem quiet_call {callee : Source.Expr} {args : List Source.Expr} {span : Span} :
    Quiet (.call callee args span) ↔ Quiet callee ∧ ∀ e ∈ args, Quiet e := by
  rw [← quiet_nodesAll]
  simp only [Quiet, Source.Expr.nodes, List.forall_mem_cons, List.forall_mem_append, writes,
    true_and]

theorem quiet_template {head : String} {parts : List (Substitution Source.Expr)} {span : Span} :
    Quiet (.template head parts span) ↔ ∀ e ∈ parts.map (·.expr), Quiet e := by
  rw [← quiet_nodesAll, ← Source.partNodes_eq]
  simp only [Quiet, Source.Expr.nodes, List.forall_mem_cons, writes, true_and]

theorem not_quiet_delete {operand : Source.Expr} {span : Span} :
    ¬ Quiet (.delete operand span) := by
  intro h
  cases h _ List.mem_cons_self

theorem not_quiet_assignment {left right : Source.Expr} {op : Source.Operator} {span : Span}
    (hop : op.isAssignment = true) : ¬ Quiet (.binary left op right span) := by
  intro h
  rw [(quiet_binary.1 h).1] at hop
  cases hop

/-- What is shown of an expression: it emits statements exactly if something is written. -/
def Tells (ctx : Context) (e : Source.Expr) : Prop :=
  ∀ role n value g, Lowers ctx (.expr role e) n [value] g → OnlyNotes g →
    role ≠ some .deleted → (g.stmts = [] ↔ Quiet e)

theorem Tells.operands {es : List Source.Expr} (h : ∀ e ∈ es, Tells ctx e)
    {earlier values : List Expr} {n : Nat} {g : Growth}
    (hes : Lowers ctx (.operands earlier es) n values g) (hnotes : OnlyNotes g) :
    g.stmts = [] ↔ ∀ e ∈ es, Quiet e := by
  induction es generalizing earlier n values g with
  | nil =>
    cases hes
    simp
  | cons e es ih =>
    cases hes with
    | @operand _ _ _ _ value _ g₁ g₂ hhead htail =>
      have hfirst := h e List.mem_cons_self _ n value g₁ hhead hnotes.left.right (by simp)
      have hrest := ih (fun d hd => h d (List.mem_cons_of_mem _ hd)) htail hnotes.right
      -- Values are displaced only where the operand itself emits something.
      have hmoved : g₁.stmts = [] →
          (displaced (n + g₁.temps) earlier g₁.stmts).2.stmts = [] := by
        intro hnil
        rw [hnil]
        rfl
      simp only [Growth.append_stmts, List.append_eq_nil_iff, List.forall_mem_cons, ← hfirst,
        ← hrest]
      exact ⟨fun h => ⟨h.1.2, h.2⟩, fun h => ⟨⟨hmoved h.1, h.1⟩, h.2⟩⟩

theorem Tells.pair {left right : Source.Expr} (hleft : Tells ctx left) (hright : Tells ctx right)
    {values : List Expr} {n : Nat} {g : Growth}
    (h : Lowers ctx (.operands [] [left, right]) n values g) (hnotes : OnlyNotes g) :
    g.stmts = [] ↔ Quiet left ∧ Quiet right := by
  have hall : ∀ e ∈ [left, right], Tells ctx e :=
    List.forall_mem_cons.2 ⟨hleft, List.forall_mem_cons.2 ⟨hright, by simp⟩⟩
  rw [Tells.operands hall h hnotes]
  simp

theorem memberRead_of_ne {role : Option Role} (h : role ≠ some .deleted) (member : Expr) :
    memberRead role member = (member, ∅) := if_neg h

/-- The lowering of the removal of a property. -/
theorem Lowers.delete_property {role : Option Role} {operand object : Source.Expr} {name : String}
    {nameSpan accessSpan span : Span} {n : Nat} {value : Expr} {g : Growth}
    (hoperand : operand.unwrap = .property object name nameSpan false accessSpan)
    (hconst : foldedConstant? ctx accessSpan = none)
    (h : Lowers ctx (.expr role (.delete operand span)) n [value] g) (hnotes : OnlyNotes g) :
    ∃ v g', Lowers ctx (.expr (some .operand) object) n [v] g' ∧ OnlyNotes g' ∧ value = .nil ∧
      g.stmts = g'.stmts ++ [.assign (.property v.toIndexable name) .set .nil] := by
  cases h with
  | delete _ haccess =>
    have haccess := haccess.to_unwrap
    rw [hoperand] at haccess
    cases haccess with
    | property hobject =>
      obtain ⟨hvalue, hstmts⟩ := propertyRead_of_onlyNotes hconst hnotes.right
      exact ⟨_, _, hobject, hnotes.left, hvalue, congrArg (_ ++ ·) hstmts⟩

/-- The lowering of the removal of an element. -/
theorem Lowers.delete_element {role : Option Role} {operand object index : Source.Expr}
    {accessSpan span : Span} {n : Nat} {value : Expr} {g : Growth}
    (hoperand : operand.unwrap = .element object index false accessSpan)
    (h : Lowers ctx (.expr role (.delete operand span)) n [value] g) (hnotes : OnlyNotes g) :
    ∃ a b g', Lowers ctx (.operands [] [object, index]) n [a, b] g' ∧ OnlyNotes g' ∧
      value = .nil ∧ g.stmts = g'.stmts ++ [.assign (.index a.toIndexable b) .set .nil] := by
  cases h with
  | delete _ haccess =>
    have haccess := haccess.to_unwrap
    rw [hoperand] at haccess
    cases haccess with
    | element hpair =>
      have hread := elementRead_of_onlyNotes hnotes.right
      exact ⟨_, _, _, hpair, hnotes.left, congrArg Prod.fst hread,
        congrArg (_ ++ Growth.stmts ·) (congrArg Prod.snd hread)⟩

theorem Covered.stmts_eq_nil_iff {e : Source.Expr} (h : Covered ctx e) : Tells ctx e := by
  induction h with
  | name =>
    intro role n value g hl hnotes hrole
    cases hl
    simp [Quiet, Source.Expr.nodes, writes]
  | literal =>
    intro role n value g hl hnotes hrole
    cases hl
    simp [Quiet, Source.Expr.nodes, writes]
  | template _ ih =>
    intro role n value g hl hnotes hrole
    cases hl with
    | template hparts => rw [quiet_template, Tells.operands ih hparts hnotes]
  | @native _ _ _ span hnative _ _ ihleft ihright =>
    intro role n value g hl hnotes hrole
    obtain ⟨binop, hop⟩ := exists_native hnative span
    have hnot := (operatorEffects_simple hop).1
    cases hl with
    | simple _ hpair => rw [quiet_binary, ihleft.pair ihright hpair hnotes, and_iff_right hnot]
    | logical hop' => rw [hop] at hop'; cases hop'
    | assign hop' => rw [hop] at hop'; cases hop'
    | compound hop' => rw [hop] at hop'; cases hop'
  | property hconst _ ih =>
    intro role n value g hl hnotes hrole
    cases hl with
    | property hobject =>
      obtain ⟨-, hstmts⟩ := propertyRead_of_onlyNotes hconst hnotes.right
      rw [quiet_property, ← ih _ _ _ _ hobject hnotes.left (by simp), Growth.append_stmts, hstmts,
        memberRead_of_ne hrole, Growth.empty_stmts, List.append_nil]
  | element _ _ ihobject ihindex =>
    intro role n value g hl hnotes hrole
    cases hl with
    | element hpair =>
      rw [quiet_element, ← ihobject.pair ihindex hpair hnotes.left,
        elementRead_of_onlyNotes hnotes.right, memberRead_of_ne hrole, Growth.append_stmts,
        Growth.empty_stmts, List.append_nil]
  | call hexpanded hmethod _ _ ihcallee ihargs =>
    intro role n value g hl hnotes hrole
    cases hl with
    | refusedCall => exact absurd hnotes (not_onlyNotes_of_refused Problem.noConfusion)
    | expandedCall hform => exact absurd hform (hexpanded _)
    | methodCall hform => exact absurd hform (hmethod _)
    | plainCall _ hcallee hargs =>
      rw [quiet_call, ← ihcallee _ _ _ _ hcallee hnotes.left (by simp),
        ← Tells.operands ihargs hargs hnotes.right, Growth.append_stmts, List.append_eq_nil_iff]
  | deleteProperty hoperand hconst _ _ =>
    intro role n value g hl hnotes hrole
    obtain ⟨v, g', -, -, -, hstmts⟩ := hl.delete_property hoperand hconst hnotes
    exact iff_of_false (by simp [hstmts]) not_quiet_delete
  | deleteElement hoperand _ _ _ _ =>
    intro role n value g hl hnotes hrole
    obtain ⟨a, b, g', -, -, -, hstmts⟩ := hl.delete_element hoperand hnotes
    exact iff_of_false (by simp [hstmts]) not_quiet_delete
  | wrap _ ih =>
    intro role n value g hl hnotes hrole
    cases hl with
    | wrap hinner => rw [quiet_wrap, ih _ _ _ _ hinner hnotes hrole]
  | assignName | assignProperty | assignElement =>
    intro role n value g hl hnotes hrole
    refine iff_of_false ?_ (not_quiet_assignment rfl)
    cases hl with
    | assign => simp [Growth.ofStmts]
    | simple hop => cases hop
    | logical hop => cases hop
    | compound hop => cases hop
  | compoundName =>
    intro role n value g hl hnotes hrole
    refine iff_of_false ?_ (not_quiet_assignment rfl)
    cases hl with
    | compound => simp [Growth.ofStmts]
    | simple hop => cases hop
    | logical hop => cases hop
    | assign hop => cases hop

-- ════════════════════════════════════════════════════════════════════════
-- Values that are names
-- ════════════════════════════════════════════════════════════════════════

theorem concatenation_eq_name {segments : List Expr} {x : String}
    (h : concatenation segments = .name x) : segments = [.name x] := by
  have hchain (first : Expr) (rest : List Expr) (hrest : rest ≠ []) :
      rest.foldl (fun chain segment => .binary chain .concat segment) first ≠ .name x := by
    induction rest generalizing first with
    | nil => exact absurd rfl hrest
    | cons segment rest ih =>
      cases rest with
      | nil => exact Expr.noConfusion
      | cons next rest => exact ih _ (List.cons_ne_nil _ _)
  match segments, h with
  | [], h => cases h
  | [first], h => exact congrArg ([·]) h
  | first :: second :: rest, h => exact absurd h (hchain first _ (List.cons_ne_nil _ _))

theorem textSegment_eq_nil {text : String} (h : textSegment text = []) : text.isEmpty = true := by
  rw [textSegment] at h
  split at h
  · assumption
  · cases h

theorem name_notMem_textSegment (text x : String) : Expr.name x ∉ textSegment text := by
  rw [textSegment]
  split
  · exact List.not_mem_nil
  · simp

/-- A template is a name only if it is one string and nothing else. -/
theorem templateValue_eq_name {facts : Facts} {head : String}
    {parts : List (Substitution Source.Expr)} {values : List Expr} {x : String}
    (hlength : values.length = parts.length)
    (h : templateValue facts head parts values = .name x) :
    ∃ part, parts = [part] ∧ values = [.name x] ∧ head.isEmpty = true ∧
      part.text.isEmpty = true ∧ (facts.typeOf part.expr).isString = true := by
  have hsegments := concatenation_eq_name h
  rcases List.append_eq_singleton_iff.1 hsegments with ⟨hhead, hparts⟩ | ⟨hhead, _⟩
  · match parts, values, hlength, hparts with
    | part :: parts, value :: values, hlength, hparts =>
      rw [partSegments] at hparts
      injection hparts with hvalue hrest
      obtain ⟨htext, hrest⟩ := List.append_eq_nil_iff.1 hrest
      rw [valueSegment] at hvalue
      split at hvalue
      · rename_i hstring
        cases parts with
        | nil =>
          obtain rfl : values = [] := by simpa using hlength
          exact ⟨part, rfl, congrArg ([·]) hvalue, textSegment_eq_nil hhead,
            textSegment_eq_nil htext, hstring⟩
        | cons next parts =>
          obtain ⟨value', values, rfl⟩ :=
            List.exists_cons_of_length_eq_add_one (Nat.succ.inj hlength)
          cases hrest
      · cases hvalue
  · exact absurd (hhead ▸ List.mem_cons_self) (name_notMem_textSegment head x)

/-- One operand alone displaces nothing. -/
theorem Lowers.single {e : Source.Expr} {n : Nat} {values : List Expr} {g : Growth}
    (h : Lowers ctx (.operands [] [e]) n values g) :
    ∃ value, values = [value] ∧ Lowers ctx (.expr (some .operand) e) n [value] g := by
  cases h with
  | @operand _ _ _ _ value _ g₁ g₂ hfirst hrest =>
    rw [displaced_empty] at hrest ⊢
    cases hrest
    exact ⟨value, rfl, by simpa using hfirst⟩

/-- The two operands of a pair. -/
theorem Lowers.pair_cases {left right : Source.Expr} {n : Nat} {a b : Expr} {g : Growth}
    (h : Lowers ctx (.operands [] [left, right]) n [a, b] g) :
    ∃ v g₁ g₂ moved, Lowers ctx (.expr (some .operand) left) n [v] g₁ ∧
      Lowers ctx (.expr (some .operand) right) (n + g₁.temps) [b] g₂ ∧
      displaced (n + g₁.temps + g₂.temps) [v] g₂.stmts = ([a], moved) ∧
      g = g₁ ++ (moved ++ g₂) := by
  generalize hvalues : [a, b] = values at h
  cases h with
  | @operand _ _ _ _ v _ g₁ _ hfirst hrest =>
    simp only [displaced_empty, Growth.empty_append, List.nil_append] at hrest ⊢
    cases hrest with
    | @operand _ _ _ _ w _ g₂ _ hsecond hnone =>
      cases hnone
      have hsplit : [a] ++ [b] = _ ++ [w] := hvalues
      obtain ⟨hmoved, hlast⟩ := List.append_inj' hsplit rfl
      cases hlast
      exact ⟨v, g₁, g₂, _, hfirst, hsecond, Prod.ext hmoved.symm rfl, by simp⟩

/-- A first operand that is still a name was not displaced. -/
theorem Lowers.pair_of_name {left right : Source.Expr} {n : Nat} {x : String} {b : Expr}
    {g : Growth} (h : Lowers ctx (.operands [] [left, right]) n [.name x, b] g) :
    ∃ g₁ g₂, Lowers ctx (.expr (some .operand) left) n [.name x] g₁ ∧
      Lowers ctx (.expr (some .operand) right) (n + g₁.temps) [b] g₂ ∧ g₂.stmts = [] ∧
      g = g₁ ++ g₂ := by
  obtain ⟨v, g₁, g₂, moved, hfirst, hsecond, hmoved, rfl⟩ := h.pair_cases
  cases hstmts : g₂.stmts with
  | nil =>
    rw [hstmts] at hmoved
    cases hmoved
    exact ⟨g₁, g₂, hfirst, hsecond, hstmts, by simp⟩
  | cons stmt stmts =>
    rw [hstmts, displaced_cons] at hmoved
    cases hv : v.isSettled with
    | true =>
      rw [settleAll_cons_settled hv] at hmoved
      cases hmoved
      cases hv
    | false =>
      rw [settleAll_cons_unsettled hv] at hmoved
      cases hmoved

theorem eq_name_of_nameValue {text x : String} (h : nameValue text = .name x) :
    text ≠ "undefined" ∧ text = x := by
  rw [nameValue] at h
  split at h
  · cases h
  · exact ⟨‹_›, Expr.name.inj h⟩

theorem mem_targetNames {left : Source.Expr} {text : String} {span : Span}
    (h : left.unwrap = .name text span) : text ∈ targetNames left := by
  fun_induction Source.Expr.unwrap left with
  | case1 wrapper inner span ih => exact ih h
  | case2 left _ =>
    subst h
    exact List.mem_cons_self

theorem eq_name_of_saved {n : Nat} {value : Expr} {x : String}
    (h : (saved n value).1 = .name x) : value = .name x := by
  cases hatom : value.isAtom with
  | true => rwa [saved_atom hatom] at h
  | false =>
    rw [saved_complex hatom] at h
    cases h

theorem memberRead_ne_name (role : Option Role) {member : Expr} {x : String}
    (h : member ≠ .name x) : (memberRead role member).1 ≠ .name x := by
  rw [memberRead]
  split
  · exact Expr.noConfusion
  · exact h

/-- What is shown of an expression: its value is a name only if this is a bare name. -/
def Named (ctx : Context) (e : Source.Expr) : Prop :=
  ∀ role n value g, Lowers ctx (.expr role e) n [value] g → OnlyNotes g →
    ∀ x, value = .name x → x ∈ bareNames ctx.facts e

theorem Named.assign {left right : Source.Expr} {span : Span} (h : Named ctx right) :
    Named ctx (.binary left .assign right span) := by
  intro role n value g hl hnotes x hvalue
  cases hl with
  | simple hop => cases hop
  | logical hop => cases hop
  | compound hop => cases hop
  | assign _ _ hright _ =>
    rw [bareNames]
    exact h _ _ _ _ hright hnotes.left.left.right x (eq_name_of_saved hvalue)

theorem Covered.named {e : Source.Expr} (h : Covered ctx e) : Named ctx e := by
  induction h with
  | name =>
    intro role n value g hl hnotes x hvalue
    cases hl
    obtain ⟨hne, rfl⟩ := eq_name_of_nameValue hvalue
    rw [bareNames, if_neg hne]
    exact List.mem_cons_self
  | @literal literal _ =>
    intro role n value g hl hnotes x hvalue
    cases hl
    cases literal <;> cases hvalue
  | @template head parts _ _ ih =>
    intro role n value g hl hnotes x hvalue
    cases hl with
    | @template _ _ _ _ _ values _ hparts =>
      have hlength : values.length = parts.length := by simpa using hparts.length_values
      obtain ⟨⟨e, text, _⟩, rfl, rfl, hhead, htext, hstring⟩ :=
        templateValue_eq_name hlength hvalue
      obtain ⟨first, hfirst, hl⟩ := hparts.single
      cases hfirst
      simp only [bareNames, hhead, htext, hstring, Bool.and_self, if_true]
      exact ih e List.mem_cons_self _ _ _ _ hl hnotes x rfl
  | @native _ _ _ span hnative _ _ _ _ =>
    intro role n value g hl hnotes x hvalue
    obtain ⟨binop, hop⟩ := exists_native hnative span
    cases hl with
    | simple hop' => rw [hop] at hop'; cases hop'; cases hvalue
    | logical hop' => rw [hop] at hop'; cases hop'
    | assign hop' => rw [hop] at hop'; cases hop'
    | compound hop' => rw [hop] at hop'; cases hop'
  | property hconst _ _ =>
    intro role n value g hl hnotes x hvalue
    cases hl with
    | property hobject =>
      obtain ⟨hread, -⟩ := propertyRead_of_onlyNotes hconst hnotes.right
      rw [hread] at hvalue
      exact absurd hvalue (memberRead_ne_name role Expr.noConfusion)
  | element _ _ _ _ =>
    intro role n value g hl hnotes x hvalue
    cases hl with
    | element hpair =>
      rw [elementRead_of_onlyNotes hnotes.right] at hvalue
      exact absurd hvalue (memberRead_ne_name role Expr.noConfusion)
  | call hexpanded hmethod _ _ _ _ =>
    intro role n value g hl hnotes x hvalue
    cases hl with
    | refusedCall => exact absurd hnotes (not_onlyNotes_of_refused Problem.noConfusion)
    | expandedCall hform => exact absurd hform (hexpanded _)
    | methodCall hform => exact absurd hform (hmethod _)
    | plainCall => cases hvalue
  | deleteProperty hoperand hconst _ _ =>
    intro role n value g hl hnotes x hvalue
    obtain ⟨v, g', -, -, hnil, -⟩ := hl.delete_property hoperand hconst hnotes
    cases hnil.symm.trans hvalue
  | deleteElement hoperand _ _ _ _ =>
    intro role n value g hl hnotes x hvalue
    obtain ⟨a, b, g', -, -, hnil, -⟩ := hl.delete_element hoperand hnotes
    cases hnil.symm.trans hvalue
  | wrap _ ih =>
    intro role n value g hl hnotes x hvalue
    cases hl with
    | wrap hinner => exact ih _ _ _ _ hinner hnotes x hvalue
  | assignName _ _ _ ih => exact ih.assign
  | assignProperty _ _ _ _ _ ih => exact ih.assign
  | assignElement _ _ _ _ _ _ _ _ ih => exact ih.assign
  | compoundName hleft _ _ _ _ _ =>
    intro role n value g hl hnotes x hvalue
    cases hl with
    | simple hop => cases hop
    | logical hop => cases hop
    | assign hop => cases hop
    | compound _ htarget =>
      cases htarget with
      | targetName hname =>
        obtain ⟨-, rfl⟩ := eq_name_of_nameValue hvalue
        exact mem_targetNames hname
      | targetProperty => cases hvalue
      | targetElement => cases hvalue

end ExprLowering.Lowering
