import ExprLowering.Lowering.Output
import ExprLowering.Proofs.Growth

/-!
# Lowering as a relation

`Lowers ctx job n values g` says that a piece of work yields `values` and adds `g` to the state,
when `n` is the number of the next temporary. There is one rule for each way in which a lowering
succeeds. Frames, the stack of roles and the state do not occur in the rules, so that what lowering
produces can be proved by induction on derivations.

## Main definitions

* `Job`: expressions, targets of assignments, and operands.
* `Lowers`: the relation.
* `propertyRead`, `elementRead`, `expansion`: what the member accesses and expanders yield and add.

## Main results

* `Lowers.runs`, `lowers_of_run`: the relation holds exactly of the successful runs.
* `Lowers.unique`: a piece of work is done in one way only.
* `lowerAlone_eq_ok_iff`: the same for an expression on its own.
-/

namespace ExprLowering.Lowering

open Source (Calculation)
open Target

-- ════════════════════════════════════════════════════════════════════════
-- Member accesses, expanders and compound assignments
-- ════════════════════════════════════════════════════════════════════════

/-- A member that is read, or removed if the access is deleted. -/
def memberRead (role : Option Role) (member : Expr) : Expr × Growth :=
  if role = some .deleted then (.nil, .ofStmts [.assign member .set .nil]) else (member, ∅)

/-- A member in whose place its constant value is put, if it has one. -/
def constantOrMember (ctx : Context) (role : Option Role) (span : Span) (member : Expr) :
    Expr × Growth :=
  match foldedConstant? ctx span with
  | some constant => (constantValue constant, ∅)
  | none => memberRead role member

/-- What is reported about the name of a member. -/
def nameNote (name : String) (nameSpan : Span) : Growth :=
  if name = "prototype" then .ofDiagnostic .prototype nameSpan else ∅

theorem nameNote_stmts (name : String) (nameSpan : Span) :
    (nameNote name nameSpan).stmts = [] := by
  rw [nameNote]
  split
  · rfl
  · rfl

/-- What the access `object.name` yields and adds, given the value of the object. -/
def propertyRead (ctx : Context) (role : Option Role) (object : Source.Expr) (name : String)
    (nameSpan span : Span) (value : Expr) : Expr × Growth :=
  if (ctx.facts.typeOf object).isAny then
    (.placeholder, .ofDiagnostic .anyValue object.span)
  else if (ctx.facts.expanderAt? span).isSome then
    (.placeholder, .ofDiagnostic .uncalledExpansion span)
  else if ctx.facts.isMethodAt span && role != some .callee then
    (.placeholder, .ofDiagnostic .uncalledMethod span)
  else
    let member := constantOrMember ctx role span (.property value.toIndexable name)
    (member.1, nameNote name nameSpan ++ member.2)

/-- What the access `object[index]` yields and adds, given the values of both. -/
def elementRead (ctx : Context) (role : Option Role) (object : Source.Expr) (value index : Expr) :
    Expr × Growth :=
  if (ctx.facts.typeOf object).isAny then (.placeholder, .ofDiagnostic .anyValue object.span)
  else memberRead role (.index value.toIndexable index)

/-- What the expansion of a call yields and adds, unless it fails; `n` is the next temporary. -/
def expansion (n : Nat) (object : Expr) (args : List Expr) : Expander → Option (Expr × Growth)
  | .unit => some (.nil, ∅)
  | .length => some (.call (.name "rawlen") [object], ∅)
  | .push =>
    some (.call (.property (.name "table") "insert") ((saved n object).1 :: args),
      (saved n object).2)
  | .fail => none
  | .effect =>
    some (.method (.temp ⟨n⟩) "expanded" args,
      .declaring n object ++ .ofStmts [.assign (.name "effect") .set (.temp ⟨n⟩)] ++
        .ofDiagnostic .prototype (.point 8 8))

/-- The statement for a compound assignment. -/
def compoundStmt (options : Options) (op : Calculation) (place value : Expr) : Stmt :=
  match if options.keepCompound then compoundOp? op else none with
  | some compound => .assign place compound value
  | none => .assign place .set ((calculationForm op).build place value)

theorem run_readOrRemove {member : Expr} (h : member.isAssignable = true) (s : State) :
    (readOrRemove member).run s =
      (.ok (memberRead s.role? member).1, s.grow (memberRead s.role? member).2) := by
  have hrole : currentRole.run s = (.ok s.role?, s) := rfl
  rw [readOrRemove, LowerM.run_bind_ok hrole, memberRead]
  by_cases hdel : s.role? = some .deleted
  · rw [if_pos hdel, if_pos hdel, LowerM.run_bind_ok (run_assign h _ _ s)]
    rfl
  · rw [if_neg hdel, if_neg hdel]
    simp

theorem run_constantOrMember (ctx : Context) (span : Span) {member : Expr}
    (h : member.isAssignable = true) (s : State) :
    (match foldedConstant? ctx span with
      | some constant => pure (constantValue constant)
      | none => readOrRemove member).run s =
      (.ok (constantOrMember ctx s.role? span member).1,
        s.grow (constantOrMember ctx s.role? span member).2) := by
  rw [constantOrMember]
  cases foldedConstant? ctx span with
  | some constant => simp
  | none => exact run_readOrRemove h s

theorem run_readProperty (ctx : Context) (object : Source.Expr) (name : String)
    (nameSpan span : Span) (value : Expr) (s : State) :
    (readProperty ctx object name nameSpan span value).run s =
      (.ok (propertyRead ctx s.role? object name nameSpan span value).1,
        s.grow (propertyRead ctx s.role? object name nameSpan span value).2) := by
  have hrole : currentRole.run s = (.ok s.role?, s) := rfl
  rw [readProperty, propertyRead]
  split
  · exact run_refuse _ _ s
  split
  · exact run_refuse _ _ s
  rw [LowerM.run_bind_ok hrole]
  split
  · exact run_refuse _ _ s
  by_cases hname : name = "prototype"
  · simp only [hname, if_true, nameNote]
    rw [LowerM.run_bind_ok (run_diagnose _ _ s), State.grow_append]
    exact run_constantOrMember ctx span rfl _
  · simp only [hname, if_false, nameNote, Growth.empty_append]
    exact run_constantOrMember ctx span rfl s

theorem run_readElement (ctx : Context) (object : Source.Expr) (value index : Expr) (s : State) :
    (readElement ctx object value index).run s =
      (.ok (elementRead ctx s.role? object value index).1,
        s.grow (elementRead ctx s.role? object value index).2) := by
  rw [readElement, elementRead]
  split
  · exact run_refuse _ _ s
  · exact run_readOrRemove rfl s

/-- An expansion succeeds with what `expansion` says, and fails where it says nothing. -/
theorem run_applyExpander (expander : Expander) (object : Expr) (args : List Expr) (s : State) :
    match expansion s.nextTemp object args expander with
    | some (value, g) => (applyExpander expander object args).run s = (.ok value, s.grow g)
    | none => ∃ failure, (applyExpander expander object args).run s = (.error failure, s) := by
  cases expander with
  | unit => simp [expansion, applyExpander]
  | length => simp [expansion, applyExpander]
  | push =>
    simp only [expansion, applyExpander]
    rw [LowerM.run_bind_ok (run_hoistUnlessAtom object s)]
    rfl
  | fail => exact ⟨_, rfl⟩
  | effect =>
    simp only [expansion, applyExpander]
    rw [LowerM.run_bind_ok (run_hoist_grow object s),
      LowerM.run_bind_ok (run_assign rfl .set _ _), LowerM.run_bind_ok (run_diagnose _ _ _),
      State.grow_append, State.grow_append]
    rfl

/-- A compound assignment, from the runs of its sides. -/
theorem run_assignResult {options : Options} {op : Calculation} {location : LowerM Location}
    {value : LowerM Expr} {s t u : State} {l : Location} {v : Expr}
    (hloc : location.run s = (.ok l, t)) (hval : value.run t = (.ok v, u))
    (hplace : l.toExpr.isAssignable = true) :
    (assignResult options op location value).run s =
      (.ok l.toExpr, u.grow (.ofStmts [compoundStmt options op l.toExpr v])) := by
  rw [assignResult, LowerM.run_bind_ok hloc, LowerM.run_bind_ok hval, compoundStmt]
  dsimp only
  cases if options.keepCompound then compoundOp? op else none with
  | none => exact LowerM.run_bind_ok (run_assign hplace _ _ u) _
  | some compound => exact LowerM.run_bind_ok (run_assign hplace _ _ u) _

-- ════════════════════════════════════════════════════════════════════════
-- The rules
-- ════════════════════════════════════════════════════════════════════════

/-- A piece of work: an expression in its role, the target of an assignment, or operands that
follow operands with the values `earlier`. -/
inductive Job where
  | expr (role : Option Role) (e : Source.Expr)
  | target (left : Source.Expr)
  | operands (earlier : List Expr) (es : List Source.Expr)

/-- `Lowers ctx job n values g`: when `n` is the next temporary, the work yields `values` and adds
`g`. An expression yields its value, a target the expression that reads and writes it, and operands
yield the values of all of them, earlier ones included. -/
inductive Lowers (ctx : Context) : Job → Nat → List Expr → Growth → Prop where
  | name {role text span n} : Lowers ctx (.expr role (.name text span)) n [nameValue text] ∅
  | literal {role value span n} :
      Lowers ctx (.expr role (.literal value span)) n [literalValue value] ∅
  | template {role head parts span n values g} :
      Lowers ctx (.operands [] (parts.map (·.expr))) n values g →
      Lowers ctx (.expr role (.template head parts span)) n
        [templateValue ctx.facts head parts values] g
  | simple {role left op right span n form a b g} :
      operatorKind op span = .ok (.simple form) →
      Lowers ctx (.operands [] [left, right]) n [a, b] g →
      Lowers ctx (.expr role (.binary left op right span)) n [form.build a b] g
  | logical {role left op right span n a b g} :
      operatorKind op span = .ok .logical →
      Lowers ctx (.operands [] [left, right]) n [a, b] g →
      Lowers ctx (.expr role (.binary left op right span)) n [.call (.name "logical") [a, b]]
        (.oneLogical ++ g)
  | assign {role left op right span n place value g₁ g₂} :
      operatorKind op span = .ok .assignment →
      Lowers ctx (.target left) n [place] g₁ →
      Lowers ctx (.expr (some .operand) right) (n + g₁.temps) [value] g₂ →
      place.isAssignable = true →
      Lowers ctx (.expr role (.binary left op right span)) n
        [(saved (n + (g₁ ++ g₂).temps) value).1]
        (g₁ ++ g₂ ++ (saved (n + (g₁ ++ g₂).temps) value).2 ++
          .ofStmts [.assign place .set (saved (n + (g₁ ++ g₂).temps) value).1])
  | compound {role left op right span n calculation place value g₁ g₂} :
      operatorKind op span = .ok (.compound calculation) →
      Lowers ctx (.target left) n [place] g₁ →
      Lowers ctx (.expr (some .operand) right) (n + g₁.temps) [value] g₂ →
      place.isAssignable = true →
      Lowers ctx (.expr role (.binary left op right span)) n [place]
        (g₁ ++ g₂ ++ .ofStmts [compoundStmt ctx.options calculation place value])
  | property {role object name nameSpan span n value g} :
      Lowers ctx (.expr (some .operand) object) n [value] g →
      Lowers ctx (.expr role (.property object name nameSpan false span)) n
        [(propertyRead ctx role object name nameSpan span value).1]
        (g ++ (propertyRead ctx role object name nameSpan span value).2)
  | chainProperty {role object name nameSpan span n value g} :
      Lowers ctx (.expr (some .operand) object) n [value] g →
      Lowers ctx (.expr role (.property object name nameSpan true span)) n
        [(propertyRead ctx role object name nameSpan span (saved (n + g.temps) value).1).1]
        (.oneChain ++ g ++ (saved (n + g.temps) value).2 ++
          (propertyRead ctx role object name nameSpan span (saved (n + g.temps) value).1).2)
  | element {role object index span n a b g} :
      Lowers ctx (.operands [] [object, index]) n [a, b] g →
      Lowers ctx (.expr role (.element object index false span)) n
        [(elementRead ctx role object a b).1] (g ++ (elementRead ctx role object a b).2)
  | chainElement {role object index span n a b g} :
      Lowers ctx (.operands [] [object, index]) n [a, b] g →
      Lowers ctx (.expr role (.element object index true span)) n
        [(elementRead ctx role object a b).1]
        (.oneChain ++ g ++ (elementRead ctx role object a b).2)
  | refusedCall {role callee args span n object} :
      callForm ctx.facts callee = .refused object →
      Lowers ctx (.expr role (.call callee args span)) n [.placeholder]
        (.ofDiagnostic .anyValue object)
  | expandedCall {role callee args span n expander object name nameSpan optional accessSpan value
      head values g₁ g₂ result g₃} :
      callForm ctx.facts callee = .expanded expander →
      callee.unwrap = .property object name nameSpan optional accessSpan →
      Lowers ctx (.expr (some .operand) object) n [value] g₁ →
      Lowers ctx (.operands [value] args) (n + g₁.temps) (head :: values) g₂ →
      expansion (n + (g₁ ++ g₂).temps) head values expander = some (result, g₃) →
      Lowers ctx (.expr role (.call callee args span)) n [result] (g₁ ++ g₂ ++ g₃)
  | methodCall {role callee args span n method object name nameSpan optional accessSpan value head
      values g₁ g₂} :
      callForm ctx.facts callee = .method method →
      callee.unwrap = .property object name nameSpan optional accessSpan →
      Lowers ctx (.expr (some .operand) object) n [value] g₁ →
      Lowers ctx (.operands [value] args) (n + g₁.temps) (head :: values) g₂ →
      Lowers ctx (.expr role (.call callee args span)) n [.method head.toIndexable method values]
        (g₁ ++ g₂)
  | plainCall {role callee args span n value head values g₁ g₂} :
      callForm ctx.facts callee = .plain →
      Lowers ctx (.expr (some .callee) callee) n [value] g₁ →
      Lowers ctx (.operands [value] args) (n + g₁.temps) (head :: values) g₂ →
      Lowers ctx (.expr role (.call callee args span)) n [.call head.toIndexable values] (g₁ ++ g₂)
  | delete {role operand span n values g} :
      isDeletable operand = true →
      Lowers ctx (.expr (some .deleted) operand) n values g →
      Lowers ctx (.expr role (.delete operand span)) n values g
  | wrap {role wrapper inner span n values g} :
      Lowers ctx (.expr role inner) n values g →
      Lowers ctx (.expr role (.wrap wrapper inner span)) n values g
  | targetName {left text span n} :
      left.unwrap = .name text span → Lowers ctx (.target left) n [nameValue text] ∅
  | targetProperty {left object name nameSpan span n value g} :
      left.unwrap = .property object name nameSpan false span →
      Lowers ctx (.expr (some .operand) object) n [value] g →
      Lowers ctx (.target left) n [.property (saved (n + g.temps) value).1.toIndexable name]
        (g ++ (saved (n + g.temps) value).2)
  | targetElement {left object index span n a b g} :
      left.unwrap = .element object index false span →
      Lowers ctx (.operands [] [object, index]) n [a, b] g →
      Lowers ctx (.target left) n
        [.index (saved (n + g.temps) a).1.toIndexable
          (saved (n + (g ++ (saved (n + g.temps) a).2).temps) b).1]
        (g ++ (saved (n + g.temps) a).2 ++
          (saved (n + (g ++ (saved (n + g.temps) a).2).temps) b).2)
  | noOperand {earlier n} : Lowers ctx (.operands earlier []) n earlier ∅
  | operand {earlier e es n value values g₁ g₂} :
      Lowers ctx (.expr (some .operand) e) n [value] g₁ →
      Lowers ctx (.operands ((displaced (n + g₁.temps) earlier g₁.stmts).1 ++ [value]) es)
        (n + ((displaced (n + g₁.temps) earlier g₁.stmts).2 ++ g₁).temps) values g₂ →
      Lowers ctx (.operands earlier (e :: es)) n values
        ((displaced (n + g₁.temps) earlier g₁.stmts).2 ++ g₁ ++ g₂)

-- ════════════════════════════════════════════════════════════════════════
-- Derivations run
-- ════════════════════════════════════════════════════════════════════════

theorem lowerEach_eq_map (ctx : Context) (es : List Source.Expr) :
    lowerEach ctx es = es.map (lowerExpr ctx) := by
  induction es with
  | nil => rfl
  | cons e es ih => rw [lowerEach, ih]; rfl

theorem lowerParts_eq_map (ctx : Context) (parts : List (Source.Substitution Source.Expr)) :
    lowerParts ctx parts = (parts.map (·.expr)).map (lowerExpr ctx) := by
  induction parts with
  | nil => rfl
  | cons part parts ih => rw [lowerParts, ih]; rfl

theorem lowerReceiver_of_unwrap {ctx : Context} {callee object : Source.Expr} {name : String}
    {nameSpan span : Span} {optional : Bool}
    (h : callee.unwrap = .property object name nameSpan optional span) :
    lowerReceiver ctx callee = lowerExpr ctx object := by
  fun_induction Source.Expr.unwrap callee with
  | case1 _ inner _ ih => rw [lowerReceiver]; exact ih h
  | case2 callee _ => rw [h, lowerReceiver]; rfl

theorem lowerLocation_unwrap (ctx : Context) (written : Span) (left : Source.Expr) :
    lowerLocation ctx written left = lowerLocation ctx written left.unwrap := by
  fun_induction Source.Expr.unwrap left with
  | case1 _ inner _ ih => rw [lowerLocation]; exact ih
  | case2 left _ => rfl

/-- A head and its arguments, from the head's own run and the loop after it. -/
theorem run_withArgs {head : LowerM Expr} {ops : List (LowerM Expr)} {s : State}
    {value first : Expr} {rest : List Expr} {g₁ g₂ : Growth}
    (hhead : head.run s = (.ok value, s.grow g₁))
    (hargs : (sequenceAfter [value] ops).run (s.grow g₁) =
      (.ok (first :: rest), (s.grow g₁).grow g₂)) :
    (withArgs head ops).run s = (.ok (first, rest), s.grow (g₁ ++ g₂)) := by
  rw [← cons_argsAfter (value, []) ops, LowerM.run_map_eq_ok] at hargs
  obtain ⟨⟨first', rest'⟩, hrun, heq⟩ := hargs
  obtain ⟨rfl, rfl⟩ := List.cons.inj heq
  rw [withArgs, LowerM.run_bind_ok hhead, hrun, State.grow_append]

theorem run_countLogical (s : State) : countLogical.run s = (.ok (), s.grow .oneLogical) := by
  simp [countLogical, State.grow, Growth.oneLogical]

theorem run_countChain (s : State) : countChain.run s = (.ok (), s.grow .oneChain) := by
  simp [countChain, State.grow, Growth.oneChain]

/-- Two operands, from the loop over the list of them. -/
theorem run_both {ctx : Context} {left right : Source.Expr} {s t : State} {a b : Expr}
    (h : (sequenceAfter [] ([left, right].map (lowerExpr ctx))).run s = (.ok [a, b], t)) :
    (both (inRole .operand (lowerNode ctx left)) (inRole .operand (lowerNode ctx right))).run s =
      (.ok (a, b), t) := by
  change (sequence [lowerExpr ctx left, lowerExpr ctx right]).run s = _ at h
  rw [← pair_both, LowerM.run_map_eq_ok] at h
  obtain ⟨⟨a', b'⟩, hrun, heq⟩ := h
  obtain ⟨rfl, rfl⟩ : a' = a ∧ b' = b := by simpa using heq
  exact hrun

/-- The runs that a derivation stands for. -/
def Job.Runs (ctx : Context) (s : State) (values : List Expr) (g : Growth) : Job → Prop
  | .expr role e =>
    s.role? = role → ∃ value, values = [value] ∧ (lowerNode ctx e).run s = (.ok value, s.grow g)
  | .target left =>
    ∀ written, ∃ location : Location, values = [location.toExpr] ∧
      (lowerLocation ctx written left).run s = (.ok location, s.grow g)
  | .operands earlier es =>
    (sequenceAfter earlier (es.map (lowerExpr ctx))).run s = (.ok values, s.grow g)

/-- An operand's derivation, run as that of a child. -/
theorem Job.Runs.inRole {ctx : Context} {s : State} {role : Role} {e : Source.Expr} {value : Expr}
    {g : Growth} (hrole : (s.enter role).role? = some role)
    (h : (Job.expr (some role) e).Runs ctx (s.enter role) [value] g) :
    (Lowering.inRole role (lowerNode ctx e)).run s = (.ok value, s.grow g) := by
  obtain ⟨value', heq, hrun⟩ := h hrole
  obtain rfl : value = value' := by simpa using heq
  exact run_inRole_grow hrun

theorem Lowers.runs {ctx : Context} {job : Job} {n : Nat} {values : List Expr} {g : Growth}
    (h : Lowers ctx job n values g) (s : State) (hn : s.nextTemp = n) :
    job.Runs ctx s values g := by
  induction h generalizing s with
  | name => exact fun _ => ⟨_, rfl, by simp [lowerNode]⟩
  | literal => exact fun _ => ⟨_, rfl, by simp [lowerNode]⟩
  | template _ ih =>
    refine fun _ => ⟨_, rfl, ?_⟩
    rw [lowerNode, lowerParts_eq_map, sequence, LowerM.run_bind_ok (ih s hn)]
    rfl
  | simple hop _ ih =>
    refine fun _ => ⟨_, rfl, ?_⟩
    rw [lowerNode, hop]
    exact LowerM.run_bind_ok (run_both (ih s hn)) _
  | logical hop _ ih =>
    have hrun := run_both (ih (s.grow .oneLogical) hn)
    refine fun _ => ⟨_, rfl, ?_⟩
    rw [lowerNode, hop]
    dsimp only
    rw [Lowering.logical, LowerM.run_bind_ok (run_countLogical s), LowerM.run_bind_ok hrun,
      State.grow_append]
    rfl
  | @assign _ left _ _ _ _ _ _ g₁ _ hop _ _ hplace ihleft ihright =>
    obtain ⟨location, heq, hloc⟩ := ihleft s hn left.span
    obtain rfl := List.singleton_inj.1 heq
    have hval := (ihright ((s.grow g₁).enter .operand) (by simp [hn])).inRole rfl
    subst hn
    refine fun _ => ⟨_, rfl, ?_⟩
    rw [lowerNode, hop]
    dsimp only
    rw [assignValue, LowerM.run_bind_ok hloc, LowerM.run_bind_ok hval,
      LowerM.run_bind_ok (run_hoistUnlessAtom _ _), LowerM.run_bind_ok (run_assign hplace _ _ _)]
    simp [State.grow_append, Nat.add_assoc]
  | @compound _ left _ _ _ _ _ _ _ g₁ _ hop _ _ hplace ihleft ihright =>
    obtain ⟨location, heq, hloc⟩ := ihleft s hn left.span
    obtain rfl := List.singleton_inj.1 heq
    have hval := (ihright ((s.grow g₁).enter .operand) (by simp [hn])).inRole rfl
    refine fun _ => ⟨_, rfl, ?_⟩
    rw [lowerNode, hop]
    dsimp only
    rw [run_assignResult hloc hval hplace, State.grow_append, State.grow_append]
  | property _ ih =>
    have hval := (ih (s.enter .operand) hn).inRole rfl
    rintro rfl
    refine ⟨_, rfl, ?_⟩
    rw [lowerNode, LowerM.run_bind_ok hval, run_readProperty, State.grow_append]
    rfl
  | chainProperty _ ih =>
    have hval := (ih ((s.grow .oneChain).enter .operand) hn).inRole rfl
    subst hn
    rintro rfl
    refine ⟨_, rfl, ?_⟩
    rw [lowerNode, Lowering.chainProperty, LowerM.run_bind_ok (run_countChain s),
      LowerM.run_bind_ok hval, LowerM.run_bind_ok (run_hoistUnlessAtom _ _), run_readProperty,
      State.grow_append, State.grow_append, State.grow_append]
    rfl
  | element _ ih =>
    rintro rfl
    refine ⟨_, rfl, ?_⟩
    rw [lowerNode, LowerM.run_bind_ok (run_both (ih s hn))]
    dsimp only
    rw [run_readElement, State.grow_append]
    rfl
  | chainElement _ ih =>
    have hrun := run_both (ih (s.grow .oneChain) hn)
    rintro rfl
    refine ⟨_, rfl, ?_⟩
    rw [lowerNode, Lowering.chainElement, LowerM.run_bind_ok (run_countChain s),
      LowerM.run_bind_ok hrun]
    dsimp only
    rw [run_readElement, State.grow_append, State.grow_append]
    rfl
  | refusedCall hform =>
    refine fun _ => ⟨_, rfl, ?_⟩
    rw [lowerNode, hform]
    exact run_refuse _ _ s
  | @expandedCall _ _ _ _ _ expander _ _ _ _ _ _ head values g₁ g₂ _ _ hform hunwrap _ _ hexp
      ihobject ihargs =>
    have hhead := (ihobject (s.enter .operand) hn).inRole rfl
    have hrun := run_withArgs hhead (ihargs (s.grow g₁) (by simp [hn]))
    have happly := run_applyExpander expander head values (s.grow (g₁ ++ g₂))
    rw [State.grow_nextTemp, hn, hexp] at happly
    refine fun _ => ⟨_, rfl, ?_⟩
    rw [lowerNode, hform, lowerReceiver_of_unwrap hunwrap, lowerEach_eq_map, State.grow_append]
    exact (LowerM.run_bind_ok hrun _).trans happly
  | @methodCall _ _ _ _ _ _ _ _ _ _ _ _ _ _ g₁ _ hform hunwrap _ _ ihobject ihargs =>
    have hhead := (ihobject (s.enter .operand) hn).inRole rfl
    have hrun := run_withArgs hhead (ihargs (s.grow g₁) (by simp [hn]))
    refine fun _ => ⟨_, rfl, ?_⟩
    rw [lowerNode, hform, lowerReceiver_of_unwrap hunwrap, lowerEach_eq_map]
    exact LowerM.run_bind_ok hrun _
  | @plainCall _ _ _ _ _ _ _ _ g₁ _ hform _ _ ihcallee ihargs =>
    have hhead := (ihcallee (s.enter .callee) hn).inRole rfl
    have hrun := run_withArgs hhead (ihargs (s.grow g₁) (by simp [hn]))
    refine fun _ => ⟨_, rfl, ?_⟩
    rw [lowerNode, hform, lowerEach_eq_map]
    exact LowerM.run_bind_ok hrun _
  | delete hdel _ ih =>
    obtain ⟨value, rfl, hrun⟩ := ih (s.enter .deleted) hn rfl
    refine fun _ => ⟨value, rfl, ?_⟩
    rw [lowerNode, if_pos hdel]
    exact run_inRole_grow hrun
  | wrap _ ih =>
    intro hrole
    obtain ⟨value, rfl, hrun⟩ := ih (s.enter .wrapped) hn hrole
    refine ⟨value, rfl, ?_⟩
    rw [lowerNode]
    exact run_inRole_grow hrun
  | @targetName _ text _ _ hunwrap =>
    intro written
    rw [lowerLocation_unwrap, hunwrap, lowerLocation]
    exact ⟨⟨nameValue text, none⟩, rfl, by simp⟩
  | targetProperty hunwrap _ ih =>
    have hval := (ih (s.enter .operand) hn).inRole rfl
    subst hn
    intro written
    rw [lowerLocation_unwrap, hunwrap, lowerLocation, propertyLocation, LowerM.run_bind_ok hval,
      LowerM.run_bind_ok (run_hoistUnlessAtom _ _), State.grow_append]
    exact ⟨_, rfl, rfl⟩
  | targetElement hunwrap _ ih =>
    have hrun := run_both (ih s hn)
    subst hn
    intro written
    rw [lowerLocation_unwrap, hunwrap, lowerLocation, elementLocation, LowerM.run_bind_ok hrun]
    dsimp only
    rw [LowerM.run_bind_ok (run_hoistUnlessAtom _ _), LowerM.run_bind_ok (run_hoistUnlessAtom _ _),
      State.grow_append, State.grow_append]
    simp only [State.grow_nextTemp, Growth.append_temps, Nat.add_assoc]
    exact ⟨_, rfl, rfl⟩
  | noOperand => simp [Job.Runs, sequenceAfter]
  | @operand earlier e _ _ _ _ _ _ _ _ ihhead ihtail =>
    have hrun : (lowerExpr ctx e).run s.openFrame = _ :=
      (ihhead (s.openFrame.enter .operand) hn).inRole rfl
    have hstep := run_step hrun earlier
    rw [hn] at hstep
    have hrest := ihtail (s.grow _) (by rw [State.grow_nextTemp, hn])
    rw [Job.Runs, List.map_cons, sequenceAfter, State.grow_append]
    exact (LowerM.run_bind_ok hstep _).trans hrest

-- ════════════════════════════════════════════════════════════════════════
-- Successful runs have derivations
-- ════════════════════════════════════════════════════════════════════════

/-- Every successful run on an expression has a derivation. -/
def Derivable (ctx : Context) (e : Source.Expr) : Prop :=
  ∀ ⦃s t : State⦄ ⦃value : Expr⦄, (lowerNode ctx e).run s = (.ok value, t) →
    ∃ g, t = s.grow g ∧ Lowers ctx (.expr s.role? e) s.nextTemp [value] g

theorem Derivable.inRole {ctx : Context} {e : Source.Expr} (h : Derivable ctx e) {role : Role}
    {s t : State} {value : Expr}
    (hrun : (Lowering.inRole role (lowerNode ctx e)).run s = (.ok value, t)) :
    ∃ g, t = s.grow g ∧ Lowers ctx (.expr (s.enter role).role? e) s.nextTemp [value] g := by
  obtain ⟨u, hu⟩ := run_inRole_eq_ok hrun
  obtain ⟨g, rfl, hlow⟩ := h hu
  rw [run_inRole_grow hu] at hrun
  cases hrun
  exact ⟨g, rfl, hlow⟩

theorem lowers_of_run_operands {ctx : Context} {es : List Source.Expr}
    (h : ∀ e ∈ es, Derivable ctx e) {earlier values : List Expr} {s t : State}
    (hrun : (sequenceAfter earlier (es.map (lowerExpr ctx))).run s = (.ok values, t)) :
    ∃ g, t = s.grow g ∧ Lowers ctx (.operands earlier es) s.nextTemp values g := by
  induction es generalizing earlier s with
  | nil =>
    cases hrun
    exact ⟨∅, (State.grow_empty _).symm, .noOperand⟩
  | cons e es ih =>
    rw [List.map_cons, sequenceAfter, LowerM.run_bind_eq_ok] at hrun
    obtain ⟨result, u, hstep, hrest⟩ := hrun
    obtain ⟨value, v, hop⟩ := run_step_eq_ok hstep
    obtain ⟨g₁, rfl, hlow⟩ := (h e List.mem_cons_self).inRole hop
    rw [run_step hop] at hstep
    cases hstep
    obtain ⟨g₂, rfl, hlows⟩ := ih (fun d hd => h d (List.mem_cons_of_mem e hd)) hrest
    exact ⟨_, (State.grow_append ..).symm, .operand hlow hlows⟩

theorem lowers_of_run_both {ctx : Context} {left right : Source.Expr} (hleft : Derivable ctx left)
    (hright : Derivable ctx right) {s t : State} {result : Expr × Expr}
    (hrun : (both (inRole .operand (lowerNode ctx left))
      (inRole .operand (lowerNode ctx right))).run s = (.ok result, t)) :
    ∃ g, t = s.grow g ∧
      Lowers ctx (.operands [] [left, right]) s.nextTemp [result.1, result.2] g := by
  have hlist := LowerM.run_map_eq_ok (f := fun p : Expr × Expr => [p.1, p.2]).2 ⟨_, hrun, rfl⟩
  rw [pair_both] at hlist
  refine lowers_of_run_operands ?_ hlist
  simp only [List.mem_cons, List.not_mem_nil, or_false]
  rintro e (rfl | rfl)
  · exact hleft
  · exact hright

theorem lowers_of_run_withArgs {ctx : Context} {head : Source.Expr} {args : List Source.Expr}
    {role : Role} (hhead : Derivable ctx head) (hargs : ∀ e ∈ args, Derivable ctx e) {s t : State}
    {result : Expr × List Expr}
    (hrun : (withArgs (inRole role (lowerNode ctx head)) (lowerEach ctx args)).run s =
      (.ok result, t)) :
    ∃ value g₁ g₂, t = s.grow (g₁ ++ g₂) ∧
      Lowers ctx (.expr (s.enter role).role? head) s.nextTemp [value] g₁ ∧
      Lowers ctx (.operands [value] args) (s.nextTemp + g₁.temps) (result.1 :: result.2) g₂ := by
  rw [withArgs, LowerM.run_bind_eq_ok] at hrun
  obtain ⟨value, u, hvalue, hrest⟩ := hrun
  obtain ⟨g₁, rfl, hlow⟩ := hhead.inRole hvalue
  have hlist := LowerM.run_map_eq_ok (f := fun p : Expr × List Expr => p.1 :: p.2).2
    ⟨_, hrest, rfl⟩
  rw [cons_argsAfter, lowerEach_eq_map] at hlist
  obtain ⟨g₂, rfl, hlows⟩ := lowers_of_run_operands hargs hlist
  exact ⟨value, g₁, g₂, (State.grow_append ..).symm, hlow, hlows⟩

/-- A call is not a plain one only if a property is called. -/
theorem exists_unwrap_of_callForm {facts : Facts} {callee : Source.Expr}
    (h : callForm facts callee ≠ .plain) :
    ∃ object name nameSpan span, callee.unwrap = .property object name nameSpan false span := by
  rw [callForm] at h
  split at h
  · exact ⟨_, _, _, _, ‹_›⟩
  · exact absurd rfl h

theorem lowers_of_run_location {ctx : Context} {written : Span} {left : Source.Expr}
    (h : ∀ d, sizeOf d < sizeOf left.unwrap → Derivable ctx d) {s t : State} {location : Location}
    (hrun : (lowerLocation ctx written left).run s = (.ok location, t)) :
    ∃ g, t = s.grow g ∧ Lowers ctx (.target left) s.nextTemp [location.toExpr] g := by
  rw [lowerLocation_unwrap] at hrun
  cases hunwrap : left.unwrap with
  | name text span =>
    rw [hunwrap, lowerLocation] at hrun
    cases hrun
    exact ⟨∅, (State.grow_empty _).symm, .targetName hunwrap⟩
  | property object name nameSpan optional span =>
    cases optional with
    | true =>
      rw [hunwrap, lowerLocation] at hrun
      · cases hrun
      all_goals simp
    | false =>
      rw [hunwrap, lowerLocation, propertyLocation, LowerM.run_bind_eq_ok] at hrun
      obtain ⟨value, u, hvalue, hrest⟩ := hrun
      obtain ⟨g, rfl, hlow⟩ := (h object (by rw [hunwrap]; simp; omega)).inRole hvalue
      rw [LowerM.run_bind_ok (run_hoistUnlessAtom _ _)] at hrest
      cases hrest
      exact ⟨_, (State.grow_append ..).symm, .targetProperty hunwrap hlow⟩
  | element object index optional span =>
    cases optional with
    | true =>
      rw [hunwrap, lowerLocation] at hrun
      · cases hrun
      all_goals simp
    | false =>
      rw [hunwrap, lowerLocation, elementLocation, LowerM.run_bind_eq_ok] at hrun
      obtain ⟨⟨a, b⟩, u, hboth, hrest⟩ := hrun
      obtain ⟨g, rfl, hlow⟩ := lowers_of_run_both (h object (by rw [hunwrap]; simp; omega))
        (h index (by rw [hunwrap]; simp; omega)) hboth
      dsimp only at hrest
      rw [LowerM.run_bind_ok (run_hoistUnlessAtom _ _),
        LowerM.run_bind_ok (run_hoistUnlessAtom _ _), ← State.grow_append,
        ← State.grow_append] at hrest
      cases hrest
      refine ⟨_, rfl, ?_⟩
      have hrule := Lowers.targetElement hunwrap hlow
      simpa only [Location.toExpr, State.grow_nextTemp, Growth.append_temps, Nat.add_assoc]
        using hrule
  | wrap _ inner _ =>
    have hnone := left.isWrapper_unwrap
    rw [hunwrap] at hnone
    cases hnone
  | literal | template | binary | call | delete =>
    rw [hunwrap, lowerLocation] at hrun
    · cases hrun
    all_goals simp

theorem sizeOf_unwrap_le (e : Source.Expr) : sizeOf e.unwrap ≤ sizeOf e := by
  fun_induction Source.Expr.unwrap e with
  | case1 _ inner _ ih => simp; omega
  | case2 e _ => exact Nat.le_refl _

/-- An assignment, from the derivations of its parts. -/
theorem lowers_of_run_assignValue {ctx : Context} {left right : Source.Expr} {op : Source.Operator}
    {span : Span} (hop : operatorKind op span = .ok .assignment)
    (hleft : ∀ d, sizeOf d < sizeOf left.unwrap → Derivable ctx d) (hright : Derivable ctx right)
    {s t : State} {value : Expr}
    (hrun : (assignValue (lowerLocation ctx left.span left)
      (inRole .operand (lowerNode ctx right))).run s = (.ok value, t)) :
    ∃ g, t = s.grow g ∧
      Lowers ctx (.expr s.role? (.binary left op right span)) s.nextTemp [value] g := by
  rw [assignValue, LowerM.run_bind_eq_ok] at hrun
  obtain ⟨location, u, hlocation, hrest⟩ := hrun
  obtain ⟨g₁, rfl, htarget⟩ := lowers_of_run_location hleft hlocation
  rw [LowerM.run_bind_eq_ok] at hrest
  obtain ⟨value, u, hvalue, hrest⟩ := hrest
  obtain ⟨g₂, rfl, hlow⟩ := hright.inRole hvalue
  rw [LowerM.run_bind_ok (run_hoistUnlessAtom _ _), LowerM.run_bind_eq_ok] at hrest
  obtain ⟨_, u, hassign, hrest⟩ := hrest
  have hplace := isAssignable_of_run_assign hassign
  rw [run_assign hplace] at hassign
  cases hassign
  cases hrest
  simp only [State.grow_nextTemp, Nat.add_assoc]
  exact ⟨_, by simp only [State.grow_append]; rfl, .assign hop htarget hlow hplace⟩

/-- A compound assignment, from the derivations of its parts. -/
theorem lowers_of_run_assignResult {ctx : Context} {left right : Source.Expr}
    {op : Source.Operator} {span : Span} {calculation : Calculation}
    (hop : operatorKind op span = .ok (.compound calculation))
    (hleft : ∀ d, sizeOf d < sizeOf left.unwrap → Derivable ctx d) (hright : Derivable ctx right)
    {s t : State} {value : Expr}
    (hrun : (assignResult ctx.options calculation (lowerLocation ctx left.span left)
      (inRole .operand (lowerNode ctx right))).run s = (.ok value, t)) :
    ∃ g, t = s.grow g ∧
      Lowers ctx (.expr s.role? (.binary left op right span)) s.nextTemp [value] g := by
  have hparts := hrun
  rw [assignResult, LowerM.run_bind_eq_ok] at hparts
  obtain ⟨location, u, hlocation, hrest⟩ := hparts
  obtain ⟨g₁, rfl, htarget⟩ := lowers_of_run_location hleft hlocation
  rw [LowerM.run_bind_eq_ok] at hrest
  obtain ⟨operand, u, hvalue, hrest⟩ := hrest
  obtain ⟨g₂, rfl, hlow⟩ := hright.inRole hvalue
  have hplace : location.toExpr.isAssignable = true := by
    cases hcompound : (if ctx.options.keepCompound then compoundOp? calculation else none) with
    | some compound =>
      simp only [hcompound] at hrest
      obtain ⟨_, _, hassign, -⟩ := LowerM.run_bind_eq_ok.1 hrest
      exact isAssignable_of_run_assign hassign
    | none =>
      simp only [hcompound] at hrest
      obtain ⟨_, _, hassign, -⟩ := LowerM.run_bind_eq_ok.1 hrest
      exact isAssignable_of_run_assign hassign
  rw [run_assignResult hlocation hvalue hplace] at hrun
  cases hrun
  exact ⟨_, by simp only [State.grow_append], .compound hop htarget hlow hplace⟩

/-- A call, from the derivations of its parts. -/
theorem lowers_of_run_call {ctx : Context} {callee : Source.Expr} {args : List Source.Expr}
    {span : Span} (hcallee : Derivable ctx callee)
    (hreceiver : ∀ d, sizeOf d < sizeOf callee.unwrap → Derivable ctx d)
    (hargs : ∀ e ∈ args, Derivable ctx e) {s t : State} {value : Expr}
    (hrun : (call (callForm ctx.facts callee) (lowerReceiver ctx callee)
      (inRole .callee (lowerNode ctx callee)) (lowerEach ctx args)).run s = (.ok value, t)) :
    ∃ g, t = s.grow g ∧
      Lowers ctx (.expr s.role? (.call callee args span)) s.nextTemp [value] g := by
  have hmember (hform : callForm ctx.facts callee ≠ .plain) :
      ∃ object name nameSpan optional accessSpan,
        callee.unwrap = .property object name nameSpan optional accessSpan ∧
        lowerReceiver ctx callee = inRole .operand (lowerNode ctx object) ∧
        Derivable ctx object := by
    obtain ⟨object, name, nameSpan, accessSpan, hunwrap⟩ := exists_unwrap_of_callForm hform
    exact ⟨object, name, nameSpan, false, accessSpan, hunwrap, lowerReceiver_of_unwrap hunwrap,
      hreceiver object (by rw [hunwrap]; simp; omega)⟩
  cases hform : callForm ctx.facts callee with
  | refused object =>
    rw [hform, call, run_refuse] at hrun
    cases hrun
    exact ⟨_, rfl, .refusedCall hform⟩
  | expanded expander =>
    obtain ⟨object, _, _, _, _, hunwrap, hrec, hobject⟩ := hmember (by simp [hform])
    rw [hform, call, hrec, LowerM.run_bind_eq_ok] at hrun
    obtain ⟨⟨head, values⟩, u, hboth, hrest⟩ := hrun
    obtain ⟨_, g₁, g₂, rfl, hlow, hlows⟩ := lowers_of_run_withArgs hobject hargs hboth
    have happly := run_applyExpander expander head values (s.grow (g₁ ++ g₂))
    dsimp only at hrest
    cases hexp : expansion (s.grow (g₁ ++ g₂)).nextTemp head values expander with
    | none =>
      rw [hexp] at happly
      obtain ⟨failure, hfail⟩ := happly
      rw [hfail] at hrest
      cases hrest
    | some result =>
      rw [hexp] at happly
      rw [happly] at hrest
      cases hrest
      exact ⟨_, (State.grow_append ..).symm, .expandedCall hform hunwrap hlow hlows hexp⟩
  | method name =>
    obtain ⟨object, _, _, _, _, hunwrap, hrec, hobject⟩ := hmember (by simp [hform])
    rw [hform, call, hrec, LowerM.run_bind_eq_ok] at hrun
    obtain ⟨⟨head, values⟩, u, hboth, hrest⟩ := hrun
    obtain ⟨_, g₁, g₂, rfl, hlow, hlows⟩ := lowers_of_run_withArgs hobject hargs hboth
    cases hrest
    exact ⟨_, rfl, .methodCall hform hunwrap hlow hlows⟩
  | plain =>
    rw [hform, call, LowerM.run_bind_eq_ok] at hrun
    obtain ⟨⟨head, values⟩, u, hboth, hrest⟩ := hrun
    obtain ⟨_, g₁, g₂, rfl, hlow, hlows⟩ := lowers_of_run_withArgs hcallee hargs hboth
    cases hrest
    exact ⟨_, rfl, .plainCall hform hlow hlows⟩

/-- Every successful run on an expression has a derivation. -/
theorem lowers_of_run (ctx : Context) : ∀ e, Derivable ctx e
  | .name text span => by
    intro s t value hrun
    rw [lowerNode] at hrun
    cases hrun
    exact ⟨∅, (State.grow_empty _).symm, .name⟩
  | .literal literal span => by
    intro s t value hrun
    rw [lowerNode] at hrun
    cases hrun
    exact ⟨∅, (State.grow_empty _).symm, .literal⟩
  | .template head parts span => by
    intro s t value hrun
    rw [lowerNode, LowerM.run_bind_eq_ok, lowerParts_eq_map] at hrun
    obtain ⟨values, u, hvalues, hrest⟩ := hrun
    have hparts : ∀ e ∈ parts.map (·.expr), Derivable ctx e := fun e he =>
      have hlt : sizeOf e < 1 + sizeOf head + sizeOf parts + sizeOf span := by
        obtain ⟨part, hpart, rfl⟩ := List.mem_map.1 he
        have := List.sizeOf_lt_of_mem hpart
        have : sizeOf part = 1 + sizeOf part.expr + sizeOf part.text + sizeOf part.span := by
          cases part; rfl
        omega
      lowers_of_run ctx e
    obtain ⟨g, rfl, hlow⟩ := lowers_of_run_operands hparts hvalues
    cases hrest
    exact ⟨g, rfl, .template hlow⟩
  | .binary left op right span => by
    intro s t value hrun
    have hlt (d : Source.Expr) (hd : sizeOf d < sizeOf left.unwrap) : sizeOf d < sizeOf left :=
      Nat.lt_of_lt_of_le hd (sizeOf_unwrap_le left)
    rw [lowerNode] at hrun
    rcases hop : operatorKind op span with f | kind
    · rw [hop] at hrun
      cases hrun
    · cases kind with
      | refused replacement =>
        rw [hop] at hrun
        cases hrun
      | logical =>
        rw [hop] at hrun
        dsimp only at hrun
        rw [logical, LowerM.run_bind_ok (run_countLogical s), LowerM.run_bind_eq_ok] at hrun
        obtain ⟨values, u, hboth, hrest⟩ := hrun
        obtain ⟨g, rfl, hlow⟩ :=
          lowers_of_run_both (lowers_of_run ctx left) (lowers_of_run ctx right) hboth
        cases hrest
        exact ⟨_, (State.grow_append ..).symm, .logical hop hlow⟩
      | assignment =>
        rw [hop] at hrun
        exact lowers_of_run_assignValue hop
          (fun d hd => have := hlt d hd; lowers_of_run ctx d) (lowers_of_run ctx right) hrun
      | compound calculation =>
        rw [hop] at hrun
        exact lowers_of_run_assignResult hop
          (fun d hd => have := hlt d hd; lowers_of_run ctx d) (lowers_of_run ctx right) hrun
      | simple form =>
        rw [hop] at hrun
        dsimp only at hrun
        rw [LowerM.run_bind_eq_ok] at hrun
        obtain ⟨values, u, hboth, hrest⟩ := hrun
        obtain ⟨g, rfl, hlow⟩ :=
          lowers_of_run_both (lowers_of_run ctx left) (lowers_of_run ctx right) hboth
        cases hrest
        exact ⟨_, rfl, .simple hop hlow⟩
  | .property object name nameSpan false span => by
    intro s t value hrun
    rw [lowerNode, LowerM.run_bind_eq_ok] at hrun
    obtain ⟨value, u, hvalue, hrest⟩ := hrun
    obtain ⟨g, rfl, hlow⟩ := (lowers_of_run ctx object).inRole hvalue
    rw [run_readProperty] at hrest
    cases hrest
    exact ⟨_, (State.grow_append ..).symm, .property hlow⟩
  | .property object name nameSpan true span => by
    intro s t value hrun
    rw [lowerNode, chainProperty, LowerM.run_bind_ok (run_countChain s),
      LowerM.run_bind_eq_ok] at hrun
    obtain ⟨value, u, hvalue, hrest⟩ := hrun
    obtain ⟨g, rfl, hlow⟩ := (lowers_of_run ctx object).inRole hvalue
    rw [LowerM.run_bind_ok (run_hoistUnlessAtom _ _), run_readProperty] at hrest
    cases hrest
    exact ⟨_, by simp only [State.grow_append]; rfl, .chainProperty hlow⟩
  | .element object index false span => by
    intro s t value hrun
    rw [lowerNode, LowerM.run_bind_eq_ok] at hrun
    obtain ⟨values, u, hboth, hrest⟩ := hrun
    obtain ⟨g, rfl, hlow⟩ :=
      lowers_of_run_both (lowers_of_run ctx object) (lowers_of_run ctx index) hboth
    dsimp only at hrest
    rw [run_readElement] at hrest
    cases hrest
    exact ⟨_, (State.grow_append ..).symm, .element hlow⟩
  | .element object index true span => by
    intro s t value hrun
    rw [lowerNode, chainElement, LowerM.run_bind_ok (run_countChain s),
      LowerM.run_bind_eq_ok] at hrun
    obtain ⟨values, u, hboth, hrest⟩ := hrun
    obtain ⟨g, rfl, hlow⟩ :=
      lowers_of_run_both (lowers_of_run ctx object) (lowers_of_run ctx index) hboth
    dsimp only at hrest
    rw [run_readElement] at hrest
    cases hrest
    exact ⟨_, by simp only [State.grow_append]; rfl, .chainElement hlow⟩
  | .call callee args span => by
    intro s t value hrun
    rw [lowerNode] at hrun
    refine lowers_of_run_call (lowers_of_run ctx callee) (fun d hd => ?_) (fun e he => ?_) hrun
    · have := sizeOf_unwrap_le callee
      exact lowers_of_run ctx d
    · have := List.sizeOf_lt_of_mem he
      exact lowers_of_run ctx e
  | .delete operand span => by
    intro s t value hrun
    rw [lowerNode] at hrun
    split at hrun
    · obtain ⟨g, rfl, hlow⟩ := (lowers_of_run ctx operand).inRole hrun
      exact ⟨g, rfl, .delete ‹_› hlow⟩
    · cases hrun
  | .wrap wrapper inner span => by
    intro s t value hrun
    rw [lowerNode] at hrun
    obtain ⟨g, rfl, hlow⟩ := (lowers_of_run ctx inner).inRole hrun
    exact ⟨g, rfl, .wrap hlow⟩
termination_by e => sizeOf e
decreasing_by all_goals simp_wf; omega

-- ════════════════════════════════════════════════════════════════════════
-- Uniqueness, and expressions on their own
-- ════════════════════════════════════════════════════════════════════════

/-- An expression in a role that counts lowers in one way only. -/
theorem Lowers.unique {ctx : Context} {role : Role} {e : Source.Expr} {n : Nat}
    {values values' : List Expr} {g g' : Growth} (hrole : role ≠ .wrapped)
    (h : Lowers ctx (.expr (some role) e) n values g)
    (h' : Lowers ctx (.expr (some role) e) n values' g') : values = values' ∧ g = g' := by
  let s : State := { State.initial with nextTemp := n, roles := [role] }
  have hs : s.role? = some role := State.role?_enter hrole { State.initial with nextTemp := n }
  obtain ⟨value, rfl, hrun⟩ := h.runs s rfl hs
  obtain ⟨value', rfl, hrun'⟩ := h'.runs s rfl hs
  obtain ⟨hvalue, hstate⟩ := Prod.mk.inj (hrun.symm.trans hrun')
  obtain rfl := Except.ok.inj hvalue
  exact ⟨rfl, State.grow_injective s hstate⟩

/-- What is given out for an expression with the given value. -/
def Growth.output (g : Growth) (value : Expr) : Output :=
  ⟨g.stmts, value, g.diagnostics, g.logicals, g.chains⟩

/-- An expression on its own lowers as it does as an operand, with no temporaries taken before. -/
theorem lowerAlone_eq_ok_iff {ctx : Context} {e : Source.Expr} {out : Output} :
    lowerAlone ctx e = .ok out ↔
      ∃ value g, Lowers ctx (.expr (some .operand) e) 0 [value] g ∧ out = g.output value := by
  have hgrow (value : Expr) (g : Growth)
      (hrun : (lowerExpr ctx e).run State.initial.openFrame =
        (.ok value, State.initial.openFrame.grow g)) :
      lowerAlone ctx e = .ok (g.output value) := by
    rw [lowerAlone, lowerInFrame, run_inFrame_grow hrun]
    simp [State.grow, State.initial, Except.map, Growth.output, Growth.withoutStmts]
  constructor
  · intro h
    rcases hrun : (lowerExpr ctx e).run State.initial.openFrame with ⟨failure | value, t⟩
    · rw [lowerAlone, lowerInFrame, run_inFrame, hrun] at h
      cases h
    · obtain ⟨g, rfl, hlow⟩ := (lowers_of_run ctx e).inRole hrun
      rw [hgrow value g hrun] at h
      cases h
      exact ⟨value, g, hlow, rfl⟩
  · rintro ⟨value, g, hlow, rfl⟩
    exact hgrow value g ((hlow.runs (State.initial.openFrame.enter .operand) rfl).inRole rfl)

end ExprLowering.Lowering
