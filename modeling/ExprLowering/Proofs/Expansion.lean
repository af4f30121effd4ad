import ExprLowering.Proofs.Failures
import ExprLowering.Proofs.Preservation
import ExprLowering.Proofs.Renumber

/-!
# Compound assignments and their expansions

A compound assignment `x op= e` to a name should do what `x = x op e` does. Both run the statements
of `e` and then calculate. The expansion reads `x` before these statements, since it is an operand
before `e`; the compound assignment reads `x` in its last statement, after them.

```text
x += (x = 5)    becomes    x = 5              x = x + (x = 5)    becomes    local _0 = x
                           x += 5                                           x = 5
                                                                            local _1 = _0 + 5
                                                                            x = _1
```

## Main definitions

* `calculated`: a calculation on an old value and on what a pending expression yields.
* `Expands`: what a compound assignment and its expansion have in common.

## Main results

* `result_compound`, `result_expansion`: what the two do, on the one hand with the value that the
  name has after the statements of `e`, and on the other with the value that it has before them.
* `compound_does_as_expanded`: they do the same whenever `e` leaves the value of the name alone.
-/

namespace ExprLowering.Lowering

open Source (Calculation)
open Target

variable {V W : Type} {ctx : Context}

-- ════════════════════════════════════════════════════════════════════════
-- Calculations at run time
-- ════════════════════════════════════════════════════════════════════════

/-- The store in which the operands of a calculation are evaluated. A function for bits is looked up
before them. -/
def operandStore (I : Interp V W) (op : Calculation) (s : Store V W) : Store V W :=
  match op with
  | .arithmetic _ => s
  | .bitwise b => (I.read (I.lookup "bit32" s) (.name (bitName b)) s).2

/-- A calculation on an old value and on what `new` yields. -/
def calculated (I : Interp V W) (op : Calculation) (old : V) (new : Store V W → V × Store V W)
    (s : Store V W) : V × Store V W :=
  match op with
  | .arithmetic a => I.arithmetic a old (new s).1 (new s).2
  | .bitwise b =>
    let function := I.read (I.lookup "bit32" s) (.name (bitName b)) s
    I.call function.1 [old, (new function.2).1] (new function.2).2

/-- A value is given to a name, and is the result. -/
def assignedTo (x : String) (r : V × Store V W) : V × Store V W := (r.1, r.2.bind x r.1)

theorem eval_build (I : Interp V W) (op : Calculation) (τ : Nat → V) {old : Expr}
    (hold : old.isAtom = true) (new : Expr) (s : Store V W) :
    eval I τ ((calculationForm op).build old new) s =
      calculated I op (eval I τ old (operandStore I op s)).1 (eval I τ new) s := by
  cases op with
  | arithmetic a =>
    simp only [calculationForm, SimpleForm.build, eval, calculated, operandStore,
      eval_atom hold I τ s, binary_arithmeticOp]
  | bitwise b =>
    simp only [calculationForm, SimpleForm.build, eval, evalAll, calculated, operandStore,
      eval_atom hold I τ, name_bitFunction]

theorem lookup_bind {I : Interp V W} {x : String} (hx : I.fixed x = none) (v : V)
    (s : Store V W) : I.lookup x (s.bind x v) = v := by
  simp [Interp.lookup, hx, Store.bind]

/-- A compound assignment to a name reads it where its operands are evaluated. -/
theorem exec_compoundStmt (I : Interp V W) (options : Options) (op : Calculation) (x : String)
    (value : Expr) (m : Machine V W) :
    exec I (compoundStmt options op (.name x) value) m =
      ⟨m.temps, (assignedTo x (calculated I op (I.lookup x (operandStore I op m.store))
        (eval I m.temps value) m.store)).2⟩ := by
  cases op with
  | arithmetic a => exact exec_compoundStmt_name I options a x value m
  | bitwise b =>
    have hset : compoundStmt options (.bitwise b) (.name x) value =
        .assign (.name x) .set ((calculationForm (.bitwise b)).build (.name x) value) := by
      cases hkeep : options.keepCompound <;> simp [compoundStmt, compoundOp?, hkeep]
    rw [hset, exec_set rfl, eval_build I _ _ rfl]
    rfl

-- ════════════════════════════════════════════════════════════════════════
-- The name as an operand
-- ════════════════════════════════════════════════════════════════════════

/-- What stands for a name that is an operand before other statements, and what saves it. -/
def heldName (x : String) (n : Nat) (stmts : List Stmt) : Expr × Growth :=
  if stmts.isEmpty then (.name x, ∅) else (.temp ⟨n⟩, .declaring n (.name x))

theorem displaced_name (x : String) (n : Nat) (stmts : List Stmt) :
    displaced n [.name x] stmts = ([(heldName x n stmts).1], (heldName x n stmts).2) := by
  cases stmts with
  | nil => rfl
  | cons stmt stmts =>
    rw [displaced_cons, settleAll_cons_unsettled rfl]
    simp [heldName]

theorem isAtom_heldName (x : String) (n : Nat) (stmts : List Stmt) :
    (heldName x n stmts).1.isAtom = true := by
  rw [heldName]
  split
  · rfl
  · rfl

theorem diagnostics_heldName (x : String) (n : Nat) (stmts : List Stmt) :
    (heldName x n stmts).2.diagnostics = [] := by
  rw [heldName]
  split
  · rfl
  · rfl

/-- Holding a name changes nothing for the statements after it, and keeps its value if there are
any. -/
theorem run_heldName {n : Nat} {value : Expr} {g : Growth} (htidy : Tidy [] n [value] g)
    (I : Interp V W) (x : String) (m : Machine V W) :
    let later := execAll I g.stmts (execAll I (heldName x (n + g.temps) g.stmts).2.stmts m)
    later.store = (execAll I g.stmts m).store ∧
      eval I later.temps value = eval I (execAll I g.stmts m).temps value ∧
      ∀ s, (eval I later.temps (heldName x (n + g.temps) g.stmts).1 s).1 =
        if g.stmts.isEmpty then I.lookup x s else I.lookup x m.store := by
  by_cases hnone : g.stmts.isEmpty = true
  · simp only [heldName, hnone, if_true]
    exact ⟨rfl, rfl, fun s => rfl⟩
  · simp only [heldName, hnone, Bool.false_eq_true, if_false]
    -- The statements neither read nor declare the temporary that holds the name.
    have hagree : AgreeOn (fun _ => False)
        (execAll I (Growth.declaring (n + g.temps) (.name x)).stmts m) m :=
      ⟨rfl, fun _ => False.elim⟩
    have hend := execAll_agree I (htidy.inScope.readsOnly.mono (by simp)) hagree
    have hvalue := eval_congr I value fun t ht =>
      hend.temps_eq t (.inr (by simpa using htidy.values_subset (by simpa using ht)))
    refine ⟨hend.store_eq, hvalue, fun s => ?_⟩
    have hnew : n + g.temps ∉ declared g.stmts := by
      intro hmem
      have := (htidy.mem_declared.1 hmem).2
      omega
    rw [eval, execAll_temps I htidy.inScope.keepsTemps hnew]
    simp [Growth.declaring, exec, eval]

-- ════════════════════════════════════════════════════════════════════════
-- Both forms
-- ════════════════════════════════════════════════════════════════════════

theorem failures_compound {x : String} (hx : x ≠ "undefined") (form : Source.Expr → CallForm)
    (op : Calculation) (e : Source.Expr) (s₁ s₂ : Span) :
    failures form (.binary (.name x s₁) (.assignWith op) e s₂) = failures form e := by
  simp [failures, targetFailures, operatorFailures, writeFailures, isNamed, hx,
    Source.Operator.isAssignment]

theorem failures_expansion {x : String} (hx : x ≠ "undefined") (form : Source.Expr → CallForm)
    (op : Calculation) (e : Source.Expr) (s₁ s₂ s₃ s₄ : Span) :
    failures form (.binary (.name x s₁) .assign (.binary (.name x s₂) (.calculation op) e s₃) s₄) =
      failures form e := by
  simp [failures, targetFailures, operatorFailures, writeFailures, isNamed, hx,
    Source.Operator.isAssignment]

theorem Lowers.compound_name {role : Option Role} {x : String} {op : Calculation}
    {e : Source.Expr} {n : Nat} {value : Expr} {g : Growth} (hx : x ≠ "undefined")
    (h : Lowers ctx (.expr (some .operand) e) n [value] g) (s₁ s₂ : Span) :
    Lowers ctx (.expr role (.binary (.name x s₁) (.assignWith op) e s₂)) n [.name x]
      (g ++ .ofStmts [compoundStmt ctx.options op (.name x) value]) := by
  have hname : nameValue x = .name x := if_neg hx
  have htarget : Lowers ctx (.target (.name x s₁)) n [nameValue x] ∅ := .targetName rfl
  rw [hname] at htarget
  have hcompound : Lowers ctx (.expr role (.binary (.name x s₁) (.assignWith op) e s₂)) n _ _ :=
    .compound rfl htarget h rfl
  simpa only [Growth.empty_append] using hcompound

/-- The expansion holds the name, runs the statements of the right side, saves the result of the
calculation and assigns it. -/
theorem Lowers.expansion {role : Option Role} {x : String} {op : Calculation} {e : Source.Expr}
    {n : Nat} {value : Expr} {g : Growth} (hx : x ≠ "undefined")
    (h : Lowers ctx (.expr (some .operand) e) n [value] g) (s₁ s₂ s₃ s₄ : Span) :
    let held := heldName x (n + g.temps) g.stmts
    let result : Temp := ⟨n + (held.2 ++ g).temps⟩
    Lowers ctx
      (.expr role (.binary (.name x s₁) .assign (.binary (.name x s₂) (.calculation op) e s₃) s₄)) n
      [.temp result]
      (held.2 ++ g ++ .declaring result.id ((calculationForm op).build held.1 value) ++
        .ofStmts [.assign (.name x) .set (.temp result)]) := by
  intro held result
  have hname : nameValue x = .name x := if_neg hx
  have hmoved := displaced_name x (n + g.temps) g.stmts
  have hlast : Lowers ctx (.operands [.name x] [e]) n [held.1, value] (held.2 ++ g) :=
    (Lowers.operand h .noOperand).cast rfl (by simp [hmoved, held]) (by simp [hmoved, held])
  have hoperands : Lowers ctx (.operands [] [.name x s₂, e]) n [held.1, value] (held.2 ++ g) := by
    rw [← hname] at hlast
    exact (Lowers.operand .name hlast).cast rfl rfl (by simp)
  have hright : Lowers ctx (.expr (some .operand) (.binary (.name x s₂) (.calculation op) e s₃)) n
      [(calculationForm op).build held.1 value] (held.2 ++ g) := .simple rfl hoperands
  have hcomplex : ((calculationForm op).build held.1 value).isAtom = false := by
    cases op with
    | arithmetic a => rfl
    | bitwise b => rfl
  have htarget : Lowers ctx (.target (.name x s₁)) n [nameValue x] ∅ := .targetName rfl
  rw [hname] at htarget
  have hassign : Lowers ctx (.expr role (.binary (.name x s₁) .assign _ s₄)) n _ _ :=
    .assign rfl htarget hright rfl
  simpa only [saved_complex hcomplex, Growth.empty_append] using hassign

-- ════════════════════════════════════════════════════════════════════════
-- What both forms do
-- ════════════════════════════════════════════════════════════════════════

/-- The value that a name has after the statements of the right side, where a calculation reads
it. -/
def lateValue (I : Interp V W) (x : String) (op : Calculation) (stmts : List Stmt)
    (m : Machine V W) : V :=
  I.lookup x (operandStore I op (execAll I stmts m).store)

/-- The statements of the right side run, the pending value is combined with an old one, and the
name gets the result. -/
def combined (I : Interp V W) (x : String) (op : Calculation) (stmts : List Stmt) (value : Expr)
    (m : Machine V W) (old : V) : V × Store V W :=
  assignedTo x (calculated I op old (eval I (execAll I stmts m).temps value)
    (execAll I stmts m).store)

theorem result_compound {I : Interp V W} {x : String} (hx : I.fixed x = none) (options : Options)
    (op : Calculation) (stmts : List Stmt) (value : Expr) (m : Machine V W) :
    result I (stmts ++ [compoundStmt options op (.name x) value]) (.name x) m =
      combined I x op stmts value m (lateValue I x op stmts m) := by
  rw [result, execAll_append, execAll_cons, execAll_nil, exec_compoundStmt, eval, assignedTo,
    lookup_bind hx]
  rfl

theorem result_expansion {n : Nat} {value : Expr} {g : Growth} (htidy : Tidy [] n [value] g)
    (I : Interp V W) (x : String) (op : Calculation) (temp : Temp) (m : Machine V W) :
    result I ((heldName x (n + g.temps) g.stmts).2.stmts ++ g.stmts ++
        [.declare temp ((calculationForm op).build (heldName x (n + g.temps) g.stmts).1 value)] ++
        [.assign (.name x) .set (.temp temp)]) (.temp temp) m =
      combined I x op g.stmts value m
        (if g.stmts.isEmpty then lateValue I x op g.stmts m else I.lookup x m.store) := by
  obtain ⟨hstore, hvalue, hheld⟩ := run_heldName htidy I x m
  have hatom := isAtom_heldName x (n + g.temps) g.stmts
  rw [result, execAll_append, execAll_append, execAll_append, execAll_cons, execAll_nil,
    execAll_cons, execAll_nil, exec_set rfl]
  simp only [exec, eval_build I op _ hatom, hvalue, hstore, hheld, eval, save,
    Function.update_self]
  rfl

/-- A compound assignment and its expansion, where the right side has the given statements and
value. The one combines the value that the name has after these statements, and the other the value
that it has before them, if there are any. -/
def Expands (x : String) (op : Calculation) (right compound expansion : Output) : Prop :=
  ∀ (V W : Type) (I : Interp V W), I.fixed x = none → ∀ m : Machine V W,
    result I compound.stmts compound.value m =
        combined I x op right.stmts right.value m (lateValue I x op right.stmts m) ∧
      result I expansion.stmts expansion.value m =
        combined I x op right.stmts right.value m
          (if right.stmts.isEmpty then lateValue I x op right.stmts m else I.lookup x m.store)

theorem Expands.result_eq {x : String} {op : Calculation} {right compound expansion : Output}
    (h : Expands x op right compound expansion) {I : Interp V W} (hx : I.fixed x = none)
    {m : Machine V W}
    (hkept : right.stmts = [] ∨ lateValue I x op right.stmts m = I.lookup x m.store) :
    result I compound.stmts compound.value m = result I expansion.stmts expansion.value m := by
  obtain ⟨hcompound, hexpansion⟩ := h V W I hx m
  rw [hcompound, hexpansion]
  rcases hkept with hnone | hsame
  · rw [hnone]
    rfl
  · rw [hsame, ite_self]

/-- If the right side fails to lower, a compound assignment to a name and its expansion fail with
the same failure. If it lowers, both lower, with its diagnostics. Then, under every interpretation,
they give the same value and end in the same store whenever the right side has no statements of its
own or its statements leave the value of the name alone. -/
theorem compound_does_as_expanded {ctx : Context} {x : String} (hx : x ≠ "undefined")
    (op : Calculation) (e : Source.Expr) (s₁ s₂ s₃ s₄ s₅ s₆ : Span) :
    let compound : Source.Expr := .binary (.name x s₁) (.assignWith op) e s₂
    let expansion : Source.Expr :=
      .binary (.name x s₃) .assign (.binary (.name x s₄) (.calculation op) e s₅) s₆
    (∀ failure, lowerAlone ctx e = .error failure →
      lowerAlone ctx compound = .error failure ∧ lowerAlone ctx expansion = .error failure) ∧
    ∀ right, lowerAlone ctx e = .ok right →
      ∃ a b, lowerAlone ctx compound = .ok a ∧ lowerAlone ctx expansion = .ok b ∧
        a.diagnostics = right.diagnostics ∧ b.diagnostics = right.diagnostics ∧
        Expands x op right a b ∧
        ∀ (V W : Type) (I : Interp V W), I.fixed x = none → ∀ m : Machine V W,
          right.stmts = [] ∨ lateValue I x op right.stmts m = I.lookup x m.store →
            result I a.stmts a.value m = result I b.stmts b.value m := by
  intro compound expansion
  constructor
  · intro failure hfailure
    rw [← failure?_eq_some, failure?_lowerAlone] at hfailure
    constructor
    · rw [← failure?_eq_some, failure?_lowerAlone, failures_compound hx, hfailure]
    · rw [← failure?_eq_some, failure?_lowerAlone, failures_expansion hx, hfailure]
  · intro right hright
    obtain ⟨value, g, hvalue, rfl⟩ := lowerAlone_eq_ok_iff.1 hright
    refine ⟨_, _, lowerAlone_eq_ok_iff.2 ⟨_, _, hvalue.compound_name hx s₁ s₂, rfl⟩,
      lowerAlone_eq_ok_iff.2 ⟨_, _, hvalue.expansion hx s₃ s₄ s₅ s₆, rfl⟩, ?_, ?_, ?_⟩
    · simp [Growth.output, Growth.ofStmts]
    · simp [Growth.output, Growth.declaring, Growth.ofStmts, diagnostics_heldName]
    · suffices hexpands : Expands x op _ _ _ from
        ⟨hexpands, fun V W I hfixed m hkept => hexpands.result_eq hfixed hkept⟩
      exact fun V W I hfixed m =>
        ⟨result_compound hfixed ctx.options op g.stmts value m,
          result_expansion (hvalue.tidy Tidy.nil_lt) I x op ⟨_⟩ m⟩

/-- In `x += (y = f())` the right side has statements, which leave `x` alone. In `x += (y == z)` the
right side fails. -/
theorem compound_after_other_write :
    let place (column : Nat) : Span := .point 1 column
    let ctx : Context := ⟨Facts.empty, default⟩
    let m : Machine Nat (List Nat) := ⟨fun _ => 7, ⟨fun _ => 3, []⟩⟩
    let write : Source.Expr :=
      .binary (.name "y" (place 1)) .assign (.call (.name "f" (place 2)) [] (place 3)) (place 4)
    let loose : Source.Expr :=
      .binary (.name "y" (place 1)) .looseEq (.name "z" (place 2)) (place 3)
    (∃ a b, lowerAlone ctx (.binary (.name "x" (place 5)) (.assignWith (.arithmetic .add)) write
          (place 6)) = .ok a ∧
        lowerAlone ctx (.binary (.name "x" (place 5)) .assign
          (.binary (.name "x" (place 7)) (.calculation (.arithmetic .add)) write (place 8))
            (place 6)) = .ok b ∧
        result logInterp a.stmts a.value m = result logInterp b.stmts b.value m) ∧
      lowerAlone ctx (.binary (.name "x" (place 5)) (.assignWith (.arithmetic .add)) loose
        (place 6)) = .error (.fault (.operatorRefused "==" "===" (place 3))) := by
  intro place ctx m write loose
  have hx : "x" ≠ "undefined" := by decide
  constructor
  · obtain ⟨a, b, ha, hb, -, -, -, hsame⟩ := (compound_does_as_expanded hx (.arithmetic .add) write
      (place 5) (place 6) (place 5) (place 7) (place 8) (place 6)).2 _ rfl
    exact ⟨a, b, ha, hb, hsame _ _ logInterp rfl m (.inr rfl)⟩
  · exact ((compound_does_as_expanded hx (.arithmetic .add) loose (place 5) (place 6) (place 5)
      (place 7) (place 8) (place 6)).1 _ rfl).1

/-- In `x += (x = 5)` the old value of `x` is read after `x` was assigned to, and in its expansion
`x = x + (x = 5)` before. -/
theorem compound_reads_new_value :
    let place (column : Nat) : Span := .point 1 column
    let ctx : Context := ⟨Facts.empty, default⟩
    let m : Machine Nat (List Nat) := ⟨fun _ => 7, ⟨fun _ => 3, []⟩⟩
    let write : Source.Expr :=
      .binary (.name "x" (place 1)) .assign (.literal (.number "5") (place 2)) (place 3)
    ∃ a b, lowerAlone ctx (.binary (.name "x" (place 4)) (.assignWith (.arithmetic .add)) write
          (place 5)) = .ok a ∧
      lowerAlone ctx (.binary (.name "x" (place 4)) .assign
        (.binary (.name "x" (place 6)) (.calculation (.arithmetic .add)) write (place 7))
          (place 5)) = .ok b ∧
      a.stmts = [.assign (.name "x") .set (.number "5"), .assign (.name "x") .add (.number "5")] ∧
      a.value = .name "x" ∧
      b.stmts = [.declare ⟨0⟩ (.name "x"), .assign (.name "x") .set (.number "5"),
        .declare ⟨1⟩ (.binary (.temp ⟨0⟩) .add (.number "5")),
        .assign (.name "x") .set (.temp ⟨1⟩)] ∧
      b.value = .temp ⟨1⟩ ∧
      (result logInterp a.stmts a.value m).1 = 2 ∧ (result logInterp b.stmts b.value m).1 = 4 :=
  ⟨_, _, rfl, rfl, rfl, rfl, rfl, rfl, rfl, rfl⟩

end ExprLowering.Lowering
