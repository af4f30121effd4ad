import ExprLowering.Proofs.Semantics

/-!
# Pending values

The values of operands are pending until the expression that holds them is evaluated. When an
operand emits statements, the pending values before it are saved first. This file says what that
does at run time: it is the evaluation of the pending values, in order, at the point where they are
saved.

## Main definitions

* `Holds`: expressions that keep their values.
* `Realizes`: statements and a value that do what a function on stores does.

## Main results

* `execAll_settleAll`: saving pending values is evaluating them.
* `run_displaced`: one operand after pending values.
* `Lowers.results_operands`: the operands of an expression, one after the other.
-/

namespace ExprLowering.Lowering

open Target

variable {V W : Type}

/-- Statements with temporaries of their own leave those before alone. -/
theorem Tidy.temps_execAll {known : List Nat} {n : Nat} {values : List Expr} {g : Growth}
    (h : Tidy known n values g) (I : Interp V W) (m : Machine V W) {t : Nat} (ht : t < n) :
    (execAll I g.stmts m).temps t = m.temps t := by
  refine execAll_temps I h.inScope.keepsTemps (fun hmem => ?_) m
  have := (h.mem_declared.1 hmem).1
  omega

/-- Expressions whose evaluation gives the same values whenever it happens and changes nothing. -/
def Holds (I : Interp V W) (τ : Nat → V) (values : List Expr) (vs : List V) : Prop :=
  ∀ s, evalAll I τ values s = (vs, s)

theorem Holds.congr {I : Interp V W} {τ σ : Nat → V} {values : List Expr} {vs : List V}
    (h : Holds I τ values vs) (heq : ∀ t ∈ tempsAll values, σ t = τ t) : Holds I σ values vs := by
  intro s
  rw [evalAll_congr I values heq]
  exact h s

theorem eval_isSettled {e : Expr} (h : e.isSettled = true) (I : Interp V W) (τ : Nat → V)
    (s u : Store V W) : eval I τ e u = ((eval I τ e s).1, u) := by
  cases e with
  | nil | bool | number | string | temp => rfl
  | name | binary | property | index | call | method | paren => cases h

theorem eval_atom {e : Expr} (h : e.isAtom = true) (I : Interp V W) (τ : Nat → V)
    (s : Store V W) : (eval I τ e s).2 = s := by
  cases e with
  | nil | bool | number | string | temp | name => rfl
  | binary | property | index | call | method | paren => cases h

/-- Saving pending values evaluates them, and what stands for them afterwards keeps its value. -/
theorem execAll_settleAll (I : Interp V W) {n : Nat} {values : List Expr}
    (hlt : ∀ t ∈ tempsAll values, t < n) (m : Machine V W) :
    (execAll I (settleAll n values).2.stmts m).store = (evalAll I m.temps values m.store).2 ∧
      Holds I (execAll I (settleAll n values).2.stmts m).temps (settleAll n values).1
        (evalAll I m.temps values m.store).1 := by
  induction values generalizing n m with
  | nil => exact ⟨rfl, fun s => rfl⟩
  | cons value values ih =>
    have hvalue : ∀ t ∈ value.temps, t < n := fun t ht => hlt t (List.mem_append_left _ ht)
    have hvalues : ∀ t ∈ tempsAll values, t < n := fun t ht => hlt t (List.mem_append_right _ ht)
    cases h : value.isSettled with
    | true =>
      rw [settleAll_cons_settled h]
      have htidy : Tidy (tempsAll values) n _ _ := .ofSettleAll (List.Subset.refl _) hvalues
      obtain ⟨hstore, hholds⟩ := ih hvalues m
      have hsame : (eval I m.temps value m.store).2 = m.store :=
        eval_atom (Expr.isAtom_of_isSettled h) I _ _
      refine ⟨by simp only [evalAll_cons, hsame, hstore], fun s => ?_⟩
      have htemps : ∀ t ∈ value.temps,
          (execAll I (settleAll n values).2.stmts m).temps t = m.temps t :=
        fun t ht => htidy.temps_execAll I m (hvalue t ht)
      simp only [evalAll_cons, eval_congr I value htemps, eval_isSettled h I m.temps m.store s,
        hholds s, hsame]
    | false =>
      rw [settleAll_cons_unsettled h]
      have hlt' : ∀ t ∈ tempsAll values, t < n + 1 := fun t ht => Nat.lt_succ_of_lt (hvalues t ht)
      have htidy : Tidy (tempsAll values) (n + 1) _ _ := .ofSettleAll (List.Subset.refl _) hlt'
      obtain ⟨hstore, hholds⟩ := ih hlt' (exec I (.declare ⟨n⟩ value) m)
      have hagain : evalAll I (exec I (.declare ⟨n⟩ value) m).temps values =
          evalAll I m.temps values := by
        refine evalAll_congr I values fun t ht => Function.update_of_ne ?_ ..
        exact Nat.ne_of_lt (hvalues t ht)
      have hnew : (execAll I (settleAll (n + 1) values).2.stmts
          (exec I (.declare ⟨n⟩ value) m)).temps n = (eval I m.temps value m.store).1 := by
        rw [htidy.temps_execAll I _ (Nat.lt_succ_self n)]
        simp [exec]
      rw [hagain] at hstore hholds
      refine ⟨hstore, fun s => ?_⟩
      simp only [Growth.append_stmts, Growth.declaring, List.cons_append, List.nil_append,
        execAll_cons, evalAll_cons, eval, hnew, hholds s]
      rfl

/-- One operand after pending values. Up to the temporaries that save them, it is the evaluation of
the pending values, then the operand's statements, then its value. The operand takes the temporaries
from `first` to `n`. -/
theorem run_displaced (I : Interp V W) {T : Nat → Prop} {first n : Nat} {earlier : List Expr}
    {stmts : List Stmt} {value : Expr} {m : Machine V W} {vs : List V} {u : Store V W}
    (hpending : evalAll I m.temps earlier m.store = (vs, u))
    (hearlier : ∀ t ∈ tempsAll earlier, t < first) (hle : first ≤ n)
    (hown : ∀ t ∈ declared stmts, first ≤ t ∧ t < n) (hkeeps : KeepsTemps stmts)
    (hreads : ReadsOnly T stmts) (hvalue : ∀ t ∈ value.temps, T t ∨ t ∈ declared stmts)
    (hT : ∀ t ∈ declared (displaced n earlier stmts).2.stmts, ¬ T t) :
    results I ((displaced n earlier stmts).2.stmts ++ stmts)
        ((displaced n earlier stmts).1 ++ [value]) m =
      (vs ++ [(result I stmts value ⟨m.temps, u⟩).1], (result I stmts value ⟨m.temps, u⟩).2) ∧
    ∀ t, T t ∨ t ∈ declared stmts →
      (execAll I ((displaced n earlier stmts).2.stmts ++ stmts) m).temps t =
        (execAll I stmts ⟨m.temps, u⟩).temps t := by
  cases stmts with
  | nil =>
    refine ⟨?_, fun t _ => rfl⟩
    simp [results, result, evalAll_append, hpending]
  | cons stmt stmts =>
    rw [displaced_cons] at hT ⊢
    have hlt : ∀ t ∈ tempsAll earlier, t < n := fun t ht => Nat.lt_of_lt_of_le (hearlier t ht) hle
    have htidy : Tidy (tempsAll earlier) n _ _ := .ofSettleAll (List.Subset.refl _) hlt
    obtain ⟨hstore, hholds⟩ := execAll_settleAll I hlt m
    rw [hpending] at hstore hholds
    -- The operand's statements cannot tell the saved temporaries from those before.
    have hagree : AgreeOn T (execAll I (settleAll n earlier).2.stmts m) ⟨m.temps, u⟩ :=
      ⟨hstore, fun t ht =>
        execAll_temps I htidy.inScope.keepsTemps (fun hmem => hT t hmem ht) m⟩
    have hend := execAll_agree I hreads hagree
    -- What stands for the pending values is not touched by them.
    have hkept : Holds I
        (execAll I (stmt :: stmts) (execAll I (settleAll n earlier).2.stmts m)).temps
        (settleAll n earlier).1 vs := by
      refine hholds.congr fun t ht => execAll_temps I hkeeps (fun hmem => ?_) _
      have hrange := hown t hmem
      rcases List.mem_append.1 (htidy.values_subset ht) with hnew | hold
      · have := (htidy.mem_declared.1 hnew).1
        omega
      · have := hearlier t hold
        omega
    rw [results, execAll_append, evalAll_append, hkept]
    refine ⟨?_, hend.temps_eq⟩
    have hlast := eval_congr I value fun t ht => hend.temps_eq t (hvalue t ht)
    simp only [evalAll_cons, evalAll_nil, result, hlast, hend.store_eq]

/-- A value that is saved unless it is an atom is evaluated where it is saved. -/
theorem result_saved (I : Interp V W) (n : Nat) (value : Expr) (m : Machine V W) :
    result I (saved n value).2.stmts (saved n value).1 m = eval I m.temps value m.store := by
  cases h : value.isAtom with
  | true => rw [saved_atom h]; rfl
  | false =>
    rw [saved_complex h]
    simp [result, Growth.declaring, exec, eval]

/-- What a saved value stands for, right after it is saved. -/
theorem exec_saved (I : Interp V W) (n : Nat) (value : Expr) (m : Machine V W) :
    (execAll I (saved n value).2.stmts m).store = (eval I m.temps value m.store).2 ∧
      eval I (execAll I (saved n value).2.stmts m).temps (saved n value).1
          (execAll I (saved n value).2.stmts m).store = eval I m.temps value m.store := by
  have hresult := result_saved I n value m
  rw [result] at hresult
  refine ⟨?_, hresult⟩
  rw [← hresult, eval_atom (saved_isAtom n value)]

/-- Two values that are saved one after the other are evaluated one after the other. -/
theorem exec_saved_saved (I : Interp V W) {n : Nat} {a b : Expr}
    (ha : ∀ t ∈ a.temps, t < n) (hb : ∀ t ∈ b.temps, t < n) (m : Machine V W) :
    (execAll I (saved (n + (saved n a).2.temps) b).2.stmts
        (execAll I (saved n a).2.stmts m)).store =
      (eval I m.temps b (eval I m.temps a m.store).2).2 ∧
    eval I (execAll I (saved (n + (saved n a).2.temps) b).2.stmts
        (execAll I (saved n a).2.stmts m)).temps (saved (n + (saved n a).2.temps) b).1
        (execAll I (saved (n + (saved n a).2.temps) b).2.stmts
          (execAll I (saved n a).2.stmts m)).store =
      eval I m.temps b (eval I m.temps a m.store).2 ∧
    ∀ t ∈ (saved n a).1.temps, (execAll I (saved (n + (saved n a).2.temps) b).2.stmts
        (execAll I (saved n a).2.stmts m)).temps t = (execAll I (saved n a).2.stmts m).temps t := by
  have htidy : Tidy a.temps n _ _ := .ofSaved (List.Subset.refl _) ha
  have hsame : eval I (execAll I (saved n a).2.stmts m).temps b = eval I m.temps b :=
    eval_congr I b fun t ht => htidy.temps_execAll I m (hb t ht)
  have hlater : Tidy b.temps (n + (saved n a).2.temps) _ _ :=
    .ofSaved (List.Subset.refl _) fun t ht => Nat.lt_add_right _ (hb t ht)
  obtain ⟨hstore, -⟩ := exec_saved I n a m
  obtain ⟨hstore', heval⟩ := exec_saved I (n + (saved n a).2.temps) b
    (execAll I (saved n a).2.stmts m)
  rw [hsame, hstore] at hstore' heval
  refine ⟨hstore', heval, fun t ht => hlater.temps_execAll I _ ?_⟩
  exact htidy.lt_of_mem ha (htidy.values_subset (by simpa using ht))

/-- An atom keeps its value as long as its temporary does, or the name that it is. -/
theorem eval_atom_later {e : Expr} (h : e.isAtom = true) (I : Interp V W) {τ σ : Nat → V}
    {s u : Store V W} (htemps : ∀ t ∈ e.temps, σ t = τ t)
    (hname : ∀ x, e = .name x → I.lookup x u = I.lookup x s) :
    eval I σ e u = ((eval I τ e s).1, u) := by
  cases e with
  | nil | bool | number | string => rfl
  | temp t => simp only [eval, htemps t.id List.mem_cons_self]
  | name x => simp only [eval, hname x rfl]
  | binary | property | index | call | method | paren => cases h

theorem binop?_of_compoundOp? {op : Source.Arithmetic} {compound : AssignOp}
    (h : compoundOp? (.arithmetic op) = some compound) :
    compound.binop? = some (arithmeticOp op) := by
  cases op <;> cases h <;> rfl

/-- Statements followed by a value do what a function on stores does. -/
def Realizes (I : Interp V W) (stmts : List Stmt) (value : Expr)
    (f : Store V W → V × Store V W) : Prop :=
  ∀ m, result I stmts value m = f m.store

/-- Functions on stores, one for each expression, one after the other. -/
def runAll (f : Source.Expr → Store V W → V × Store V W) :
    List Source.Expr → Store V W → List V × Store V W
  | [], s => ([], s)
  | e :: es, s => ((f e s).1 :: (runAll f es (f e s).2).1, (runAll f es (f e s).2).2)

/-- If each operand does what its function does, then the operands after pending values evaluate
these and do what the functions do one after the other. -/
theorem Lowers.results_operands {ctx : Context} (I : Interp V W)
    {f : Source.Expr → Store V W → V × Store V W} {P : Growth → Prop}
    (happend : ∀ g h, P (g ++ h) → P g ∧ P h) {es : List Source.Expr}
    (hf : ∀ e ∈ es, ∀ n value g, Lowers ctx (.expr (some .operand) e) n [value] g → P g →
      Realizes I g.stmts value (f e))
    {earlier values : List Expr} {n : Nat} {g : Growth}
    (h : Lowers ctx (.operands earlier es) n values g) (hP : P g)
    (hlt : ∀ t ∈ tempsAll earlier, t < n) (m : Machine V W) :
    results I g.stmts values m =
      ((evalAll I m.temps earlier m.store).1 ++
          (runAll f es (evalAll I m.temps earlier m.store).2).1,
        (runAll f es (evalAll I m.temps earlier m.store).2).2) := by
  induction es generalizing earlier n values g m with
  | nil =>
    cases h
    simp [results, runAll]
  | cons e es ih =>
    cases h with
    | @operand _ _ _ _ value _ g₁ g₂ hhead htail =>
      obtain ⟨hfirst, hsecond⟩ := happend _ _ hP
      have htidy := hhead.tidy Tidy.nil_lt
      have hstep := hf e List.mem_cons_self n value g₁ hhead (happend _ _ hfirst).2
      have hmoved := (hhead.tidy Tidy.nil_lt).displace hlt
      have hbelow : ∀ t ∈ declared (displaced (n + g₁.temps) earlier g₁.stmts).2.stmts,
          ¬ t < n + g₁.temps := by
        intro t ht
        rw [declared_displaced, List.mem_range'_1] at ht
        omega
      obtain ⟨hres, -⟩ := run_displaced I (T := (· < n + g₁.temps)) (m := m) rfl hlt
        (Nat.le_add_right ..) (fun t ht => htidy.mem_declared.1 ht) htidy.inScope.keepsTemps
        (htidy.inScope.readsOnly.mono (by simp))
        (fun t ht => .inr (by simpa using htidy.values_subset (by simpa using ht))) hbelow
      have hrest := ih (fun d hd => hf d (List.mem_cons_of_mem _ hd)) htail hsecond
        (fun t ht => hmoved.lt_of_mem hlt (hmoved.values_subset ht))
        (execAll I ((displaced (n + g₁.temps) earlier g₁.stmts).2.stmts ++ g₁.stmts) m)
      rw [results] at hres hrest
      rw [hres, hstep] at hrest
      rw [results, Growth.append_stmts, Growth.append_stmts, execAll_append, hrest]
      simp [runAll]

/-- Two operands, one after the other. -/
theorem Lowers.eval_pair {ctx : Context} (I : Interp V W)
    {f : Source.Expr → Store V W → V × Store V W} {P : Growth → Prop}
    (happend : ∀ g h, P (g ++ h) → P g ∧ P h) {left right : Source.Expr}
    (hf : ∀ e ∈ [left, right], ∀ n value g, Lowers ctx (.expr (some .operand) e) n [value] g →
      P g → Realizes I g.stmts value (f e))
    {a b : Expr} {n : Nat} {g : Growth}
    (h : Lowers ctx (.operands [] [left, right]) n [a, b] g) (hP : P g) (m : Machine V W) :
    let first := eval I (execAll I g.stmts m).temps a (execAll I g.stmts m).store
    let second := eval I (execAll I g.stmts m).temps b first.2
    first.1 = (f left m.store).1 ∧ second.1 = (f right (f left m.store).2).1 ∧
      second.2 = (f right (f left m.store).2).2 := by
  have hresults := h.results_operands I happend hf hP (by simp) m
  simp only [results, evalAll_cons, evalAll_nil, runAll, List.nil_append, Prod.mk.injEq,
    List.cons.injEq, and_true] at hresults
  exact ⟨hresults.1.1, hresults.1.2, hresults.2⟩

end ExprLowering.Lowering
