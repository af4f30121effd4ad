import ExprLowering.Proofs.Pending

/-!
# Sequences of operations

A sequence of operations emits statements and yields values. This file shows that the statements
followed by the values do what the operations do one after the other: run the statements of the
first, evaluate its value, run the statements of the second, and so on.

## Main definitions

* `Capture`, `runCaptures`: an operation captured on its own, and such operations in source order.
* `Captured`: the captures of operations in the states where they run.
* `RunsInOrder`: statements and values that do what captured operations do.

## Main results

* `run_arrange`: captured operations after pending values.
* `sequence_runs_in_order`: sequences of any operations.
-/

namespace ExprLowering.Lowering

open Target

variable {V W : Type}

/-- An operation captured on its own. -/
structure Capture where
  /-- The next temporary before the operation. -/
  first : Nat
  /-- The next temporary after it. -/
  next : Nat
  stmts : List Stmt
  value : Expr

/-- Runs captured operations in source order: the statements of each, then its value. -/
def runCaptures (I : Interp V W) : List Capture → Machine V W → List V × Machine V W
  | [], m => ([], m)
  | cap :: caps, m =>
    let a := result I cap.stmts cap.value m
    let rest := runCaptures I caps ⟨(execAll I cap.stmts m).temps, a.2⟩
    (a.1 :: rest.1, rest.2)

/-- `Captured earlier ops s caps`: after operands with the values `earlier`, each of the operations
gives its capture in the state where it runs. An operation leaves the frame around it alone and
gives no temporary back. -/
inductive Captured : List Expr → List (LowerM Expr) → State → List Capture → Prop where
  | nil {earlier s} : Captured earlier [] s []
  | cons {earlier settled op ops s u t stmts value caps} :
      (inFrame op).run s = (.ok ⟨stmts, value⟩, u) → u.frame = s.frame → s.nextTemp ≤ u.nextTemp →
      (step (List.mapM settle) earlier op).run s = (.ok (settled, value), t) →
      Captured (settled ++ [value]) ops t caps →
      Captured earlier (op :: ops) s (⟨s.nextTemp, u.nextTemp, stmts, value⟩ :: caps)

/-- The values and the statements of captured operations after pending values. -/
def arrange : List Expr → List Capture → List Expr × List Stmt
  | earlier, [] => (earlier, [])
  | earlier, cap :: caps =>
    let d := displaced cap.next earlier cap.stmts
    let rest := arrange (d.1 ++ [cap.value]) caps
    (rest.1, d.2.stmts ++ cap.stmts ++ rest.2)

/-- The temporaries that save pending values. -/
def hoists : List Expr → List Capture → List Nat
  | _, [] => []
  | earlier, cap :: caps =>
    let d := displaced cap.next earlier cap.stmts
    declared d.2.stmts ++ hoists (d.1 ++ [cap.value]) caps

/-- Captures that take their temporaries one after the other, with those that save pending values
in between. -/
def Ordered : Nat → List Expr → List Capture → Prop
  | _, _, [] => True
  | n, earlier, cap :: caps =>
    let d := displaced cap.next earlier cap.stmts
    cap.first = n ∧ n ≤ cap.next ∧ Ordered (cap.next + d.2.temps) (d.1 ++ [cap.value]) caps

/-- One step of a sequence, for an operation that leaves the frame around it alone. -/
theorem run_step_of_capture {op : LowerM Expr} {s u : State} {stmts : List Stmt} {value : Expr}
    (h : (inFrame op).run s = (.ok ⟨stmts, value⟩, u)) (hframe : u.frame = s.frame)
    (earlier : List Expr) :
    ∃ t, (step (List.mapM settle) earlier op).run s =
        (.ok ((displaced u.nextTemp earlier stmts).1, value), t) ∧
      t.frame = s.frame ++ ((displaced u.nextTemp earlier stmts).2.stmts ++ stmts) ∧
      t.nextTemp = u.nextTemp + (displaced u.nextTemp earlier stmts).2.temps := by
  rw [step, LowerM.run_bind_ok h]
  cases stmts with
  | nil => exact ⟨u, rfl, by simpa using hframe, rfl⟩
  | cons stmt stmts =>
    simp only [List.isEmpty_cons, Bool.false_eq_true, if_false, displaced_cons]
    rw [LowerM.run_bind_ok (run_mapM_settle earlier u), LowerM.run_bind_ok (run_emitAll _ _)]
    refine ⟨_, rfl, ?_, rfl⟩
    simp [State.grow, Growth.ofStmts, hframe]

/-- A sequence of captured operations succeeds with what was arranged. -/
theorem Captured.run {earlier : List Expr} {ops : List (LowerM Expr)} {s : State}
    {caps : List Capture} (h : Captured earlier ops s caps) :
    Ordered s.nextTemp earlier caps ∧
      ∃ t, (sequenceAfter earlier ops).run s = (.ok (arrange earlier caps).1, t) ∧
        t.frame = s.frame ++ (arrange earlier caps).2 := by
  induction h with
  | nil => exact ⟨trivial, _, rfl, by simp [arrange]⟩
  | @cons earlier _ _ _ _ _ _ _ _ _ hcap hframe hle hstep _ ih =>
    obtain ⟨t, hrun, hstmts, htemps⟩ := run_step_of_capture hcap hframe earlier
    rw [hrun] at hstep
    cases hstep
    obtain ⟨hord, v, hrest, hmore⟩ := ih
    rw [htemps] at hord
    refine ⟨⟨rfl, hle, hord⟩, v, ?_, ?_⟩
    · rw [sequenceAfter, LowerM.run_bind_ok hrun]
      exact hrest
    · rw [hmore, hstmts, List.append_assoc]
      rfl

/-- What is asked of a captured operation, where the temporaries in `T` are not touched by the
sequence. -/
structure Capture.Fits (T : Nat → Prop) (cap : Capture) : Prop where
  own : ∀ t ∈ declared cap.stmts, cap.first ≤ t ∧ t < cap.next
  keeps : KeepsTemps cap.stmts
  reads : ReadsOnly T cap.stmts
  value : ∀ t ∈ cap.value.temps, T t ∧ t < cap.next

/-- Captured operations after pending values, from machines that agree on `T`. -/
theorem run_arrange (I : Interp V W) {T : Nat → Prop} {n : Nat} {earlier : List Expr}
    {caps : List Capture} {m r : Machine V W} {vs : List V} (hord : Ordered n earlier caps)
    (hfits : ∀ cap ∈ caps, cap.Fits T) (hearlier : ∀ t ∈ tempsAll earlier, t < n)
    (hT : ∀ t ∈ hoists earlier caps, ¬ T t)
    (hpending : evalAll I m.temps earlier m.store = (vs, r.store))
    (htemps : ∀ t, T t → m.temps t = r.temps t) :
    results I (arrange earlier caps).2 (arrange earlier caps).1 m =
        (vs ++ (runCaptures I caps r).1, (runCaptures I caps r).2.store) ∧
      ∀ t, T t →
        (execAll I (arrange earlier caps).2 m).temps t = (runCaptures I caps r).2.temps t := by
  induction caps generalizing n earlier m r vs with
  | nil => exact ⟨by simpa [arrange, results, runCaptures] using hpending, htemps⟩
  | cons cap caps ih =>
    obtain ⟨rfl, hle, hord⟩ := hord
    have hfit := hfits cap List.mem_cons_self
    have hagree : AgreeOn T ⟨m.temps, r.store⟩ r := ⟨rfl, htemps⟩
    have hend := execAll_agree I hfit.reads hagree
    have hsame : result I cap.stmts cap.value ⟨m.temps, r.store⟩ =
        result I cap.stmts cap.value r := by
      have hvalue := eval_congr I cap.value fun t ht =>
        hend.temps_eq t (.inl (hfit.value t ht).1)
      simp only [result, hvalue, hend.store_eq]
    obtain ⟨hres, hkept⟩ := run_displaced I hpending hearlier hle hfit.own hfit.keeps hfit.reads
      (fun t ht => .inl (hfit.value t ht).1) fun t ht => hT t (List.mem_append_left _ ht)
    rw [hsame] at hres
    have hlt : ∀ t ∈ tempsAll ((displaced cap.next earlier cap.stmts).1 ++ [cap.value]),
        t < cap.next + (displaced cap.next earlier cap.stmts).2.temps := by
      intro t ht
      have hknown : ∀ u ∈ tempsAll earlier, u < cap.next := fun u hu =>
        Nat.lt_of_lt_of_le (hearlier u hu) hle
      have htidy := Tidy.ofDisplaced cap.stmts (List.Subset.refl _) hknown
      rw [tempsAll_append] at ht
      rcases List.mem_append.1 ht with ht | ht
      · exact htidy.lt_of_mem hknown (htidy.values_subset ht)
      · have := (hfit.value t (by simpa using ht)).2
        omega
    have hrest := ih (r := ⟨(execAll I cap.stmts r).temps, (result I cap.stmts cap.value r).2⟩)
      hord (fun c hc => hfits c (List.mem_cons_of_mem _ hc)) hlt
      (fun t ht => hT t (List.mem_append_right _ ht)) hres
      (fun t ht => (hkept t (.inl ht)).trans (hend.temps_eq t (.inl ht)))
    simpa [arrange, runCaptures, results] using hrest

/-- Captures take no temporaries from before. -/
theorem Ordered.bounds {n : Nat} {earlier : List Expr} {caps : List Capture}
    (h : Ordered n earlier caps) : ∀ cap ∈ caps, n ≤ cap.first ∧ cap.first ≤ cap.next := by
  induction caps generalizing n earlier with
  | nil => simp
  | cons cap caps ih =>
    obtain ⟨rfl, hle, hrest⟩ := h
    intro c hc
    rcases List.mem_cons.1 hc with rfl | hc
    · exact ⟨Nat.le_refl _, hle⟩
    · have := ih hrest c hc
      omega

theorem Ordered.next_le {n : Nat} {earlier : List Expr} {before after : List Capture}
    {cap : Capture} (h : Ordered n earlier (before ++ cap :: after)) :
    ∀ c ∈ before ++ [cap], c.next ≤ cap.next := by
  induction before generalizing n earlier with
  | nil => simp
  | cons head before ih =>
    obtain ⟨rfl, hle, hrest⟩ := h
    intro c hc
    rcases List.mem_cons.1 hc with rfl | hc
    · have := hrest.bounds cap (by simp)
      omega
    · exact ih hrest c hc

/-- A temporary of a sequence that none of its operations declares. -/
def Hoisting (caps : List Capture) (stmts : List Stmt) (t : Nat) : Prop :=
  t ∈ declared stmts ∧ ∀ cap ∈ caps, t ∉ declared cap.stmts

/-- The temporaries that save pending values are not those of the operations. -/
theorem hoisting_of_mem_hoists {n : Nat} {earlier : List Expr} {caps : List Capture}
    (hord : Ordered n earlier caps)
    (hown : ∀ cap ∈ caps, ∀ t ∈ declared cap.stmts, cap.first ≤ t ∧ t < cap.next) {t : Nat}
    (ht : t ∈ hoists earlier caps) : n ≤ t ∧ Hoisting caps (arrange earlier caps).2 t := by
  induction caps generalizing n earlier with
  | nil => cases ht
  | cons cap caps ih =>
    obtain ⟨rfl, hle, hrest⟩ := hord
    have hcap : ∀ u ∈ declared cap.stmts, cap.first ≤ u ∧ u < cap.next :=
      hown cap List.mem_cons_self
    have hcaps : ∀ c ∈ caps, ∀ u ∈ declared c.stmts, c.first ≤ u ∧ u < c.next := fun c hc =>
      hown c (List.mem_cons_of_mem _ hc)
    simp only [arrange, Hoisting, declared_append, List.mem_append]
    rcases List.mem_append.1 ht with hnew | hlater
    · have hrange := hnew
      rw [declared_displaced, List.mem_range'_1] at hrange
      refine ⟨by omega, .inl (.inl hnew), fun c hc hmem => ?_⟩
      rcases List.mem_cons.1 hc with rfl | hc
      · have := hcap t hmem
        omega
      · have := hrest.bounds c hc
        have := hcaps c hc t hmem
        omega
    · obtain ⟨hge, hdeclared, hothers⟩ := ih hrest hcaps hlater
      refine ⟨by omega, .inr hdeclared, fun c hc hmem => ?_⟩
      rcases List.mem_cons.1 hc with rfl | hc
      · have := hcap t hmem
        omega
      · exact hothers c hc hmem

/-- Under every interpretation and from every machine, the statements followed by the values do what
the captured operations do in source order, up to the temporaries that save pending values. -/
def RunsInOrder (caps : List Capture) (stmts : List Stmt) (values : List Expr) : Prop :=
  ∀ (V W : Type) (I : Interp V W) (m : Machine V W),
    results I stmts values m = ((runCaptures I caps m).1, (runCaptures I caps m).2.store) ∧
      ∀ t, ¬ Hoisting caps stmts t →
        (execAll I stmts m).temps t = (runCaptures I caps m).2.temps t

/-- Operations that set only temporaries they took, by declaring them, and whose values mention only
temporaries declared up to then. -/
structure SelfContained (caps : List Capture) : Prop where
  own : ∀ cap ∈ caps, ∀ t ∈ declared cap.stmts, cap.first ≤ t ∧ t < cap.next
  keeps : ∀ cap ∈ caps, KeepsTemps cap.stmts
  values : ∀ before cap after, caps = before ++ cap :: after →
    ∀ t ∈ cap.value.temps, ∃ c ∈ before ++ [cap], t ∈ declared c.stmts

/-- A sequence of operations succeeds, and its statements and values run in source order, if no
operation mentions a temporary that the sequence itself takes. -/
theorem sequence_runs_in_order {ops : List (LowerM Expr)} {s : State} {caps : List Capture}
    (hcaptured : Captured [] ops s caps) (hself : SelfContained caps) :
    ∃ values stmts t, (sequence ops).run s = (.ok values, t) ∧ t.frame = s.frame ++ stmts ∧
      ((∀ cap ∈ caps, ∀ stmt ∈ cap.stmts, ∀ u ∈ stmt.temps, ¬ Hoisting caps stmts u) →
        RunsInOrder caps stmts values) := by
  obtain ⟨hord, t, hrun, hframe⟩ := hcaptured.run
  refine ⟨_, _, t, hrun, hframe, fun hmention => ?_⟩
  have hfits : ∀ cap ∈ caps, cap.Fits fun u => ¬ Hoisting caps (arrange [] caps).2 u := by
    intro cap hcap
    refine ⟨hself.own cap hcap, hself.keeps cap hcap, readsOnly_of_temps (hmention cap hcap), ?_⟩
    intro u hu
    obtain ⟨before, after, hsplit⟩ := List.append_of_mem hcap
    obtain ⟨c, hc, hdeclared⟩ := hself.values before cap after hsplit u hu
    have hmem : c ∈ caps := by
      rw [hsplit]
      rcases List.mem_append.1 hc with hc | hc
      · exact List.mem_append_left _ hc
      · exact List.mem_append_right _ (by simp_all)
    rw [hsplit] at hord
    have hle := hord.next_le c hc
    have hlt := (hself.own c hmem u hdeclared).2
    exact ⟨fun hhoist => hhoist.2 c hmem hdeclared, by omega⟩
  intro V W I m
  have hsound := run_arrange I (m := m) (r := m) hord hfits (by simp)
    (fun u hu hnot => hnot (hoisting_of_mem_hoists hord hself.own hu).2) rfl fun u _ => rfl
  simpa using hsound

/-- A pending name, and an operation that saves the result of a call and assigns it to the name. -/
def overwriting : List (LowerM Expr) :=
  [pure (.name "a"), do
    let result ← hoist (.call (.name "f") [])
    assign (.name "a") .set result
    return result]

/-- The name is read before the call. -/
theorem overwriting_runs_in_order :
    RunsInOrder
      [⟨0, 0, [], .name "a"⟩,
        ⟨0, 1, [.declare ⟨0⟩ (.call (.name "f") []), .assign (.name "a") .set (.temp ⟨0⟩)],
          .temp ⟨0⟩⟩]
      [.declare ⟨1⟩ (.name "a"), .declare ⟨0⟩ (.call (.name "f") []),
        .assign (.name "a") .set (.temp ⟨0⟩)]
      [.temp ⟨1⟩, .temp ⟨0⟩] := by
  have hcaptured : Captured [] overwriting .initial
      [⟨0, 0, [], .name "a"⟩,
        ⟨0, 1, [.declare ⟨0⟩ (.call (.name "f") []), .assign (.name "a") .set (.temp ⟨0⟩)],
          .temp ⟨0⟩⟩] :=
    .cons (u := .initial) (t := .initial) rfl rfl (Nat.le_refl _) rfl
      (.cons (u := { State.initial with nextTemp := 1 }) rfl rfl (Nat.zero_le _) rfl .nil)
  have hself : SelfContained
      [⟨0, 0, [], .name "a"⟩,
        ⟨0, 1, [.declare ⟨0⟩ (.call (.name "f") []), .assign (.name "a") .set (.temp ⟨0⟩)],
          .temp ⟨0⟩⟩] := by
    refine ⟨by simp, ?_, ?_⟩
    · simp only [List.mem_cons, List.not_mem_nil, or_false]
      rintro cap (rfl | rfl) left op right hmem
      · cases hmem
      · obtain ⟨rfl, -, -⟩ : left = .name "a" ∧ op = .set ∧ right = .temp ⟨0⟩ := by simpa using hmem
        rfl
    · intro before cap after hsplit t ht
      rcases before with _ | ⟨b, _ | ⟨c, before⟩⟩
      · obtain ⟨rfl, -⟩ := List.cons.inj hsplit
        cases ht
      · obtain ⟨-, htail⟩ := List.cons.inj hsplit
        obtain ⟨rfl, -⟩ := List.cons.inj htail
        exact ⟨_, List.mem_append_right _ List.mem_cons_self, by simpa [Expr.temps] using ht⟩
      · simp at hsplit
  obtain ⟨values, stmts, t, hrun, hframe, hsound⟩ := sequence_runs_in_order hcaptured hself
  cases hrun
  obtain rfl : _ = stmts := hframe
  refine hsound ?_
  simp only [List.mem_cons, List.not_mem_nil, or_false]
  rintro cap (rfl | rfl) stmt hstmt u hu hhoist
  · cases hstmt
  · -- The operation reads its own temporary only.
    refine hhoist.2 _ (List.mem_cons_of_mem _ List.mem_cons_self) ?_
    rcases List.mem_cons.1 hstmt with rfl | hstmt
    · cases hu
    · obtain rfl := List.mem_singleton.1 hstmt
      simpa [Stmt.temps, Expr.temps] using hu

/-- A pending name, and an operation that reads the temporary in which the name will be saved. -/
def foreseeing : List (LowerM Expr) :=
  [pure (.name "a"), do
    assign (.name "x") .set (.temp ⟨0⟩)
    return .nil]

/-- The interpretation over numbers in which everything is zero. -/
def zeroInterp : Interp Nat Unit where
  nil := 0
  bool _ := 0
  number _ := 0
  string _ := 0
  fixed _ := none
  binary _ _ _ s := (0, s)
  read _ _ s := (0, s)
  write _ _ _ s := s
  call _ _ s := (0, s)
  method _ _ _ s := (0, s)

/-- The sequence takes the temporary that the second operation mentions, so that the operation reads
the name that was saved in it. -/
theorem foreseeing_not_in_order :
    Captured [] foreseeing .initial
        [⟨0, 0, [], .name "a"⟩, ⟨0, 0, [.assign (.name "x") .set (.temp ⟨0⟩)], .nil⟩] ∧
      SelfContained
        [⟨0, 0, [], .name "a"⟩, ⟨0, 0, [.assign (.name "x") .set (.temp ⟨0⟩)], .nil⟩] ∧
      (sequence foreseeing).run .initial =
        (.ok [.temp ⟨0⟩, .nil],
          { State.initial with
            frame := [.declare ⟨0⟩ (.name "a"), .assign (.name "x") .set (.temp ⟨0⟩)]
            nextTemp := 1 }) ∧
      ¬ RunsInOrder
        [⟨0, 0, [], .name "a"⟩, ⟨0, 0, [.assign (.name "x") .set (.temp ⟨0⟩)], .nil⟩]
        [.declare ⟨0⟩ (.name "a"), .assign (.name "x") .set (.temp ⟨0⟩)] [.temp ⟨0⟩, .nil] := by
  refine ⟨?_, ?_, rfl, fun h => ?_⟩
  · exact .cons (u := .initial) (t := .initial) rfl rfl (Nat.le_refl _) rfl
      (.cons (u := .initial) rfl rfl (Nat.le_refl _) rfl .nil)
  · refine ⟨by simp, ?_, ?_⟩
    · simp only [List.mem_cons, List.not_mem_nil, or_false]
      rintro cap (rfl | rfl) left op right hmem
      · cases hmem
      · cases List.mem_singleton.1 hmem
        rfl
    · intro before cap after hsplit t ht
      rcases before with _ | ⟨b, _ | ⟨c, before⟩⟩
      · obtain ⟨rfl, -⟩ := List.cons.inj hsplit
        cases ht
      · obtain ⟨-, htail⟩ := List.cons.inj hsplit
        obtain ⟨rfl, -⟩ := List.cons.inj htail
        cases ht
      · simp at hsplit
  · -- The temporary holds 1 at first, and all names are 0.
    have hstores := congrArg (fun p => p.2.vars "x")
      (h Nat Unit zeroInterp ⟨fun _ => 1, ⟨fun _ => 0, ()⟩⟩).1
    simp [results, runCaptures, result, exec, placeOf, assigned, AssignOp.binop?, save, Store.bind,
      eval, Interp.lookup, zeroInterp] at hstores

end ExprLowering.Lowering
