import ExprLowering.Proofs.Effects
import ExprLowering.Proofs.Renumber
import ExprLowering.Proofs.Targets

/-!
# Where member assignments store

An assignment to a member should store where its target pointed before the right side ran. The
object and the key of the target are saved unless they are atoms, and names are atoms. So the
last statement of the assignment reads a name again that stands for the object or the key, and it
stores in another place if the value of this name has changed.

## Main definitions

* `memberAt`: the place of a member whose object and key are evaluated once, in order.
* `storeAt`: what the assignment does after that, for a given place.
* `StoresAt`: what is shown of an assignment.

## Main results

* `member_store_place`: an assignment stores at the right place exactly if these names are unmoved.
-/

namespace ExprLowering.Lowering

open Target

variable {V W : Type} {ctx : Context}

/-- The place of a member whose object and key are evaluated once, in this order, and the store
after that. -/
def memberAt (I : Interp V W) (ctx : Context) (left : Source.Expr) (s : Store V W) :
    Place V × Store V W :=
  match left.unwrap with
  | .property object name _ false _ =>
    let a := yield I ctx object s
    (.member a.1 (.name name), a.2)
  | .element object index false _ =>
    let a := yield I ctx object s
    let b := yield I ctx index a.2
    (.member a.1 (.value b.1), b.2)
  | _ => (.nowhere, s)

/-- The value that an assignment to a place gives it, where `value` evaluates what is pending of the
right side. -/
def assignedAt (I : Interp V W) (op : Source.Operator) (place : Place V)
    (value : Store V W → V × Store V W) (s : Store V W) : V × Store V W :=
  match op with
  | .assignWith (.arithmetic a) =>
    let old := load I (fun _ => I.nil) place s
    let new := value old.2
    I.arithmetic a old.1 new.1 new.2
  | .assignWith (.bitwise b) =>
    let function := I.read (I.lookup "bit32" s) (.name (bitName b)) s
    let old := load I (fun _ => I.nil) place function.2
    let new := value old.2
    I.call function.1 [old.1, new.1] new.2
  | _ => value s

/-- The store after an assignment to a given place: the statements of the right side run first, then
the value is computed and put there. -/
def storeAt (I : Interp V W) (ctx : Context) (op : Source.Operator) (right : Source.Expr)
    (place : Place V) (s : Store V W) : Store V W :=
  match lowerAlone ctx right with
  | .ok out =>
    let m := execAll I out.stmts ⟨fun _ => I.nil, s⟩
    let a := assignedAt I op place (eval I m.temps out.value) m.store
    I.put place a.1 a.2
  | .error _ => s

-- ════════════════════════════════════════════════════════════════════════
-- Targets
-- ════════════════════════════════════════════════════════════════════════

theorem Lowers.points_property {left object : Source.Expr} {name : String} {nameSpan span : Span}
    {n : Nat} {value : Expr} {g : Growth}
    (hleft : left.unwrap = .property object name nameSpan false span)
    (h : Lowers ctx (.expr (some .operand) object) n [value] g) (I : Interp V W)
    (m : Machine V W) :
    (execAll I (g ++ (saved (n + g.temps) value).2).stmts m).store =
        (memberAt I ctx left m.store).2 ∧
      Points I (.property (saved (n + g.temps) value).1.toIndexable name)
        (memberAt I ctx left m.store).1
        (execAll I (g ++ (saved (n + g.temps) value).2).stmts m) := by
  have hresult := h.realizes_yield I m
  have hpoints := Lowering.points_property I (n + g.temps) value name (execAll I g.stmts m)
  rw [result] at hresult
  rw [hresult] at hpoints
  simpa only [memberAt, hleft, Growth.append_stmts, execAll_append] using hpoints

theorem Lowers.points_element {left object index : Source.Expr} {span : Span} {n : Nat}
    {a b : Expr} {g : Growth} (hleft : left.unwrap = .element object index false span)
    (h : Lowers ctx (.operands [] [object, index]) n [a, b] g) (I : Interp V W)
    (m : Machine V W) :
    (execAll I (g ++ (saved (n + g.temps) a).2 ++
        (saved (n + (g ++ (saved (n + g.temps) a).2).temps) b).2).stmts m).store =
        (memberAt I ctx left m.store).2 ∧
      Points I (.index (saved (n + g.temps) a).1.toIndexable
          (saved (n + (g ++ (saved (n + g.temps) a).2).temps) b).1)
        (memberAt I ctx left m.store).1
        (execAll I (g ++ (saved (n + g.temps) a).2 ++
          (saved (n + (g ++ (saved (n + g.temps) a).2).temps) b).2).stmts m) := by
  obtain ⟨ha, hb, hend⟩ := h.eval_pair I (f := yield I ctx) (P := fun _ => True)
    (fun _ _ _ => ⟨trivial, trivial⟩) (fun e _ n value g he _ => he.realizes_yield I) trivial m
  have htidy := h.tidy Tidy.nil_lt
  have hlt : ∀ t ∈ tempsAll [a, b], t < n + g.temps := fun t ht =>
    htidy.lt_of_mem Tidy.nil_lt (htidy.values_subset ht)
  have hpoints := Lowering.points_element I (a := a) (b := b) (fun t ht => hlt t (by simp [ht]))
    (fun t ht => hlt t (by simp [ht])) (execAll I g.stmts m)
  dsimp only at ha hb hend hpoints
  rw [ha, hb, hend] at hpoints
  simpa only [memberAt, hleft, Growth.append_stmts, Growth.append_temps, ← Nat.add_assoc,
    execAll_append] using hpoints

/-- A target other than a name points to its member after its statements. -/
theorem Lowers.points {left : Source.Expr} {n : Nat} {target : Expr} {g : Growth}
    (hleft : ∀ text span, left.unwrap ≠ .name text span)
    (h : Lowers ctx (.target left) n [target] g) (I : Interp V W) (m : Machine V W) :
    (execAll I g.stmts m).store = (memberAt I ctx left m.store).2 ∧
      Points I target (memberAt I ctx left m.store).1 (execAll I g.stmts m) := by
  cases h with
  | targetName hname => exact absurd hname (hleft _ _)
  | targetProperty hproperty hobject => exact hobject.points_property hproperty I m
  | targetElement helement hpair => exact hpair.points_element helement I m

theorem memberAt_of_target {left : Source.Expr} {n : Nat} {target : Expr} {g : Growth}
    (hleft : ∀ text span, left.unwrap ≠ .name text span)
    (h : Lowers ctx (.target left) n [target] g) (I : Interp V W) (s : Store V W) :
    ∃ object key, (memberAt I ctx left s).1 = .member object key := by
  cases h with
  | targetName hname => exact absurd hname (hleft _ _)
  | targetProperty hproperty _ => exact ⟨_, _, by rw [memberAt, hproperty]⟩
  | targetElement helement _ => exact ⟨_, _, by rw [memberAt, helement]⟩

-- ════════════════════════════════════════════════════════════════════════
-- The last statement
-- ════════════════════════════════════════════════════════════════════════

/-- Reading a target is loading from its place. -/
theorem eval_eq_load (I : Interp V W) (τ : Nat → V) {target : Expr}
    (h : target.isAssignable = true) (s : Store V W) :
    eval I τ target s = load I τ (placeOf I τ target s).1 (placeOf I τ target s).2 := by
  cases target with
  | name | temp | property | index => rfl
  | nil | bool | number | string | binary | call | method | paren => cases h

theorem Unmoved.congr {I : Interp V W} {target : Expr} {place : Place V} {s u : Store V W}
    (h : Unmoved I target place s) (hvars : u.vars = s.vars) : Unmoved I target place u := by
  intro x v hmem
  rw [← h x v hmem, Interp.lookup, Interp.lookup, hvars]

/-- A compound assignment to a target that stands for a member, whenever the names do not change. -/
theorem store_compoundStmt {I : Interp V W} (hI : I.Confined) (options : Options)
    (op : Source.Calculation) {target value : Expr} (h : target.isAssignable = true)
    {m : Machine V W} {object : V} {key : Key V}
    (hplace : ∀ u : Store V W, u.vars = m.store.vars →
      placeOf I m.temps target u = (.member object key, u)) :
    (exec I (compoundStmt options op target value) m).store =
      I.put (.member object key)
        (assignedAt I (.assignWith op) (.member object key) (eval I m.temps value) m.store).1
        (assignedAt I (.assignWith op) (.member object key) (eval I m.temps value) m.store).2 := by
  have hread (u : Store V W) (hu : u.vars = m.store.vars) :
      eval I m.temps target u = I.read object key u := by
    rw [eval_eq_load I m.temps h, hplace u hu]
    rfl
  rw [compoundStmt]
  split
  · rename_i compound hsome
    have hop : compoundOp? op = some compound := by
      split at hsome
      · exact hsome
      · cases hsome
    cases op with
    | arithmetic a =>
      rw [exec, hplace _ rfl, assigned, binop?_of_compoundOp? hop, store_save, assignedAt,
        ← binary_arithmeticOp]
      rfl
    | bitwise b => cases hop
  · rw [exec_set (hplace _ rfl), store_save]
    cases op with
    | arithmetic a =>
      simp only [calculationForm, SimpleForm.build, eval, hread _ rfl, assignedAt, load,
        binary_arithmeticOp]
    | bitwise b =>
      have hbits := hread (I.read (I.lookup "bit32" m.store) (.name (bitName b)) m.store).2
        (hI.read ..)
      simp only [calculationForm, SimpleForm.build, eval, evalAll, hbits, assignedAt, load,
        name_bitFunction]

-- ════════════════════════════════════════════════════════════════════════
-- Assignments on their own
-- ════════════════════════════════════════════════════════════════════════

/-- What is shown of an assignment: its last statement stores at the place of the member exactly if
the names in its target are unmoved, and then the assignment does what it should. -/
def StoresAt (ctx : Context) (left : Source.Expr) (op : Source.Operator) (right : Source.Expr)
    (stmts before : List Stmt) (target : Expr) : Prop :=
  ∀ (V W : Type) (I : Interp V W) (m : Machine V W),
    ((placeOf I (execAll I before m).temps target (execAll I before m).store).1 =
        (memberAt I ctx left m.store).1 ↔
      Unmoved I target (memberAt I ctx left m.store).1 (execAll I before m).store) ∧
    (I.Confined → Unmoved I target (memberAt I ctx left m.store).1 (execAll I before m).store →
      (execAll I stmts m).store =
        storeAt I ctx op right (memberAt I ctx left m.store).1 (memberAt I ctx left m.store).2)

theorem storesAt_assign {left right : Source.Expr} {n : Nat} {target value : Expr}
    {g₁ g₂ : Growth} (hleft : ∀ text span, left.unwrap ≠ .name text span)
    (htarget : Lowers ctx (.target left) n [target] g₁)
    (hvalue : Lowers ctx (.expr (some .operand) right) (n + g₁.temps) [value] g₂) :
    StoresAt ctx left .assign right
      ((g₁ ++ g₂ ++ (saved (n + (g₁ ++ g₂).temps) value).2).stmts ++
        [.assign target .set (saved (n + (g₁ ++ g₂).temps) value).1])
      (g₁ ++ g₂ ++ (saved (n + (g₁ ++ g₂).temps) value).2).stmts target := by
  intro V W I m
  obtain ⟨hstart, hpoints⟩ := htarget.points hleft I m
  have hkept := fun t ht =>
    (htarget.temps_target_kept hvalue I (execAll I g₁.stmts m) (t := t) ht).2
  simp only [Growth.append_stmts, execAll_append, execAll_cons, execAll_nil]
  refine ⟨(hpoints _ _ hkept).2, fun _ hunmoved => ?_⟩
  obtain ⟨out, hout, hrun⟩ := hvalue.run_alone
  obtain ⟨hstore, heval⟩ := hrun I (execAll I g₁.stmts m) fun _ => I.nil
  obtain ⟨hend, hsaved⟩ := exec_saved I (n + (g₁ ++ g₂).temps) value
    (execAll I g₂.stmts (execAll I g₁.stmts m))
  rw [exec_set (hpoints.placeOf_eq hkept hunmoved), store_save]
  simp only [hsaved, storeAt, hout, assignedAt, ← hstart, ← heval, ← hstore]

theorem storesAt_compound {left right : Source.Expr} {op : Source.Calculation} {n : Nat}
    {target value : Expr} {g₁ g₂ : Growth} (hleft : ∀ text span, left.unwrap ≠ .name text span)
    (htarget : Lowers ctx (.target left) n [target] g₁)
    (hvalue : Lowers ctx (.expr (some .operand) right) (n + g₁.temps) [value] g₂)
    (hassignable : target.isAssignable = true) :
    StoresAt ctx left (.assignWith op) right
      ((g₁ ++ g₂).stmts ++ [compoundStmt ctx.options op target value]) (g₁ ++ g₂).stmts target := by
  intro V W I m
  obtain ⟨hstart, hpoints⟩ := htarget.points hleft I m
  have hkept := fun t ht =>
    (htarget.temps_target_kept hvalue I (execAll I g₁.stmts m) (t := t) ht).1
  simp only [Growth.append_stmts, execAll_append, execAll_cons, execAll_nil]
  refine ⟨(hpoints _ _ hkept).2, fun hI hunmoved => ?_⟩
  obtain ⟨out, hout, hrun⟩ := hvalue.run_alone
  obtain ⟨hstore, heval⟩ := hrun I (execAll I g₁.stmts m) fun _ => I.nil
  obtain ⟨object, key, hmember⟩ := memberAt_of_target hleft htarget I m.store
  have hplace : ∀ u : Store V W, u.vars = (execAll I g₂.stmts (execAll I g₁.stmts m)).store.vars →
      placeOf I (execAll I g₂.stmts (execAll I g₁.stmts m)).temps target u =
        (.member object key, u) := by
    intro u hu
    rw [hpoints.placeOf_eq hkept (hunmoved.congr hu), hmember]
  rw [store_compoundStmt hI ctx.options op hassignable hplace, hmember]
  simp only [storeAt, hout, ← hstart, ← heval, ← hstore]

theorem exists_assign_compoundStmt (options : Options) (op : Source.Calculation)
    (target value : Expr) :
    ∃ form result, compoundStmt options op target value = .assign target form result := by
  rw [compoundStmt]
  split
  · exact ⟨_, _, rfl⟩
  · exact ⟨_, _, rfl⟩

/-- The last statement of an assignment to a member stores where the target pointed before the right
side ran exactly if the names that are left in the target, for the object or for the key, still have
the values that they had then. If they have, then the assignment ends in the store in which it ends
if object and key are evaluated once, in this order, and the right side after them. -/
theorem member_store_place {ctx : Context} {left right : Source.Expr} {op : Source.Operator}
    {span : Span} {out : Output} (hop : op.isAssignment = true)
    (hleft : ∀ text nameSpan, left.unwrap ≠ .name text nameSpan)
    (hlow : lowerAlone ctx (.binary left op right span) = .ok out) :
    ∃ before target form result, out.stmts = before ++ [.assign target form result] ∧
      StoresAt ctx left op right out.stmts before target := by
  obtain ⟨target, g, h, rfl⟩ := lowerAlone_eq_ok_iff.1 hlow
  cases h with
  | simple hkind => rw [(operatorEffects_simple hkind).1] at hop; cases hop
  | logical hkind =>
    obtain ⟨l, rfl⟩ := eq_logical_of_operatorKind hkind
    cases hop
  | assign hkind htarget hvalue _ =>
    obtain rfl := eq_assign_of_operatorKind hkind
    exact ⟨_, _, _, _, rfl, storesAt_assign hleft htarget hvalue⟩
  | @compound _ _ _ _ _ _ _ _ pending _ _ hkind htarget hvalue hassignable =>
    obtain rfl := eq_assignWith_of_operatorKind hkind
    obtain ⟨form, result, hform⟩ := exists_assign_compoundStmt ctx.options _ target pending
    exact ⟨_, _, form, result, congrArg (_ ++ [·]) hform,
      storesAt_compound hleft htarget hvalue hassignable⟩

/-- An interpretation over numbers that logs the objects that are written to. Every call gives the
name `o` the value 2. -/
def rebindingInterp : Interp Nat (List Nat) where
  nil := 0
  bool b := b.toNat
  number text := text.length
  string text := text.length
  fixed _ := none
  binary _ a b s := (a + b, s)
  read object _ s := (object, s)
  write object _ _ s := { s with world := object :: s.world }
  call _ _ s := (0, s.bind "o" 2)
  method _ _ _ s := (0, s.bind "o" 2)

theorem rebindingInterp_confined : rebindingInterp.Confined where
  binary _ _ _ _ := rfl
  read _ _ _ := rfl
  write _ _ _ _ := rfl

/-- `o.p`. -/
def memberOfName : Source.Expr :=
  .property (.name "o" (.point 1 1)) "p" (.point 1 3) false (.point 1 2)

/-- `f()`. -/
def callOfName : Source.Expr := .call (.name "f" (.point 1 6)) [] (.point 1 7)

/-- In `o.p += f()` the object is read before the call, in the statement that stores. -/
theorem compound_stores_before_call :
    lowerAlone ⟨Facts.empty, default⟩
        (.binary memberOfName (.assignWith (.arithmetic .add)) callOfName (.point 1 5)) =
      .ok ⟨[.assign (.property (.name "o") "p") .add (.call (.name "f") [])],
        .property (.name "o") "p", [], 0, 0⟩ ∧
      (execAll rebindingInterp [.assign (.property (.name "o") "p") .add (.call (.name "f") [])]
          ⟨fun _ => 0, ⟨fun _ => 1, []⟩⟩).store =
        storeAt rebindingInterp ⟨Facts.empty, default⟩ (.assignWith (.arithmetic .add)) callOfName
          (.member 1 (.name "p")) ⟨fun _ => 1, []⟩ := by
  have hlow : lowerAlone ⟨Facts.empty, default⟩
        (.binary memberOfName (.assignWith (.arithmetic .add)) callOfName (.point 1 5)) =
      .ok ⟨[.assign (.property (.name "o") "p") .add (.call (.name "f") [])],
        .property (.name "o") "p", [], 0, 0⟩ := rfl
  obtain ⟨before, target, form, result, hstmts, hstores⟩ :=
    member_store_place rfl (fun _ _ => Source.Expr.noConfusion) hlow
  obtain ⟨rfl, hlast⟩ := List.append_inj' (List.nil_append _ |>.trans hstmts) rfl
  cases hlast
  refine ⟨hlow, (hstores _ _ rebindingInterp ⟨fun _ => 0, ⟨fun _ => 1, []⟩⟩).2
    rebindingInterp_confined ?_⟩
  intro x v hmem
  cases List.mem_singleton.1 hmem
  rfl

/-- In `o.p = f()` the object is read after the call, so that the store goes to the object that the
call has put in its place. -/
theorem rebound_object_is_written :
    lowerAlone ⟨Facts.empty, default⟩ (.binary memberOfName .assign callOfName (.point 1 5)) =
        .ok ⟨[.declare ⟨0⟩ (.call (.name "f") []),
            .assign (.property (.name "o") "p") .set (.temp ⟨0⟩)], .temp ⟨0⟩, [], 0, 0⟩ ∧
      (memberAt rebindingInterp ⟨Facts.empty, default⟩ memberOfName ⟨fun _ => 1, []⟩).1 =
        .member 1 (.name "p") ∧
      (execAll rebindingInterp [.declare ⟨0⟩ (.call (.name "f") []),
          .assign (.property (.name "o") "p") .set (.temp ⟨0⟩)]
          ⟨fun _ => 0, ⟨fun _ => 1, []⟩⟩).store.world = [2] ∧
      (storeAt rebindingInterp ⟨Facts.empty, default⟩ .assign callOfName (.member 1 (.name "p"))
          ⟨fun _ => 1, []⟩).world = [1] :=
  ⟨rfl, rfl, rfl, rfl⟩

end ExprLowering.Lowering
