import ExprLowering.Proofs.Scope
import Mathlib.Logic.Function.Basic

/-!
# What target programs do

Expressions and statements of the target language are run over an arbitrary interpretation of
literals, operators, member accesses and calls. An interpretation may change the named variables
and the world in all of these, but it neither sees nor changes a temporary. Everything is
evaluated from left to right; an assignment looks up its left side before its right side.

## Main definitions

* `Store`, `Interp`: the named variables with the world, and interpretations over them.
* `eval`, `evalAll`: the values of expressions.
* `Machine`, `exec`, `execAll`: statements, which also set temporaries.
* `result`, `results`: statements followed by expressions.
* `ReadsOnly`: statements that read no other temporaries than those given.
* `Interp.comparison`, `Interp.arithmetic`: what operators of the source language do.

## Main results

* `eval_congr`, `execAll_agree`: a run depends on the temporaries that are read only.
* `execAll_temps`: a run changes the temporaries that are declared only.
* `binary_comparisonOp`, `binary_arithmeticOp`: the operators that lowering chooses do the same.
-/

namespace ExprLowering.Target

/-- The values of the named variables, and everything else that a program can change. -/
structure Store (V W : Type) where
  vars : String → V
  world : W

/-- How a member is picked at run time. -/
inductive Key (V : Type) where
  | name (text : String)
  | value (key : V)

/-- An interpretation of the target language over values `V` and worlds `W`. -/
structure Interp (V W : Type) where
  nil : V
  bool : Bool → V
  number : String → V
  string : String → V
  /-- The names that always have the same value, with this value. -/
  fixed : String → Option V
  binary : Binop → V → V → Store V W → V × Store V W
  read : V → Key V → Store V W → V × Store V W
  write : V → Key V → V → Store V W → Store V W
  call : V → List V → Store V W → V × Store V W
  method : V → String → List V → Store V W → V × Store V W

variable {V W : Type}

/-- The value of a name. -/
def Interp.lookup (I : Interp V W) (x : String) (s : Store V W) : V := (I.fixed x).getD (s.vars x)

/-- A name gets a value. -/
def Store.bind (s : Store V W) (x : String) (v : V) : Store V W :=
  { s with vars := Function.update s.vars x v }

mutual

/-- The value of an expression, and the store after its evaluation. -/
def eval (I : Interp V W) (temps : Nat → V) : Expr → Store V W → V × Store V W
  | .nil, s => (I.nil, s)
  | .bool value, s => (I.bool value, s)
  | .number text, s => (I.number text, s)
  | .string body, s => (I.string body, s)
  | .name x, s => (I.lookup x s, s)
  | .temp t, s => (temps t.id, s)
  | .binary left op right, s =>
    let a := eval I temps left s
    let b := eval I temps right a.2
    I.binary op a.1 b.1 b.2
  | .property object name, s =>
    let a := eval I temps object s
    I.read a.1 (.name name) a.2
  | .index object key, s =>
    let a := eval I temps object s
    let b := eval I temps key a.2
    I.read a.1 (.value b.1) b.2
  | .call callee args, s =>
    let a := eval I temps callee s
    let b := evalAll I temps args a.2
    I.call a.1 b.1 b.2
  | .method object name args, s =>
    let a := eval I temps object s
    let b := evalAll I temps args a.2
    I.method a.1 name b.1 b.2
  | .paren inner, s => eval I temps inner s

/-- The values of expressions, evaluated one after the other. -/
def evalAll (I : Interp V W) (temps : Nat → V) : List Expr → Store V W → List V × Store V W
  | [], s => ([], s)
  | e :: es, s =>
    let a := eval I temps e s
    let b := evalAll I temps es a.2
    (a.1 :: b.1, b.2)

end

/-- The state of a run: the temporaries, and the store. -/
structure Machine (V W : Type) where
  temps : Nat → V
  store : Store V W

/-- What an assignment writes to. Nothing is written where the left side is not assignable. -/
inductive Place (V : Type) where
  | var (name : String)
  | temp (id : Nat)
  | member (object : V) (key : Key V)
  | nowhere

/-- Looks up the left side of an assignment. -/
def placeOf (I : Interp V W) (temps : Nat → V) : Expr → Store V W → Place V × Store V W
  | .name x, s => (.var x, s)
  | .temp t, s => (.temp t.id, s)
  | .property object name, s =>
    let a := eval I temps object s
    (.member a.1 (.name name), a.2)
  | .index object key, s =>
    let a := eval I temps object s
    let b := eval I temps key a.2
    (.member a.1 (.value b.1), b.2)
  | _, s => (.nowhere, s)

/-- The value at a place. -/
def load (I : Interp V W) (temps : Nat → V) : Place V → Store V W → V × Store V W
  | .var x, s => (I.lookup x s, s)
  | .temp t, s => (temps t, s)
  | .member object key, s => I.read object key s
  | .nowhere, s => (I.nil, s)

/-- Puts a value in a place. -/
def save (I : Interp V W) (m : Machine V W) : Place V → V → Machine V W
  | .var x, v => { m with store := m.store.bind x v }
  | .temp t, v => { m with temps := Function.update m.temps t v }
  | .member object key, v => { m with store := I.write object key v m.store }
  | .nowhere, _ => m

/-- The operator of a compound assignment. -/
def AssignOp.binop? : AssignOp → Option Binop
  | set => none
  | add => some .add
  | sub => some .sub
  | mul => some .mul
  | div => some .div
  | mod => some .mod

/-- The value that an assignment to a place puts there. -/
def assigned (I : Interp V W) (temps : Nat → V) (place : Place V) (op : AssignOp) (right : Expr)
    (s : Store V W) : V × Store V W :=
  match op.binop? with
  | none => eval I temps right s
  | some binop =>
    let old := load I temps place s
    let new := eval I temps right old.2
    I.binary binop old.1 new.1 new.2

/-- Runs a statement. -/
def exec (I : Interp V W) : Stmt → Machine V W → Machine V W
  | .declare t value, m =>
    let a := eval I m.temps value m.store
    ⟨Function.update m.temps t.id a.1, a.2⟩
  | .assign left op right, m =>
    let p := placeOf I m.temps left m.store
    let a := assigned I m.temps p.1 op right p.2
    save I ⟨m.temps, a.2⟩ p.1 a.1

/-- Runs statements one after the other. -/
def execAll (I : Interp V W) : List Stmt → Machine V W → Machine V W
  | [], m => m
  | stmt :: stmts, m => execAll I stmts (exec I stmt m)

/-- The value of an expression after statements, and the store in the end. -/
def result (I : Interp V W) (stmts : List Stmt) (value : Expr) (m : Machine V W) : V × Store V W :=
  eval I (execAll I stmts m).temps value (execAll I stmts m).store

/-- The values of expressions after statements, and the store in the end. -/
def results (I : Interp V W) (stmts : List Stmt) (values : List Expr) (m : Machine V W) :
    List V × Store V W :=
  evalAll I (execAll I stmts m).temps values (execAll I stmts m).store

@[simp] theorem execAll_nil (I : Interp V W) (m : Machine V W) : execAll I [] m = m := rfl

@[simp] theorem execAll_cons (I : Interp V W) (stmt : Stmt) (stmts : List Stmt) (m : Machine V W) :
    execAll I (stmt :: stmts) m = execAll I stmts (exec I stmt m) := rfl

@[simp] theorem execAll_append (I : Interp V W) (xs ys : List Stmt) (m : Machine V W) :
    execAll I (xs ++ ys) m = execAll I ys (execAll I xs m) := by
  induction xs generalizing m with
  | nil => rfl
  | cons stmt stmts ih => exact ih (exec I stmt m)

@[simp] theorem evalAll_nil (I : Interp V W) (temps : Nat → V) (s : Store V W) :
    evalAll I temps [] s = ([], s) := rfl

@[simp] theorem evalAll_cons (I : Interp V W) (temps : Nat → V) (e : Expr) (es : List Expr)
    (s : Store V W) :
    evalAll I temps (e :: es) s =
      ((eval I temps e s).1 :: (evalAll I temps es (eval I temps e s).2).1,
        (evalAll I temps es (eval I temps e s).2).2) := rfl

theorem evalAll_append (I : Interp V W) (temps : Nat → V) (xs ys : List Expr) (s : Store V W) :
    evalAll I temps (xs ++ ys) s =
      ((evalAll I temps xs s).1 ++ (evalAll I temps ys (evalAll I temps xs s).2).1,
        (evalAll I temps ys (evalAll I temps xs s).2).2) := by
  induction xs generalizing s with
  | nil => rfl
  | cons e es ih => simp [ih]

/-- Parentheses do not count. -/
@[simp] theorem eval_toIndexable (I : Interp V W) (temps : Nat → V) (e : Expr) (s : Store V W) :
    eval I temps e.toIndexable s = eval I temps e s := by
  unfold Expr.toIndexable
  split
  · rfl
  · rfl

-- ════════════════════════════════════════════════════════════════════════
-- What a run depends on
-- ════════════════════════════════════════════════════════════════════════

mutual

/-- The value of an expression depends on the temporaries in it only. -/
theorem eval_congr (I : Interp V W) {τ σ : Nat → V} :
    ∀ (e : Expr), (∀ t ∈ e.temps, τ t = σ t) → eval I τ e = eval I σ e
  | .nil, _ | .bool _, _ | .number _, _ | .string _, _ | .name _, _ => rfl
  | .temp t, h => by
    funext s
    simp only [eval, h t.id List.mem_cons_self]
  | .binary left op right, h => by
    have hleft := eval_congr I left fun t ht => h t (List.mem_append_left _ ht)
    have hright := eval_congr I right fun t ht => h t (List.mem_append_right _ ht)
    funext s
    simp only [eval, hleft, hright]
  | .property object name, h => by
    have hobject := eval_congr I object h
    funext s
    simp only [eval, hobject]
  | .index object key, h => by
    have hobject := eval_congr I object fun t ht => h t (List.mem_append_left _ ht)
    have hkey := eval_congr I key fun t ht => h t (List.mem_append_right _ ht)
    funext s
    simp only [eval, hobject, hkey]
  | .call callee args, h => by
    have hcallee := eval_congr I callee fun t ht => h t (List.mem_append_left _ ht)
    have hargs := evalAll_congr I args fun t ht => h t (List.mem_append_right _ ht)
    funext s
    simp only [eval, hcallee, hargs]
  | .method object name args, h => by
    have hobject := eval_congr I object fun t ht => h t (List.mem_append_left _ ht)
    have hargs := evalAll_congr I args fun t ht => h t (List.mem_append_right _ ht)
    funext s
    simp only [eval, hobject, hargs]
  | .paren inner, h => by
    have hinner := eval_congr I inner h
    funext s
    simp only [eval, hinner]

theorem evalAll_congr (I : Interp V W) {τ σ : Nat → V} :
    ∀ (es : List Expr), (∀ t ∈ tempsAll es, τ t = σ t) → evalAll I τ es = evalAll I σ es
  | [], _ => rfl
  | e :: es, h => by
    have hhead := eval_congr I e fun t ht => h t (List.mem_append_left _ ht)
    have htail := evalAll_congr I es fun t ht => h t (List.mem_append_right _ ht)
    funext s
    simp only [evalAll, hhead, htail]

end

theorem placeOf_congr (I : Interp V W) {τ σ : Nat → V} {left : Expr}
    (h : ∀ t ∈ left.temps, τ t = σ t) : placeOf I τ left = placeOf I σ left := by
  funext s
  cases left with
  | property object name => simp only [placeOf, eval_congr I object h]
  | index object key =>
    have hobject := eval_congr I object fun t ht => h t (List.mem_append_left _ ht)
    have hkey := eval_congr I key fun t ht => h t (List.mem_append_right _ ht)
    simp only [placeOf, hobject, hkey]
  | _ => rfl

theorem assigned_congr (I : Interp V W) {τ σ : Nat → V} {left right : Expr} (op : AssignOp)
    (hleft : ∀ t ∈ left.temps, τ t = σ t) (hright : ∀ t ∈ right.temps, τ t = σ t)
    (s : Store V W) :
    assigned I τ (placeOf I τ left s).1 op right =
      assigned I σ (placeOf I τ left s).1 op right := by
  have hload : load I τ (placeOf I τ left s).1 = load I σ (placeOf I τ left s).1 := by
    funext u
    cases left with
    | temp t => simp only [placeOf, load, hleft t.id List.mem_cons_self]
    | _ => rfl
  funext u
  simp only [assigned, hload, eval_congr I right hright]

/-- Two machines with the same store that agree on some temporaries. -/
structure AgreeOn (T : Nat → Prop) (m m' : Machine V W) : Prop where
  store_eq : m.store = m'.store
  temps_eq : ∀ t, T t → m.temps t = m'.temps t

/-- Statements that read no temporaries but those given and those they declare before. -/
def ReadsOnly (T : Nat → Prop) : List Stmt → Prop
  | [] => True
  | .declare t value :: stmts =>
    (∀ u ∈ value.temps, T u) ∧ ReadsOnly (fun u => u = t.id ∨ T u) stmts
  | .assign left _ right :: stmts =>
    (∀ u ∈ left.temps, T u) ∧ (∀ u ∈ right.temps, T u) ∧ ReadsOnly T stmts

theorem ReadsOnly.mono {T U : Nat → Prop} {stmts : List Stmt} (h : ReadsOnly T stmts)
    (hsub : ∀ t, T t → U t) : ReadsOnly U stmts := by
  induction stmts generalizing T U with
  | nil => trivial
  | cons stmt stmts ih =>
    cases stmt with
    | declare t value =>
      refine ⟨fun u hu => hsub u (h.1 u hu), ih h.2 ?_⟩
      rintro u (rfl | hu)
      · exact .inl rfl
      · exact .inr (hsub u hu)
    | assign left op right =>
      exact ⟨fun u hu => hsub u (h.1 u hu), fun u hu => hsub u (h.2.1 u hu), ih h.2.2 hsub⟩

/-- The temporaries that a statement reads. -/
def Stmt.temps : Stmt → List Nat
  | .declare _ value => value.temps
  | .assign left _ right => left.temps ++ right.temps

theorem readsOnly_of_temps {T : Nat → Prop} {stmts : List Stmt}
    (h : ∀ stmt ∈ stmts, ∀ t ∈ stmt.temps, T t) : ReadsOnly T stmts := by
  induction stmts generalizing T with
  | nil => trivial
  | cons stmt stmts ih =>
    have hstmt := h stmt List.mem_cons_self
    have hstmts := ih fun other hother => h other (List.mem_cons_of_mem _ hother)
    cases stmt with
    | declare t value => exact ⟨hstmt, hstmts.mono fun u hu => .inr hu⟩
    | assign left op right =>
      exact ⟨fun u hu => hstmt u (List.mem_append_left _ hu),
        fun u hu => hstmt u (List.mem_append_right _ hu), hstmts⟩

theorem Scoped.readsOnly {known : List Nat} {stmts : List Stmt} (h : Scoped known stmts) :
    ReadsOnly (· ∈ known) stmts := by
  induction stmts generalizing known with
  | nil => trivial
  | cons stmt stmts ih =>
    cases stmt with
    | declare t value =>
      refine ⟨fun u hu => h.1 hu, (ih h.2.2).mono ?_⟩
      intro u hu
      exact List.mem_cons.1 hu
    | assign left op right =>
      exact ⟨fun u hu => h.2.1 hu, fun u hu => h.2.2.1 hu, ih h.2.2.2⟩

theorem save_agree (I : Interp V W) {T : Nat → Prop} {m m' : Machine V W} (h : AgreeOn T m m')
    (place : Place V) (v : V) : AgreeOn T (save I m place v) (save I m' place v) := by
  obtain ⟨hstore, htemps⟩ := h
  cases place with
  | var x => exact ⟨by simp only [save, hstore], htemps⟩
  | member object key => exact ⟨by simp only [save, hstore], htemps⟩
  | nowhere => exact ⟨hstore, htemps⟩
  | temp t =>
    refine ⟨hstore, fun u hu => ?_⟩
    by_cases heq : u = t
    · simp [save, heq]
    · simp [save, heq, htemps u hu]

/-- Runs of statements from machines that agree on what is read end in such machines. -/
theorem execAll_agree (I : Interp V W) {T : Nat → Prop} {stmts : List Stmt} {m m' : Machine V W}
    (hreads : ReadsOnly T stmts) (h : AgreeOn T m m') :
    AgreeOn (fun t => T t ∨ t ∈ declared stmts) (execAll I stmts m) (execAll I stmts m') := by
  induction stmts generalizing T m m' with
  | nil => exact ⟨h.store_eq, fun t ht => h.temps_eq t (by simpa using ht)⟩
  | cons stmt stmts ih =>
    cases stmt with
    | declare t value =>
      have hvalue := eval_congr I value fun u hu => h.temps_eq u (hreads.1 u hu)
      have hnext : AgreeOn (fun u => u = t.id ∨ T u) (exec I (.declare t value) m)
          (exec I (.declare t value) m') := by
        refine ⟨by simp only [exec, hvalue, h.store_eq], fun u hu => ?_⟩
        by_cases heq : u = t.id
        · simp [exec, heq, hvalue, h.store_eq]
        · simp [exec, heq, h.temps_eq u (hu.resolve_left heq)]
      have hend := ih hreads.2 hnext
      refine ⟨hend.store_eq, fun u hu => hend.temps_eq u ?_⟩
      simp only [declared_declare, List.mem_cons] at hu ⊢
      grind
    | assign left op right =>
      have hleft := fun u hu => h.temps_eq u (hreads.1 u hu)
      have hright := fun u hu => h.temps_eq u (hreads.2.1 u hu)
      have hnext : AgreeOn T (exec I (.assign left op right) m)
          (exec I (.assign left op right) m') := by
        simp only [exec, ← placeOf_congr I hleft, ← h.store_eq,
          ← assigned_congr I op hleft hright m.store]
        have hafter (s : Store V W) : AgreeOn T ⟨m.temps, s⟩ ⟨m'.temps, s⟩ := ⟨rfl, h.temps_eq⟩
        exact save_agree I (hafter _) _ _
      exact ih hreads.2.2 hnext

/-- Statements that assign to no temporary. -/
def KeepsTemps (stmts : List Stmt) : Prop :=
  ∀ left op right, Stmt.assign left op right ∈ stmts → left.isTemp = false

theorem Scoped.keepsTemps {known : List Nat} {stmts : List Stmt} (h : Scoped known stmts) :
    KeepsTemps stmts := by
  induction stmts generalizing known with
  | nil => intro left op right hmem; cases hmem
  | cons stmt stmts ih =>
    intro left op right hmem
    cases stmt with
    | declare t value => exact ih h.2.2 left op right (by simpa using hmem)
    | assign left' op' right' =>
      rcases List.mem_cons.1 hmem with heq | hmem
      · cases heq
        exact h.1
      · exact ih h.2.2.2 left op right hmem

/-- Looking up an assignable expression other than a temporary never gives a temporary. -/
theorem save_placeOf_temps (I : Interp V W) {left : Expr} (h : left.isTemp = false) (τ : Nat → V)
    (s : Store V W) (m : Machine V W) (v : V) :
    (save I m (placeOf I τ left s).1 v).temps = m.temps := by
  cases left with
  | temp t => cases h
  | _ => rfl

/-- Statements change no temporaries but those that they declare. -/
theorem execAll_temps (I : Interp V W) {stmts : List Stmt} (h : KeepsTemps stmts) {t : Nat}
    (ht : t ∉ declared stmts) (m : Machine V W) : (execAll I stmts m).temps t = m.temps t := by
  induction stmts generalizing m with
  | nil => rfl
  | cons stmt stmts ih =>
    have hrest : KeepsTemps stmts := fun left op right hmem =>
      h left op right (List.mem_cons_of_mem _ hmem)
    cases stmt with
    | declare u value =>
      have hne : t ≠ u.id := fun heq => ht (heq ▸ List.mem_cons_self)
      rw [execAll_cons, ih hrest fun hmem => ht (List.mem_cons_of_mem _ hmem)]
      exact Function.update_of_ne hne ..
    | assign left op right =>
      rw [execAll_cons, ih hrest ht]
      simp only [exec, save_placeOf_temps I (h left op right List.mem_cons_self)]

-- ════════════════════════════════════════════════════════════════════════
-- Stores
-- ════════════════════════════════════════════════════════════════════════

/-- Operators and member accesses change no named variable; only calls may. -/
structure Interp.Confined (I : Interp V W) : Prop where
  binary : ∀ op a b s, (I.binary op a b s).2.vars = s.vars
  read : ∀ object key s, (I.read object key s).2.vars = s.vars
  write : ∀ object key v s, (I.write object key v s).vars = s.vars

/-- Puts a value in a place other than a temporary. -/
def Interp.put (I : Interp V W) : Place V → V → Store V W → Store V W
  | .var x, v, s => s.bind x v
  | .member object key, v, s => I.write object key v s
  | .temp _, _, s | .nowhere, _, s => s

theorem store_save (I : Interp V W) (m : Machine V W) (place : Place V) (v : V) :
    (save I m place v).store = I.put place v m.store := by
  cases place with
  | var x => rfl
  | temp t => rfl
  | member object key => rfl
  | nowhere => rfl

theorem exec_set {I : Interp V W} {left right : Expr} {m : Machine V W} {place : Place V}
    {s : Store V W} (h : placeOf I m.temps left m.store = (place, s)) :
    exec I (.assign left .set right) m =
      save I ⟨m.temps, (eval I m.temps right s).2⟩ place (eval I m.temps right s).1 := by
  rw [exec, h]
  rfl

theorem vars_put {I : Interp V W} (hI : I.Confined) {place : Place V} {x : String}
    (h : place ≠ .var x) (v : V) (s : Store V W) : (I.put place v s).vars x = s.vars x := by
  cases place with
  | var y =>
    have hne : x ≠ y := fun heq => h (heq ▸ rfl)
    exact Function.update_of_ne hne ..
  | member object key => exact congrFun (hI.write ..) x
  | temp t => rfl
  | nowhere => rfl

theorem vars_load {I : Interp V W} (hI : I.Confined) (τ : Nat → V) (place : Place V)
    (s : Store V W) : (load I τ place s).2.vars = s.vars := by
  cases place with
  | member object key => exact hI.read ..
  | var x => rfl
  | temp t => rfl
  | nowhere => rfl

-- ════════════════════════════════════════════════════════════════════════
-- Operators of the source language
-- ════════════════════════════════════════════════════════════════════════

/-- What a comparison of the source language does. -/
def Interp.comparison (I : Interp V W) :
    Source.Comparison → V → V → Store V W → V × Store V W
  | .eq => I.binary .eq
  | .ne => I.binary .ne
  | .lt => I.binary .lt
  | .le => I.binary .le
  | .gt => I.binary .gt
  | .ge => I.binary .ge

/-- What an arithmetic operator of the source language does. -/
def Interp.arithmetic (I : Interp V W) :
    Source.Arithmetic → V → V → Store V W → V × Store V W
  | .add => I.binary .add
  | .sub => I.binary .sub
  | .mul => I.binary .mul
  | .div => I.binary .div
  | .mod => I.binary .mod
  | .pow => I.binary .pow

/-- The function of the library `bit32` for an operator of the source language. -/
def bitName : Source.Bitwise → String
  | .and => "band"
  | .or => "bor"
  | .xor => "bxor"
  | .shl => "lshift"
  | .shr => "arshift"
  | .ushr => "rshift"

open Lowering (arithmeticOp bitFunction comparisonOp)

@[simp] theorem binary_comparisonOp (I : Interp V W) (c : Source.Comparison) :
    I.binary (comparisonOp c) = I.comparison c := by
  cases c <;> rfl

@[simp] theorem binary_arithmeticOp (I : Interp V W) (op : Source.Arithmetic) :
    I.binary (arithmeticOp op) = I.arithmetic op := by
  cases op <;> rfl

@[simp] theorem name_bitFunction (op : Source.Bitwise) : (bitFunction op).name = bitName op := by
  cases op <;> rfl

theorem Interp.Confined.comparison {I : Interp V W} (hI : I.Confined) (c : Source.Comparison)
    (a b : V) (s : Store V W) : (I.comparison c a b s).2.vars = s.vars := by
  rw [← binary_comparisonOp]
  exact hI.binary ..

theorem Interp.Confined.arithmetic {I : Interp V W} (hI : I.Confined) (op : Source.Arithmetic)
    (a b : V) (s : Store V W) : (I.arithmetic op a b s).2.vars = s.vars := by
  rw [← binary_arithmeticOp]
  exact hI.binary ..

end ExprLowering.Target
