import ExprLowering.Proofs.Effects
import ExprLowering.Proofs.Pending

/-!
# What source expressions mean

A source expression is a function on stores, over the interpretation that target programs run with.
Everything is evaluated from left to right, and the target of an assignment before its right side.

## Main definitions

* `Interp.PureText`, `Interp.Confined`: what is asked of interpretations.
* `meaning`, `placeMeaning`: the value of an expression, and the place that an assignment writes to.
* `Keeps`: nothing in an expression can change a name.

## Main results

* `lookup_meaning`: an expression that neither calls nor assigns to a name keeps its value.
-/

namespace ExprLowering.Target

variable {V W : Type}

/-- The conversion that templates insert is a function of its own, and conversions and
concatenations have no effects. -/
structure Interp.PureText (I : Interp V W) where
  tostring : V
  text : V → V
  join : V → V → V
  fixed_eq : ∀ x, I.fixed x = if x = "tostring" then some tostring else none
  call_tostring : ∀ v s, I.call tostring [v] s = (text v, s)
  binary_concat : ∀ a b s, I.binary .concat a b s = (join a b, s)

end ExprLowering.Target

namespace ExprLowering.Lowering

open Source (Substitution)
open Target

variable {V W : Type}

/-- The value of a literal. -/
def literalMeaning (I : Interp V W) : Source.Literal → V
  | .bool value => I.bool value
  | .number raw => I.number (Numeral.text raw)
  | .string raw => I.string (StringBody.ofQuoted raw)
  | .template raw => I.string (StringBody.ofQuotedTemplate raw)

/-- A text of a template as a value; an empty text is none. -/
def textValues (I : Interp V W) (text : String) : List V :=
  if text.isEmpty then [] else [I.string (StringBody.ofTemplate text)]

/-- The values that a template joins after its first text. -/
def partValues {I : Interp V W} (P : I.PureText) (facts : Facts) :
    List (Substitution Source.Expr) → List V → List V
  | part :: parts, v :: vs =>
    (if (facts.typeOf part.expr).isString then v else P.text v) ::
      (textValues I part.text ++ partValues P facts parts vs)
  | _, _ => []

/-- Values joined from left to right. -/
def joinAll {I : Interp V W} (P : I.PureText) : List V → V
  | [] => I.string ""
  | v :: vs => vs.foldl P.join v

/-- The value of an operator, given what its left side does as an operand and as the target of an
assignment, and what its right side does. -/
def operation (I : Interp V W) : Source.Operator → (Store V W → V × Store V W) →
    (Store V W → Place V × Store V W) → (Store V W → V × Store V W) →
    Store V W → V × Store V W
  | .comparison c, left, _, right, s =>
    let a := left s
    let b := right a.2
    I.comparison c a.1 b.1 b.2
  | .calculation (.arithmetic op), left, _, right, s =>
    let a := left s
    let b := right a.2
    I.arithmetic op a.1 b.1 b.2
  | .assign, _, place, right, s =>
    let p := place s
    let a := right p.2
    (a.1, I.put p.1 a.1 a.2)
  | .assignWith (.arithmetic op), _, place, right, s =>
    let p := place s
    let old := load I (fun _ => I.nil) p.1 p.2
    let a := right old.2
    let r := I.arithmetic op old.1 a.1 a.2
    (r.1, I.put p.1 r.1 r.2)
  | _, _, _, _, s => (I.nil, s)

mutual

/-- The value of a source expression, and the store after its evaluation. Bitwise and
logical operators, optional accesses and operators that are refused are left out: they are given
the absent value. -/
def meaning {I : Interp V W} (P : I.PureText) (facts : Facts) :
    Source.Expr → Store V W → V × Store V W
  | .name text _, s => if text = "undefined" then (I.nil, s) else (I.lookup text s, s)
  | .literal value _, s => (literalMeaning I value, s)
  | .template head parts _, s =>
    let r := partMeanings P facts parts s
    (joinAll P (textValues I head ++ partValues P facts parts r.1), r.2)
  | .binary left op right _, s =>
    operation I op (meaning P facts left) (placeMeaning P facts left) (meaning P facts right) s
  | .property object name _ false _, s =>
    let a := meaning P facts object s
    I.read a.1 (.name name) a.2
  | .element object index false _, s =>
    let a := meaning P facts object s
    let b := meaning P facts index a.2
    I.read a.1 (.value b.1) b.2
  | .call callee args _, s =>
    let a := meaning P facts callee s
    let b := meanings P facts args a.2
    I.call a.1 b.1 b.2
  | .delete operand _, s =>
    let p := placeMeaning P facts operand s
    (I.nil, I.put p.1 I.nil p.2)
  | .wrap _ inner _, s => meaning P facts inner s
  | .property _ _ _ true _, s | .element _ _ true _, s => (I.nil, s)

/-- The place that an expression stands for on the left of an assignment, whatever its wrappers. -/
def placeMeaning {I : Interp V W} (P : I.PureText) (facts : Facts) :
    Source.Expr → Store V W → Place V × Store V W
  | .name text _, s => (.var text, s)
  | .property object name _ false _, s =>
    let a := meaning P facts object s
    (.member a.1 (.name name), a.2)
  | .element object index false _, s =>
    let a := meaning P facts object s
    let b := meaning P facts index a.2
    (.member a.1 (.value b.1), b.2)
  | .wrap _ inner _, s => placeMeaning P facts inner s
  | _, s => (.nowhere, s)

/-- The values of expressions, evaluated one after the other. -/
def meanings {I : Interp V W} (P : I.PureText) (facts : Facts) :
    List Source.Expr → Store V W → List V × Store V W
  | [], s => ([], s)
  | e :: es, s =>
    let a := meaning P facts e s
    let b := meanings P facts es a.2
    (a.1 :: b.1, b.2)

/-- The values of the substitutions of a template. -/
def partMeanings {I : Interp V W} (P : I.PureText) (facts : Facts) :
    List (Substitution Source.Expr) → Store V W → List V × Store V W
  | [], s => ([], s)
  | ⟨e, _, _⟩ :: parts, s =>
    let a := meaning P facts e s
    let b := partMeanings P facts parts a.2
    (a.1 :: b.1, b.2)

end

theorem meanings_eq_runAll {I : Interp V W} (P : I.PureText) (facts : Facts)
    (es : List Source.Expr) (s : Store V W) :
    meanings P facts es s = runAll (meaning P facts) es s := by
  induction es generalizing s with
  | nil => rfl
  | cons e es ih => simp only [meanings, runAll, ih]

theorem partMeanings_eq_runAll {I : Interp V W} (P : I.PureText) (facts : Facts)
    (parts : List (Substitution Source.Expr)) (s : Store V W) :
    partMeanings P facts parts s = runAll (meaning P facts) (parts.map (·.expr)) s := by
  induction parts generalizing s with
  | nil => rfl
  | cons part parts ih => simp only [partMeanings, runAll, List.map_cons, ih]

theorem placeMeaning_unwrap {I : Interp V W} (P : I.PureText) (facts : Facts) (e : Source.Expr)
    (s : Store V W) : placeMeaning P facts e.unwrap s = placeMeaning P facts e s := by
  fun_induction Source.Expr.unwrap e with
  | case1 _ inner _ ih => rw [ih, placeMeaning]
  | case2 e _ => rfl

-- ════════════════════════════════════════════════════════════════════════
-- Names that keep their values
-- ════════════════════════════════════════════════════════════════════════

/-- Whether an expression is a given name, whatever its wrappers. -/
def isNamed (x : String) : Source.Expr → Bool
  | .name text _ => text == x
  | .wrap _ inner _ => isNamed x inner
  | _ => false

/-- Whether an expression can itself change the value of a name. -/
def changes (x : String) : Source.Expr → Bool
  | .call .. => true
  | .binary left op _ _ => op.isAssignment && isNamed x left
  | .delete operand _ => isNamed x operand
  | _ => false

/-- Nothing inside an expression can change the value of a name. -/
def Keeps (x : String) (e : Source.Expr) : Prop := ∀ d ∈ e.nodes, changes x d = false

theorem isNamed_of_placeMeaning {I : Interp V W} {P : I.PureText} {facts : Facts} {x : String}
    {s : Store V W} {e : Source.Expr} (h : (placeMeaning P facts e s).1 = .var x) :
    isNamed x e = true := by
  fun_induction isNamed x e with
  | case1 text span =>
    rw [placeMeaning] at h
    cases h
    exact beq_self_eq_true _
  | case2 wrapper inner span ih => exact ih (by rwa [placeMeaning] at h)
  | case3 e hname hwrap =>
    -- Other expressions stand for a member or for no place.
    exfalso
    unfold placeMeaning at h
    split at h
    · exact hname _ _ rfl
    · cases h
    · cases h
    · exact hwrap _ _ _ rfl
    · cases h

/-- An operator keeps what its sides keep, unless it assigns to it. -/
theorem vars_operation {I : Interp V W} (hI : I.Confined) {op : Source.Operator}
    {left right : Store V W → V × Store V W} {place : Store V W → Place V × Store V W} {x : String}
    (hleft : ∀ s, (left s).2.vars x = s.vars x) (hplace : ∀ s, (place s).2.vars x = s.vars x)
    (hright : ∀ s, (right s).2.vars x = s.vars x)
    (hne : op.isAssignment = true → ∀ s, (place s).1 ≠ .var x) (s : Store V W) :
    (operation I op left place right s).2.vars x = s.vars x := by
  unfold operation
  split
  · rw [hI.comparison, hright, hleft]
  · rw [hI.arithmetic, hright, hleft]
  · rw [vars_put hI (hne rfl _), hright, hplace]
  · rw [vars_put hI (hne rfl _), hI.arithmetic, hright, vars_load hI, hplace]
  · rfl

mutual

/-- What neither calls nor assigns to a name keeps its value. -/
theorem vars_meaning {I : Interp V W} (hI : I.Confined) (P : I.PureText) (facts : Facts)
    (x : String) : ∀ (e : Source.Expr), Keeps x e →
      ∀ s, (meaning P facts e s).2.vars x = s.vars x
  | .name text span, _, s => by
    rw [meaning]
    split
    · rfl
    · rfl
  | .literal value span, _, s => by rw [meaning]
  | .template head parts span, h, s => by
    rw [meaning]
    exact vars_partMeanings hI P facts x parts (fun d hd => h d (List.mem_cons_of_mem _ hd)) s
  | .binary left op right span, h, s => by
    have hleft : Keeps x left := fun d hd => h d (by simp [Source.Expr.nodes, hd])
    have hright : Keeps x right := fun d hd => h d (by simp [Source.Expr.nodes, hd])
    rw [meaning]
    refine vars_operation hI (vars_meaning hI P facts x left hleft)
      (vars_placeMeaning hI P facts x left hleft) (vars_meaning hI P facts x right hright) ?_ s
    intro hassign u hvar
    have hown := h _ List.mem_cons_self
    rw [changes, hassign, isNamed_of_placeMeaning hvar] at hown
    cases hown
  | .property object name nameSpan false span, h, s => by
    rw [meaning, hI.read]
    exact vars_meaning hI P facts x object (fun d hd => h d (List.mem_cons_of_mem _ hd)) s
  | .property object name nameSpan true span, _, s => by rw [meaning]
  | .element object index false span, h, s => by
    have hobject : Keeps x object := fun d hd => h d (by simp [Source.Expr.nodes, hd])
    have hindex : Keeps x index := fun d hd => h d (by simp [Source.Expr.nodes, hd])
    rw [meaning, hI.read, vars_meaning hI P facts x index hindex,
      vars_meaning hI P facts x object hobject]
  | .element object index true span, _, s => by rw [meaning]
  | .call callee args span, h, s => by cases h _ List.mem_cons_self
  | .delete operand span, h, s => by
    have hne : (placeMeaning P facts operand s).1 ≠ .var x := by
      intro hvar
      have hown := h _ List.mem_cons_self
      rw [changes, isNamed_of_placeMeaning hvar] at hown
      cases hown
    rw [meaning, vars_put hI hne]
    exact vars_placeMeaning hI P facts x operand (fun d hd => h d (List.mem_cons_of_mem _ hd)) s
  | .wrap wrapper inner span, h, s => by
    rw [meaning]
    exact vars_meaning hI P facts x inner (fun d hd => h d (List.mem_cons_of_mem _ hd)) s

theorem vars_placeMeaning {I : Interp V W} (hI : I.Confined) (P : I.PureText) (facts : Facts)
    (x : String) : ∀ (e : Source.Expr), Keeps x e →
      ∀ s, (placeMeaning P facts e s).2.vars x = s.vars x
  | .property object name nameSpan false span, h, s => by
    rw [placeMeaning]
    exact vars_meaning hI P facts x object (fun d hd => h d (List.mem_cons_of_mem _ hd)) s
  | .element object index false span, h, s => by
    have hobject : Keeps x object := fun d hd => h d (by simp [Source.Expr.nodes, hd])
    have hindex : Keeps x index := fun d hd => h d (by simp [Source.Expr.nodes, hd])
    rw [placeMeaning, vars_meaning hI P facts x index hindex,
      vars_meaning hI P facts x object hobject]
  | .wrap wrapper inner span, h, s => by
    rw [placeMeaning]
    exact vars_placeMeaning hI P facts x inner (fun d hd => h d (List.mem_cons_of_mem _ hd)) s
  | .name .., _, s | .literal .., _, s | .template .., _, s | .binary .., _, s
  | .property _ _ _ true _, _, s | .element _ _ true _, _, s | .call .., _, s
  | .delete .., _, s => by simp [placeMeaning]

theorem vars_partMeanings {I : Interp V W} (hI : I.Confined) (P : I.PureText) (facts : Facts)
    (x : String) : ∀ (parts : List (Substitution Source.Expr)),
      (∀ d ∈ Source.partNodes parts, changes x d = false) →
      ∀ s, (partMeanings P facts parts s).2.vars x = s.vars x
  | [], _, s => by rw [partMeanings]
  | ⟨e, _, _⟩ :: parts, h, s => by
    have hhead : Keeps x e := fun d hd => h d (List.mem_append_left _ hd)
    rw [partMeanings, vars_partMeanings hI P facts x parts
      (fun d hd => h d (List.mem_append_right _ hd)), vars_meaning hI P facts x e hhead]

end

theorem lookup_meaning {I : Interp V W} (hI : I.Confined) (P : I.PureText) (facts : Facts)
    {x : String} {e : Source.Expr} (h : Keeps x e) (s : Store V W) :
    I.lookup x (meaning P facts e s).2 = I.lookup x s := by
  rw [Interp.lookup, Interp.lookup, vars_meaning hI P facts x e h]

end ExprLowering.Lowering
