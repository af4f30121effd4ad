import ExprLowering.Proofs.Pending

/-!
# The numbers of temporaries do not matter

A lowering that starts at another temporary is the same lowering with its temporaries renumbered. So
what an expression does when it is run does not depend on the temporaries that were taken before.

## Main definitions

* `Expr.renumber`, `Stmt.renumber`, `Growth.renumber`: temporaries get other numbers.
* `yield`: what the lowering of an expression on its own does.

## Main results

* `Lowers.renumber`: derivations can be renumbered.
* `Lowers.realizes_yield`: every lowering of an expression does what the one on its own does.
-/

namespace ExprLowering.Target

mutual

/-- The expression with all temporaries renumbered by `f`. -/
def Expr.renumber (f : Nat → Nat) : Expr → Expr
  | .nil => .nil
  | .bool value => .bool value
  | .number text => .number text
  | .string body => .string body
  | .name text => .name text
  | .temp t => .temp ⟨f t.id⟩
  | .binary left op right => .binary (left.renumber f) op (right.renumber f)
  | .property object name => .property (object.renumber f) name
  | .index object key => .index (object.renumber f) (key.renumber f)
  | .call callee args => .call (callee.renumber f) (renumberAll f args)
  | .method object name args => .method (object.renumber f) name (renumberAll f args)
  | .paren inner => .paren (inner.renumber f)

/-- Expressions with all temporaries renumbered by `f`. -/
def renumberAll (f : Nat → Nat) : List Expr → List Expr
  | [] => []
  | e :: es => e.renumber f :: renumberAll f es

end

/-- The statement with all temporaries renumbered by `f`. -/
def Stmt.renumber (f : Nat → Nat) : Stmt → Stmt
  | .declare t value => .declare ⟨f t.id⟩ (value.renumber f)
  | .assign left op right => .assign (left.renumber f) op (right.renumber f)

theorem renumberAll_eq_map (f : Nat → Nat) (es : List Expr) :
    renumberAll f es = es.map (Expr.renumber f) := by
  induction es with
  | nil => rfl
  | cons e es ih => rw [renumberAll, ih, List.map_cons]

mutual

theorem Expr.renumber_id : ∀ e : Expr, e.renumber id = e
  | .nil | .bool _ | .number _ | .string _ | .name _ | .temp _ => rfl
  | .binary left _ right => by rw [Expr.renumber, left.renumber_id, right.renumber_id]
  | .property object _ => by rw [Expr.renumber, object.renumber_id]
  | .index object key => by rw [Expr.renumber, object.renumber_id, key.renumber_id]
  | .call callee args => by rw [Expr.renumber, callee.renumber_id, renumberAll_id args]
  | .method object _ args => by rw [Expr.renumber, object.renumber_id, renumberAll_id args]
  | .paren inner => by rw [Expr.renumber, inner.renumber_id]

theorem renumberAll_id : ∀ es : List Expr, renumberAll id es = es
  | [] => rfl
  | e :: es => by rw [renumberAll, e.renumber_id, renumberAll_id es]

end

theorem Stmt.renumber_id (stmt : Stmt) : stmt.renumber id = stmt := by
  cases stmt with
  | declare t value => rw [Stmt.renumber, Expr.renumber_id]; rfl
  | assign left op right => rw [Stmt.renumber, Expr.renumber_id, Expr.renumber_id]

namespace Expr

@[simp] theorem isAtom_renumber (f : Nat → Nat) (e : Expr) : (e.renumber f).isAtom = e.isAtom := by
  cases e <;> rfl

@[simp] theorem isSettled_renumber (f : Nat → Nat) (e : Expr) :
    (e.renumber f).isSettled = e.isSettled := by
  cases e <;> rfl

@[simp] theorem isAssignable_renumber (f : Nat → Nat) (e : Expr) :
    (e.renumber f).isAssignable = e.isAssignable := by
  cases e <;> rfl

@[simp] theorem toIndexable_renumber (f : Nat → Nat) (e : Expr) :
    (e.renumber f).toIndexable = e.toIndexable.renumber f := by
  cases e <;> rfl

end Expr

end ExprLowering.Target

namespace ExprLowering.Lowering

open Source (Substitution)
open Target

/-- The growth with all temporaries renumbered by `f`. -/
def Growth.renumber (f : Nat → Nat) (g : Growth) : Growth :=
  { g with stmts := g.stmts.map (Stmt.renumber f) }

@[simp] theorem Growth.renumber_empty (f : Nat → Nat) : (∅ : Growth).renumber f = ∅ := rfl

@[simp] theorem Growth.renumber_append (f : Nat → Nat) (g h : Growth) :
    (g ++ h).renumber f = g.renumber f ++ h.renumber f := by
  show Growth.mk _ _ _ _ _ = Growth.mk _ _ _ _ _
  simp [Growth.renumber]

@[simp] theorem Growth.renumber_temps (f : Nat → Nat) (g : Growth) :
    (g.renumber f).temps = g.temps := rfl

@[simp] theorem Growth.renumber_stmts (f : Nat → Nat) (g : Growth) :
    (g.renumber f).stmts = g.stmts.map (Stmt.renumber f) := rfl

-- ════════════════════════════════════════════════════════════════════════
-- What rules are made of
-- ════════════════════════════════════════════════════════════════════════

theorem saved_renumber (f : Nat → Nat) (n : Nat) (value : Expr) :
    saved (f n) (value.renumber f) =
      ((saved n value).1.renumber f, (saved n value).2.renumber f) := by
  cases h : value.isAtom with
  | true => rw [saved_atom h, saved_atom (by rw [Expr.isAtom_renumber, h])]; rfl
  | false => rw [saved_complex h, saved_complex (by rw [Expr.isAtom_renumber, h])]; rfl

/-- The numbers from `first` on are renumbered without gaps. -/
def Gapless (f : Nat → Nat) (first : Nat) : Prop := ∀ t, first ≤ t → f (t + 1) = f t + 1

theorem gapless_id : Gapless id 0 := fun _ _ => rfl

theorem Gapless.add {f : Nat → Nat} {first : Nat} (h : Gapless f first) {n : Nat}
    (hn : first ≤ n) (i : Nat) : f (n + i) = f n + i := by
  induction i with
  | zero => rfl
  | succ i ih => rw [← Nat.add_assoc, h (n + i) (by omega), ih, Nat.add_assoc]

theorem Gapless.next {f : Nat → Nat} {first : Nat} (h : Gapless f first) {n : Nat}
    (hn : first ≤ n) (g : Growth) : f (n + g.temps) = f n + (g.renumber f).temps :=
  h.add hn g.temps

theorem settleAll_renumber {f : Nat → Nat} {first : Nat} (hf : Gapless f first) {n : Nat}
    (hn : first ≤ n) (values : List Expr) :
    settleAll (f n) (values.map (Expr.renumber f)) =
      ((settleAll n values).1.map (Expr.renumber f), (settleAll n values).2.renumber f) := by
  induction values generalizing n with
  | nil => rfl
  | cons value values ih =>
    cases h : value.isSettled with
    | true =>
      rw [List.map_cons, settleAll_cons_settled h,
        settleAll_cons_settled (by rw [Expr.isSettled_renumber, h]), ih hn]
      rfl
    | false =>
      rw [List.map_cons, settleAll_cons_unsettled h,
        settleAll_cons_unsettled (by rw [Expr.isSettled_renumber, h]), ← hf n hn,
        ih (Nat.le_succ_of_le hn)]
      simp only [Growth.renumber_append]
      rfl

theorem displaced_renumber {f : Nat → Nat} {first : Nat} (hf : Gapless f first) {n : Nat}
    (hn : first ≤ n) (earlier : List Expr) (stmts : List Stmt) :
    displaced (f n) (earlier.map (Expr.renumber f)) (stmts.map (Stmt.renumber f)) =
      ((displaced n earlier stmts).1.map (Expr.renumber f),
        (displaced n earlier stmts).2.renumber f) := by
  cases stmts with
  | nil => rfl
  | cons stmt stmts => exact settleAll_renumber hf hn earlier

theorem nameValue_renumber (f : Nat → Nat) (text : String) :
    (nameValue text).renumber f = nameValue text := by
  rw [nameValue]
  split
  · rfl
  · rfl

theorem literalValue_renumber (f : Nat → Nat) (value : Source.Literal) :
    (literalValue value).renumber f = literalValue value := by
  cases value <;> rfl

theorem constantValue_renumber (f : Nat → Nat) (constant : Constant) :
    (constantValue constant).renumber f = constantValue constant := by
  cases constant <;> rfl

theorem build_renumber (f : Nat → Nat) (form : SimpleForm) (a b : Expr) :
    (form.build a b).renumber f = form.build (a.renumber f) (b.renumber f) := by
  cases form <;> rfl

theorem concatenation_renumber (f : Nat → Nat) (segments : List Expr) :
    (concatenation segments).renumber f = concatenation (segments.map (Expr.renumber f)) := by
  have hchain (first : Expr) (rest : List Expr) :
      (rest.foldl (fun chain segment => .binary chain .concat segment) first).renumber f =
        (rest.map (Expr.renumber f)).foldl (fun chain segment => .binary chain .concat segment)
          (first.renumber f) := by
    induction rest generalizing first with
    | nil => rfl
    | cons segment rest ih => exact ih _
  cases segments with
  | nil => rfl
  | cons first rest => exact hchain first rest

theorem textSegment_renumber (f : Nat → Nat) (text : String) :
    (textSegment text).map (Expr.renumber f) = textSegment text := by
  rw [textSegment]
  split
  · rfl
  · rfl

theorem partSegments_renumber (f : Nat → Nat) (facts : Facts)
    (parts : List (Substitution Source.Expr)) (values : List Expr) :
    (partSegments facts parts values).map (Expr.renumber f) =
      partSegments facts parts (values.map (Expr.renumber f)) := by
  induction parts generalizing values with
  | nil => rfl
  | cons part parts ih =>
    cases values with
    | nil => rfl
    | cons value values =>
      have hvalue : (valueSegment facts part.expr value).renumber f =
          valueSegment facts part.expr (value.renumber f) := by
        rw [valueSegment, valueSegment]
        split
        · rfl
        · rfl
      simp only [partSegments, List.map_cons, List.map_append, hvalue, textSegment_renumber, ih]

theorem templateValue_renumber (f : Nat → Nat) (facts : Facts) (head : String)
    (parts : List (Substitution Source.Expr)) (values : List Expr) :
    (templateValue facts head parts values).renumber f =
      templateValue facts head parts (values.map (Expr.renumber f)) := by
  rw [templateValue, concatenation_renumber, List.map_append, textSegment_renumber,
    partSegments_renumber, templateValue]

theorem memberRead_renumber (f : Nat → Nat) (role : Option Role) (member : Expr) :
    memberRead role (member.renumber f) =
      ((memberRead role member).1.renumber f, (memberRead role member).2.renumber f) := by
  rw [memberRead, memberRead]
  split
  · rfl
  · rfl

theorem propertyRead_renumber (f : Nat → Nat) (ctx : Context) (role : Option Role)
    (object : Source.Expr) (name : String) (nameSpan span : Span) (value : Expr) :
    propertyRead ctx role object name nameSpan span (value.renumber f) =
      ((propertyRead ctx role object name nameSpan span value).1.renumber f,
        (propertyRead ctx role object name nameSpan span value).2.renumber f) := by
  have hnote : (nameNote name nameSpan).renumber f = nameNote name nameSpan := by
    rw [nameNote]
    split
    · rfl
    · rfl
  have hmember : constantOrMember ctx role span (.property (value.renumber f).toIndexable name) =
      ((constantOrMember ctx role span (.property value.toIndexable name)).1.renumber f,
        (constantOrMember ctx role span (.property value.toIndexable name)).2.renumber f) := by
    rw [constantOrMember, constantOrMember]
    split
    · rw [constantValue_renumber]; rfl
    · rw [Expr.toIndexable_renumber]
      exact memberRead_renumber f role (.property value.toIndexable name)
  rw [propertyRead, propertyRead]
  split
  · rfl
  split
  · rfl
  split
  · rfl
  simp only [hmember, Growth.renumber_append, hnote]

theorem elementRead_renumber (f : Nat → Nat) (ctx : Context) (role : Option Role)
    (object : Source.Expr) (value index : Expr) :
    elementRead ctx role object (value.renumber f) (index.renumber f) =
      ((elementRead ctx role object value index).1.renumber f,
        (elementRead ctx role object value index).2.renumber f) := by
  rw [elementRead, elementRead]
  split
  · rfl
  · rw [Expr.toIndexable_renumber]
    exact memberRead_renumber f role (.index value.toIndexable index)

theorem expansion_renumber {f : Nat → Nat} {n : Nat} {object result : Expr} {args : List Expr}
    {g : Growth} {expander : Expander}
    (h : expansion n object args expander = some (result, g)) :
    expansion (f n) (object.renumber f) (args.map (Expr.renumber f)) expander =
      some (result.renumber f, g.renumber f) := by
  cases expander with
  | unit => cases h; rfl
  | length => cases h; rfl
  | push =>
    cases h
    simp only [expansion, saved_renumber, Expr.renumber, renumberAll, renumberAll_eq_map]
  | fail => cases h
  | effect =>
    cases h
    simp only [expansion, Expr.renumber, renumberAll_eq_map, Growth.renumber_append]
    rfl

theorem compoundStmt_renumber (f : Nat → Nat) (options : Options) (op : Source.Calculation)
    (place value : Expr) :
    (compoundStmt options op place value).renumber f =
      compoundStmt options op (place.renumber f) (value.renumber f) := by
  rw [compoundStmt, compoundStmt]
  split
  · rfl
  · rw [Stmt.renumber, build_renumber]

-- ════════════════════════════════════════════════════════════════════════
-- Derivations
-- ════════════════════════════════════════════════════════════════════════

/-- The work with all temporaries renumbered by `f`. -/
def Job.renumber (f : Nat → Nat) : Job → Job
  | .expr role e => .expr role e
  | .target left => .target left
  | .operands earlier es => .operands (earlier.map (Expr.renumber f)) es

theorem Lowers.cast {ctx : Context} {job : Job} {n n' : Nat} {values values' : List Expr}
    {g g' : Growth} (h : Lowers ctx job n values g) (hn : n = n') (hvalues : values = values')
    (hg : g = g') : Lowers ctx job n' values' g' := by
  subst hn hvalues hg
  exact h

/-- A lowering that starts at another temporary is the same lowering, renumbered. -/
theorem Lowers.renumber {ctx : Context} {f : Nat → Nat} {first : Nat} (hf : Gapless f first)
    {job : Job} {n : Nat} {values : List Expr} {g : Growth} (h : Lowers ctx job n values g)
    (hn : first ≤ n) :
    Lowers ctx (job.renumber f) (f n) (values.map (Expr.renumber f)) (g.renumber f) := by
  induction h with
  | name => exact Lowers.name.cast rfl (by simp [nameValue_renumber]) rfl
  | literal => exact Lowers.literal.cast rfl (by simp [literalValue_renumber]) rfl
  | template _ ih =>
    exact (Lowers.template (ih hn)).cast rfl (by simp [templateValue_renumber]) rfl
  | simple hop _ ih =>
    exact (Lowers.simple hop (ih hn)).cast rfl (by simp [build_renumber]) rfl
  | logical hop _ ih => exact (Lowers.logical hop (ih hn)).cast rfl rfl (by simp; rfl)
  | @assign _ _ _ _ _ n place value g₁ g₂ hop _ _ hplace ihleft ihright =>
    have hright := (ihright (Nat.le_add_right_of_le hn)).cast (hf.next hn g₁) rfl rfl
    refine (Lowers.assign hop (ihleft hn) hright (by simpa using hplace)).cast rfl ?_ ?_
    · simp only [← Growth.renumber_append, ← hf.next hn, saved_renumber, List.map_cons,
        List.map_nil]
    · simp only [← Growth.renumber_append, ← hf.next hn, saved_renumber]
      simp only [Growth.renumber_append]
      rfl
  | @compound _ _ _ _ _ n _ place value g₁ g₂ hop _ _ hplace ihleft ihright =>
    have hright := (ihright (Nat.le_add_right_of_le hn)).cast (hf.next hn g₁) rfl rfl
    refine (Lowers.compound hop (ihleft hn) hright (by simpa using hplace)).cast rfl rfl ?_
    simp only [Growth.renumber_append, ← compoundStmt_renumber]
    rfl
  | property _ ih =>
    refine (Lowers.property (ih hn)).cast rfl ?_ ?_
    · simp only [propertyRead_renumber, List.map_cons, List.map_nil]
    · simp only [propertyRead_renumber, Growth.renumber_append]
  | chainProperty _ ih =>
    refine (Lowers.chainProperty (ih hn)).cast rfl ?_ ?_
    · simp only [← hf.next hn, saved_renumber, propertyRead_renumber, List.map_cons, List.map_nil]
    · simp only [← hf.next hn, saved_renumber, propertyRead_renumber, Growth.renumber_append]
      rfl
  | element _ ih =>
    refine (Lowers.element (ih hn)).cast rfl ?_ ?_
    · simp only [elementRead_renumber, List.map_cons, List.map_nil]
    · simp only [elementRead_renumber, Growth.renumber_append]
  | chainElement _ ih =>
    refine (Lowers.chainElement (ih hn)).cast rfl ?_ ?_
    · simp only [elementRead_renumber, List.map_cons, List.map_nil]
    · simp only [elementRead_renumber, Growth.renumber_append]
      rfl
  | refusedCall hform => exact .refusedCall hform
  | @expandedCall _ _ _ _ n _ _ _ _ _ _ _ _ _ g₁ g₂ _ _ hform hcallee _ _ hexpansion ihhead
      ihargs =>
    have hargs := (ihargs (Nat.le_add_right_of_le hn)).cast (hf.next hn g₁) rfl rfl
    have hrenumbered := expansion_renumber (f := f) hexpansion
    rw [hf.next hn, Growth.renumber_append] at hrenumbered
    exact (Lowers.expandedCall hform hcallee (ihhead hn) hargs hrenumbered).cast rfl rfl
      (by simp only [Growth.renumber_append])
  | @methodCall _ _ _ _ n _ _ _ _ _ _ _ _ _ g₁ g₂ hform hcallee _ _ ihhead ihargs =>
    have hargs := (ihargs (Nat.le_add_right_of_le hn)).cast (hf.next hn g₁) rfl rfl
    refine (Lowers.methodCall hform hcallee (ihhead hn) hargs).cast rfl ?_ ?_
    · simp [Expr.renumber, renumberAll_eq_map]
    · rw [Growth.renumber_append]
  | @plainCall _ _ _ _ n _ _ _ g₁ g₂ hform _ _ ihhead ihargs =>
    have hargs := (ihargs (Nat.le_add_right_of_le hn)).cast (hf.next hn g₁) rfl rfl
    refine (Lowers.plainCall hform (ihhead hn) hargs).cast rfl ?_ ?_
    · simp [Expr.renumber, renumberAll_eq_map]
    · rw [Growth.renumber_append]
  | delete hoperand _ ih => exact .delete hoperand (ih hn)
  | wrap _ ih => exact .wrap (ih hn)
  | targetName hleft => exact (Lowers.targetName hleft).cast rfl (by simp [nameValue_renumber]) rfl
  | targetProperty hleft _ ih =>
    refine (Lowers.targetProperty hleft (ih hn)).cast rfl ?_ ?_
    · simp only [← hf.next hn, saved_renumber, Expr.toIndexable_renumber]
      rfl
    · simp only [← hf.next hn, saved_renumber, Growth.renumber_append]
  | targetElement hleft _ ih =>
    refine (Lowers.targetElement hleft (ih hn)).cast rfl ?_ ?_
    · simp only [← hf.next hn, saved_renumber, Expr.toIndexable_renumber, ← Growth.renumber_append]
      rfl
    · simp only [← hf.next hn, saved_renumber, ← Growth.renumber_append]
  | noOperand => exact .noOperand
  | @operand earlier _ _ n value _ g₁ g₂ _ _ ihhead ihtail =>
    have hmoved := displaced_renumber hf (Nat.le_add_right_of_le hn : first ≤ n + g₁.temps) earlier
      g₁.stmts
    rw [hf.next hn, ← Growth.renumber_stmts] at hmoved
    have hfirst := (congrArg Prod.fst hmoved).symm
    have hsecond := (congrArg Prod.snd hmoved).symm
    have htail := (ihtail (Nat.le_add_right_of_le hn)).cast (hf.next hn _) rfl rfl
    simp only [Job.renumber, List.map_append, List.map_cons, List.map_nil, Growth.renumber_append]
      at htail hfirst hsecond ⊢
    rw [hfirst, hsecond] at htail
    rw [hsecond]
    exact .operand (ihhead hn) htail

end ExprLowering.Lowering

-- ════════════════════════════════════════════════════════════════════════
-- Runs
-- ════════════════════════════════════════════════════════════════════════

namespace ExprLowering.Target

variable {V W : Type}

mutual

theorem eval_renumber (I : Interp V W) (f : Nat → Nat) (τ : Nat → V) :
    ∀ (e : Expr) (s : Store V W), eval I τ (e.renumber f) s = eval I (fun t => τ (f t)) e s
  | .nil, _ | .bool _, _ | .number _, _ | .string _, _ | .name _, _ | .temp _, _ => rfl
  | .binary left op right, s => by
    simp only [Expr.renumber, eval, eval_renumber I f τ left, eval_renumber I f τ right]
  | .property object name, s => by simp only [Expr.renumber, eval, eval_renumber I f τ object]
  | .index object key, s => by
    simp only [Expr.renumber, eval, eval_renumber I f τ object, eval_renumber I f τ key]
  | .call callee args, s => by
    simp only [Expr.renumber, eval, eval_renumber I f τ callee, evalAll_renumber I f τ args]
  | .method object name args, s => by
    simp only [Expr.renumber, eval, eval_renumber I f τ object, evalAll_renumber I f τ args]
  | .paren inner, s => by simp only [Expr.renumber, eval, eval_renumber I f τ inner]

theorem evalAll_renumber (I : Interp V W) (f : Nat → Nat) (τ : Nat → V) :
    ∀ (es : List Expr) (s : Store V W),
      evalAll I τ (renumberAll f es) s = evalAll I (fun t => τ (f t)) es s
  | [], _ => rfl
  | e :: es, s => by
    simp only [renumberAll, evalAll, eval_renumber I f τ e, evalAll_renumber I f τ es]

end

/-- The place with its temporary renumbered. -/
def Place.renumber (f : Nat → Nat) : Place V → Place V
  | .temp t => .temp (f t)
  | .var x => .var x
  | .member object key => .member object key
  | .nowhere => .nowhere

/-- The machine as it looks to a program before its temporaries are renumbered. -/
def Machine.before (f : Nat → Nat) (m : Machine V W) : Machine V W :=
  ⟨fun t => m.temps (f t), m.store⟩

theorem placeOf_renumber (I : Interp V W) (f : Nat → Nat) (τ : Nat → V) (left : Expr)
    (s : Store V W) :
    placeOf I τ (left.renumber f) s =
      ((placeOf I (fun t => τ (f t)) left s).1.renumber f,
        (placeOf I (fun t => τ (f t)) left s).2) := by
  cases left with
  | property object name => simp only [Expr.renumber, placeOf, eval_renumber, Place.renumber]
  | index object key => simp only [Expr.renumber, placeOf, eval_renumber, Place.renumber]
  | _ => rfl

theorem assigned_renumber (I : Interp V W) (f : Nat → Nat) (τ : Nat → V) (place : Place V)
    (op : AssignOp) (right : Expr) (s : Store V W) :
    assigned I τ (place.renumber f) op (right.renumber f) s =
      assigned I (fun t => τ (f t)) place op right s := by
  have hload : load I τ (place.renumber f) = load I (fun t => τ (f t)) place := by
    funext u
    cases place <;> rfl
  simp only [assigned, hload, eval_renumber]

theorem exec_renumber (I : Interp V W) {f : Nat → Nat} (hf : f.Injective) (stmt : Stmt)
    (m : Machine V W) : (exec I (stmt.renumber f) m).before f = exec I stmt (m.before f) := by
  have hupdate (τ : Nat → V) (t : Nat) (v : V) :
      (fun u => Function.update τ (f t) v (f u)) = Function.update (fun u => τ (f u)) t v :=
    Function.update_comp_eq_of_injective τ hf t v
  cases stmt with
  | declare t value =>
    simp only [Stmt.renumber, exec, Machine.before, eval_renumber, hupdate]
  | assign left op right =>
    simp only [Stmt.renumber, exec, placeOf_renumber, assigned_renumber, Machine.before]
    generalize (placeOf I (fun t => m.temps (f t)) left m.store).1 = place
    cases place with
    | temp t => simp only [Place.renumber, save, hupdate]
    | var x => rfl
    | member object key => rfl
    | nowhere => rfl

theorem execAll_renumber (I : Interp V W) {f : Nat → Nat} (hf : f.Injective) (stmts : List Stmt)
    (m : Machine V W) :
    (execAll I (stmts.map (Stmt.renumber f)) m).before f = execAll I stmts (m.before f) := by
  induction stmts generalizing m with
  | nil => rfl
  | cons stmt stmts ih => rw [List.map_cons, execAll_cons, ih, exec_renumber I hf, execAll_cons]

end ExprLowering.Target

namespace ExprLowering.Lowering

open Target

variable {V W : Type}

/-- What the lowering of an expression on its own does, if it can be lowered. -/
def yield (I : Interp V W) (ctx : Context) (e : Source.Expr) (s : Store V W) : V × Store V W :=
  match lowerAlone ctx e with
  | .ok out => result I out.stmts out.value ⟨fun _ => I.nil, s⟩
  | .error _ => (I.nil, s)

/-- Every lowering of an expression is its lowering on its own, renumbered, and runs like it. -/
theorem Lowers.run_alone {ctx : Context} {e : Source.Expr} {n : Nat} {value : Expr} {g : Growth}
    (h : Lowers ctx (.expr (some .operand) e) n [value] g) :
    ∃ out, lowerAlone ctx e = .ok out ∧ ∀ (I : Interp V W) (m : Machine V W) (σ : Nat → V),
      (execAll I g.stmts m).store = (execAll I out.stmts ⟨σ, m.store⟩).store ∧
        eval I (execAll I g.stmts m).temps value =
          eval I (execAll I out.stmts ⟨σ, m.store⟩).temps out.value := by
  have hdown : Gapless (· - n) n := fun t ht => Nat.sub_add_comm ht
  have hup : Gapless (· + n) 0 := fun t _ => Nat.add_right_comm t 1 n
  have halone : Lowers ctx (.expr (some .operand) e) 0 [value.renumber (· - n)]
      (g.renumber (· - n)) := (h.renumber hdown (Nat.le_refl n)).cast (Nat.sub_self n) rfl rfl
  have hback : Lowers ctx (.expr (some .operand) e) n [(value.renumber (· - n)).renumber (· + n)]
      ((g.renumber (· - n)).renumber (· + n)) :=
    (halone.renumber hup (Nat.le_refl 0)).cast (Nat.zero_add n) rfl rfl
  obtain ⟨hvalues, hg⟩ := hback.unique Role.noConfusion h
  refine ⟨_, lowerAlone_eq_ok_iff.2 ⟨_, _, halone, rfl⟩, fun I m σ => ?_⟩
  have hinj : Function.Injective (· + n) := fun a b hab => Nat.add_right_cancel hab
  have hrun := execAll_renumber I hinj (g.renumber (· - n)).stmts m
  rw [← Growth.renumber_stmts, hg] at hrun
  -- The lowering on its own reads no temporary that it does not declare.
  have htidy := halone.tidy Tidy.nil_lt
  have hagree : AgreeOn (fun _ => False) (m.before (· + n)) ⟨σ, m.store⟩ :=
    ⟨rfl, fun _ => False.elim⟩
  have hend := execAll_agree I (htidy.inScope.readsOnly.mono (by simp)) hagree
  have hvalue := eval_congr I (value.renumber (· - n)) fun t ht =>
    hend.temps_eq t (.inr (by simpa using htidy.values_subset (by simpa using ht)))
  rw [← hrun] at hend hvalue
  refine ⟨hend.store_eq, ?_⟩
  funext s
  rw [Growth.output, ← hvalue, Machine.before, ← eval_renumber I (· + n),
    (List.cons.inj hvalues).1]

/-- Every lowering of an expression does what its lowering on its own does. -/
theorem Lowers.realizes_yield {ctx : Context} {e : Source.Expr} {n : Nat} {value : Expr}
    {g : Growth} (h : Lowers ctx (.expr (some .operand) e) n [value] g) (I : Interp V W) :
    Realizes I g.stmts value (yield I ctx e) := by
  intro m
  obtain ⟨out, hout, hrun⟩ := h.run_alone
  obtain ⟨hstore, hvalue⟩ := hrun I m fun _ => I.nil
  simp only [yield, hout, result, hvalue, hstore]

end ExprLowering.Lowering
