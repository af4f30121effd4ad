import ExprLowering.Proofs.Derivation

/-!
# Temporaries are fresh and well scoped

What a derivation adds declares exactly the temporaries it takes, each of them once, and mentions
a temporary only after its declaration.

## Main definitions

* `Expr.temps`, `declared`: the temporaries that are mentioned, and those that are declared.
* `Scoped`: statements that mention only temporaries known to them.
* `Tidy`: the invariant of a derivation.

## Main results

* `Lowers.tidy`: every derivation is tidy.
-/

namespace ExprLowering.Target

mutual

/-- The numbers of the temporaries in an expression, from left to right. -/
def Expr.temps : Expr → List Nat
  | .nil | .bool _ | .number _ | .string _ | .name _ => []
  | .temp t => [t.id]
  | .binary left _ right => left.temps ++ right.temps
  | .property object _ => object.temps
  | .index object key => object.temps ++ key.temps
  | .call callee args => callee.temps ++ tempsAll args
  | .method object _ args => object.temps ++ tempsAll args
  | .paren inner => inner.temps

/-- The numbers of the temporaries in a list of expressions. -/
def tempsAll : List Expr → List Nat
  | [] => []
  | e :: es => e.temps ++ tempsAll es

end

@[simp] theorem tempsAll_nil : tempsAll [] = [] := rfl

@[simp] theorem tempsAll_cons (e : Expr) (es : List Expr) :
    tempsAll (e :: es) = e.temps ++ tempsAll es := rfl

@[simp] theorem tempsAll_append (xs ys : List Expr) :
    tempsAll (xs ++ ys) = tempsAll xs ++ tempsAll ys := by
  induction xs with
  | nil => rfl
  | cons e es ih => simp [ih]

@[simp] theorem Expr.temps_toIndexable (e : Expr) : e.toIndexable.temps = e.temps := by
  unfold toIndexable
  split
  · rfl
  · rfl

/-- Whether an expression is a temporary. -/
def Expr.isTemp : Expr → Bool
  | .temp _ => true
  | _ => false

/-- The temporary that a statement declares. -/
def Stmt.declares? : Stmt → Option Nat
  | .declare t _ => some t.id
  | .assign .. => none

/-- The temporaries that statements declare, in order. -/
def declared (stmts : List Stmt) : List Nat := stmts.filterMap Stmt.declares?

@[simp] theorem declared_nil : declared [] = [] := rfl

@[simp] theorem declared_declare (t : Temp) (value : Expr) (stmts : List Stmt) :
    declared (.declare t value :: stmts) = t.id :: declared stmts := rfl

@[simp] theorem declared_assign (left right : Expr) (op : AssignOp) (stmts : List Stmt) :
    declared (.assign left op right :: stmts) = declared stmts := rfl

@[simp] theorem declared_append (xs ys : List Stmt) :
    declared (xs ++ ys) = declared xs ++ declared ys := List.filterMap_append

/-- Statements that mention only temporaries known or declared before, declare no temporary again
and assign to none. -/
def Scoped (known : List Nat) : List Stmt → Prop
  | [] => True
  | .declare t value :: stmts =>
    value.temps ⊆ known ∧ t.id ∉ known ∧ Scoped (t.id :: known) stmts
  | .assign left _ right :: stmts =>
    left.isTemp = false ∧ left.temps ⊆ known ∧ right.temps ⊆ known ∧ Scoped known stmts

/-- What is declared was not known before. -/
theorem Scoped.notMem {known : List Nat} {stmts : List Stmt} (h : Scoped known stmts) {t : Nat}
    (ht : t ∈ declared stmts) : t ∉ known := by
  induction stmts generalizing known with
  | nil => cases ht
  | cons stmt stmts ih =>
    cases stmt with
    | assign left op right => exact ih h.2.2.2 ht
    | declare u value =>
      rcases List.mem_cons.1 ht with rfl | ht
      · exact h.2.1
      · exact fun hknown => ih h.2.2 ht (List.mem_cons_of_mem _ hknown)

/-- More temporaries may be known, if none of them is declared. -/
theorem Scoped.mono {known more : List Nat} {stmts : List Stmt} (h : Scoped known stmts)
    (hsub : known ⊆ more) (hfresh : ∀ t ∈ declared stmts, t ∉ more) : Scoped more stmts := by
  induction stmts generalizing known more with
  | nil => trivial
  | cons stmt stmts ih =>
    cases stmt with
    | assign left op right =>
      obtain ⟨htemp, hleft, hright, hrest⟩ := h
      exact ⟨htemp, List.Subset.trans hleft hsub, List.Subset.trans hright hsub,
        ih hrest hsub hfresh⟩
    | declare u value =>
      obtain ⟨hvalue, hnew, hrest⟩ := h
      refine ⟨List.Subset.trans hvalue hsub, hfresh _ List.mem_cons_self, ?_⟩
      refine ih hrest (List.cons_subset_cons _ hsub) ?_
      intro t ht hmem
      rcases List.mem_cons.1 hmem with rfl | hmem
      · exact hrest.notMem ht List.mem_cons_self
      · exact hfresh t (List.mem_cons_of_mem _ ht) hmem

/-- Later statements know what earlier ones declare. -/
theorem Scoped.append {known : List Nat} {xs ys : List Stmt} (hx : Scoped known xs)
    (hy : Scoped (declared xs ++ known) ys) : Scoped known (xs ++ ys) := by
  induction xs generalizing known with
  | nil => exact hy
  | cons stmt stmts ih =>
    cases stmt with
    | assign left op right => exact ⟨hx.1, hx.2.1, hx.2.2.1, ih hx.2.2.2 hy⟩
    | declare t value =>
      refine ⟨hx.1, hx.2.1, ih hx.2.2 (hy.mono ?_ ?_)⟩
      · simp only [declared_declare, List.cons_append]
        intro u hu
        simp only [List.mem_cons, List.mem_append] at hu ⊢
        grind
      · intro u hu hmem
        refine hy.notMem hu ?_
        simp only [declared_declare, List.cons_append, List.mem_cons, List.mem_append] at hmem ⊢
        grind

end ExprLowering.Target

namespace ExprLowering.Lowering

open Source (Calculation)
open Target

theorem declared_settleAll (n : Nat) (values : List Expr) :
    declared (settleAll n values).2.stmts = List.range' n (settleAll n values).2.temps := by
  induction values generalizing n with
  | nil => rfl
  | cons value values ih =>
    cases h : value.isSettled with
    | true => simpa only [settleAll_cons_settled h] using ih n
    | false =>
      rw [settleAll_cons_unsettled h]
      simp [Growth.declaring, ih, Nat.add_comm 1, List.range'_succ]

theorem declared_displaced (n : Nat) (earlier : List Expr) (stmts : List Stmt) :
    declared (displaced n earlier stmts).2.stmts =
      List.range' n (displaced n earlier stmts).2.temps := by
  cases stmts with
  | nil => rfl
  | cons stmt stmts => exact declared_settleAll n earlier

/-- The invariant of a derivation that starts with the next temporary `n` and may use the
temporaries in `known`. -/
structure Tidy (known : List Nat) (n : Nat) (values : List Expr) (g : Growth) : Prop where
  inScope : Scoped known g.stmts
  declared_perm : (declared g.stmts).Perm (List.range' n g.temps)
  values_subset : tempsAll values ⊆ declared g.stmts ++ known

namespace Tidy

variable {known more : List Nat} {n : Nat} {values values₁ values₂ : List Expr}
  {g g₁ g₂ : Growth}

theorem mem_declared (h : Tidy known n values g) {t : Nat} :
    t ∈ declared g.stmts ↔ n ≤ t ∧ t < n + g.temps := by
  rw [h.declared_perm.mem_iff, List.mem_range'_1]

theorem lt_of_mem (h : Tidy known n values g) (hknown : ∀ t ∈ known, t < n) {t : Nat}
    (ht : t ∈ declared g.stmts ++ known) : t < n + g.temps := by
  rcases List.mem_append.1 ht with ht | ht
  · exact (h.mem_declared.1 ht).2
  · exact Nat.lt_of_lt_of_le (hknown t ht) (Nat.le_add_right ..)

/-- Values that mention no other temporaries may take the place of the values. -/
theorem of_subset (h : Tidy known n values g) (hsub : tempsAll values₂ ⊆ tempsAll values) :
    Tidy known n values₂ g :=
  ⟨h.inScope, h.declared_perm, List.Subset.trans hsub h.values_subset⟩

/-- More temporaries may be known, if all of them were taken before. -/
theorem widen (h : Tidy known n values g) (hsub : known ⊆ more) (hmore : ∀ t ∈ more, t < n) :
    Tidy more n values g where
  inScope := h.inScope.mono hsub fun t ht hmem =>
    Nat.not_lt.2 (h.mem_declared.1 ht).1 (hmore t hmem)
  declared_perm := h.declared_perm
  values_subset := List.Subset.trans h.values_subset (List.append_subset.2
    ⟨List.subset_append_left .., List.Subset.trans hsub (List.subset_append_right ..)⟩)

/-- Something that adds no statement and takes no temporary. -/
theorem silent (hstmts : g.stmts = []) (htemps : g.temps = 0) (hsub : tempsAll values ⊆ known) :
    Tidy known n values g where
  inScope := by rw [hstmts]; trivial
  declared_perm := by simp [hstmts, htemps]
  values_subset := by simpa [hstmts] using hsub

/-- One thing after the other. -/
theorem append (h₁ : Tidy known n values₁ g₁) (h₂ : Tidy more (n + g₁.temps) values₂ g₂)
    (hknown : ∀ t ∈ known, t < n) (hmore : more ⊆ declared g₁.stmts ++ known) :
    Tidy known n (values₁ ++ values₂) (g₁ ++ g₂) := by
  have h₂' := h₂.widen hmore fun t ht => h₁.lt_of_mem hknown ht
  refine ⟨h₁.inScope.append h₂'.inScope, ?_, ?_⟩
  · rw [Growth.append_stmts, declared_append, Growth.append_temps, ← List.range'_append_1]
    exact h₁.declared_perm.append h₂.declared_perm
  · rw [tempsAll_append, Growth.append_stmts, declared_append]
    intro t ht
    have hleft := @h₁.values_subset t
    have hright := @h₂'.values_subset t
    simp only [List.mem_append] at ht hleft hright ⊢
    grind

/-- An assignment to something that is not a temporary. -/
theorem ofAssign {left right : Expr} (op : AssignOp) (htemp : left.isTemp = false)
    (hleft : left.temps ⊆ known) (hright : right.temps ⊆ known) :
    Tidy known n [] (.ofStmts [.assign left op right]) where
  inScope := ⟨htemp, hleft, hright, trivial⟩
  declared_perm := .refl _
  values_subset := List.nil_subset _

/-- The declaration of the next temporary. -/
theorem ofDeclare {value : Expr} (hvalue : value.temps ⊆ known) (hknown : ∀ t ∈ known, t < n) :
    Tidy known n [.temp ⟨n⟩] (.declaring n value) where
  inScope := ⟨hvalue, fun hn => Nat.lt_irrefl n (hknown n hn), trivial⟩
  declared_perm := .refl _
  values_subset := List.cons_subset.2 ⟨List.mem_cons_self, List.nil_subset _⟩

theorem ofSaved {value : Expr} (hvalue : value.temps ⊆ known) (hknown : ∀ t ∈ known, t < n) :
    Tidy known n [(saved n value).1] (saved n value).2 := by
  cases h : value.isAtom with
  | true =>
    rw [saved_atom h]
    exact .silent rfl rfl (by simpa using hvalue)
  | false =>
    rw [saved_complex h]
    exact .ofDeclare hvalue hknown

theorem ofSettleAll (hvalues : tempsAll values ⊆ known) (hknown : ∀ t ∈ known, t < n) :
    Tidy known n (settleAll n values).1 (settleAll n values).2 := by
  induction values generalizing known n with
  | nil => exact .silent rfl rfl (List.nil_subset _)
  | cons value values ih =>
    obtain ⟨hvalue, hrest⟩ := List.append_subset.1 hvalues
    cases h : value.isSettled with
    | true =>
      rw [settleAll_cons_settled h]
      have htail := ih hrest hknown
      refine ⟨htail.inScope, htail.declared_perm, List.append_subset.2 ⟨?_, htail.values_subset⟩⟩
      exact List.Subset.trans hvalue (List.subset_append_right ..)
    | false =>
      rw [settleAll_cons_unsettled h]
      have hlt : ∀ t ∈ n :: known, t < n + 1 := by
        intro t ht
        rcases List.mem_cons.1 ht with rfl | ht
        · exact Nat.lt_succ_self t
        · exact Nat.lt_succ_of_lt (hknown t ht)
      exact (ofDeclare hvalue hknown).append
        (ih (List.Subset.trans hrest (List.subset_cons_self ..)) hlt) hknown (List.Subset.refl _)

theorem ofDisplaced {earlier : List Expr} (stmts : List Stmt) (hearlier : tempsAll earlier ⊆ known)
    (hknown : ∀ t ∈ known, t < n) :
    Tidy known n (displaced n earlier stmts).1 (displaced n earlier stmts).2 := by
  cases stmts with
  | nil => exact .silent rfl rfl hearlier
  | cons stmt stmts => exact .ofSettleAll hearlier hknown

/-- An operand after earlier ones. The declarations of the earlier values take the temporaries
after those of the operand. -/
theorem displace {earlier : List Expr} {value : Expr} (h : Tidy [] n [value] g)
    (hknown : ∀ t ∈ tempsAll earlier, t < n) :
    Tidy (tempsAll earlier) n ((displaced (n + g.temps) earlier g.stmts).1 ++ [value])
      ((displaced (n + g.temps) earlier g.stmts).2 ++ g) := by
  have hwide := h.widen (List.nil_subset _) hknown
  have hmoved : Tidy (tempsAll earlier) (n + g.temps) _ _ :=
    ofDisplaced g.stmts (List.Subset.refl _) fun t ht => Nat.lt_add_right _ (hknown t ht)
  refine ⟨hmoved.inScope.append (hwide.inScope.mono (List.subset_append_right ..) ?_), ?_, ?_⟩
  · intro t ht hmem
    have hown := h.mem_declared.1 ht
    rcases List.mem_append.1 hmem with hmem | hmem
    · have := hmoved.mem_declared.1 hmem
      omega
    · have := hknown t hmem
      omega
  · have hperm := List.perm_append_comm.trans (h.declared_perm.append hmoved.declared_perm)
    rw [List.range'_append_1, Nat.add_comm g.temps] at hperm
    rw [Growth.append_stmts, declared_append]
    exact hperm
  · rw [tempsAll_append, Growth.append_stmts, declared_append]
    intro t ht
    have hleft := @hmoved.values_subset t
    have hright := @hwide.values_subset t
    simp only [List.mem_append] at ht hleft hright ⊢
    grind

end Tidy

/-- The values that a piece of work starts from. -/
def Job.earlier : Job → List Expr
  | .expr .. | .target _ => []
  | .operands earlier _ => earlier

/-- The temporaries that a piece of work starts from. -/
def Job.temps (job : Job) : List Nat := tempsAll job.earlier

@[simp] theorem Job.temps_expr (role : Option Role) (e : Source.Expr) : (expr role e).temps = [] :=
  rfl

@[simp] theorem Job.temps_target (left : Source.Expr) : (target left).temps = [] := rfl

@[simp] theorem Job.temps_operands (earlier : List Expr) (es : List Source.Expr) :
    (operands earlier es).temps = tempsAll earlier := rfl

/-- The target of an assignment is not a temporary. -/
theorem Lowers.isTemp_target {ctx : Context} {left : Source.Expr} {n : Nat} {place : Expr}
    {g : Growth} (h : Lowers ctx (.target left) n [place] g) : place.isTemp = false := by
  cases h with
  | targetName =>
    rw [nameValue]
    split
    · rfl
    · rfl
  | targetProperty => rfl
  | targetElement => rfl

theorem temps_nameValue (text : String) : (nameValue text).temps = [] := by
  rw [nameValue]
  split
  · rfl
  · rfl

theorem temps_literalValue (value : Source.Literal) : (literalValue value).temps = [] := by
  cases value <;> rfl

theorem temps_constantValue (constant : Constant) : (constantValue constant).temps = [] := by
  cases constant <;> rfl

theorem temps_build (form : SimpleForm) (a b : Expr) :
    (form.build a b).temps = a.temps ++ b.temps := by
  cases form <;> simp [SimpleForm.build, Expr.temps]

theorem temps_concatenation_subset {known : List Nat} {segments : List Expr}
    (h : tempsAll segments ⊆ known) : (concatenation segments).temps ⊆ known := by
  have hchain (first : Expr) (hfirst : first.temps ⊆ known) (rest : List Expr)
      (hrest : tempsAll rest ⊆ known) :
      (rest.foldl (fun chain segment => .binary chain .concat segment) first).temps ⊆ known := by
    induction rest generalizing first with
    | nil => exact hfirst
    | cons segment rest ih =>
      obtain ⟨hsegment, hrest⟩ := List.append_subset.1 hrest
      exact ih _ (List.append_subset.2 ⟨hfirst, hsegment⟩) hrest
  cases segments with
  | nil => exact List.nil_subset _
  | cons first rest =>
    obtain ⟨hfirst, hrest⟩ := List.append_subset.1 h
    exact hchain first hfirst rest hrest

theorem tempsAll_textSegment (text : String) : tempsAll (textSegment text) = [] := by
  rw [textSegment]
  split
  · rfl
  · rfl

theorem tempsAll_partSegments_subset (facts : Facts)
    (parts : List (Source.Substitution Source.Expr)) (values : List Expr) :
    tempsAll (partSegments facts parts values) ⊆ tempsAll values := by
  induction parts generalizing values with
  | nil => simp [partSegments]
  | cons part parts ih =>
    cases values with
    | nil => simp [partSegments]
    | cons value values =>
      have hvalue : (valueSegment facts part.expr value).temps = value.temps := by
        rw [valueSegment]
        split
        · rfl
        · simp [Expr.temps]
      simp only [partSegments, tempsAll_cons, tempsAll_append, tempsAll_textSegment, hvalue,
        List.nil_append]
      exact List.append_subset.2 ⟨List.subset_append_left ..,
        List.Subset.trans (ih values) (List.subset_append_right ..)⟩

theorem temps_templateValue_subset (facts : Facts) (head : String)
    (parts : List (Source.Substitution Source.Expr)) (values : List Expr) :
    (templateValue facts head parts values).temps ⊆ tempsAll values := by
  refine temps_concatenation_subset ?_
  rw [tempsAll_append, tempsAll_textSegment]
  exact tempsAll_partSegments_subset facts parts values

namespace Tidy

variable {known : List Nat} {n : Nat}

theorem ofMemberRead (role : Option Role) {member : Expr} (htemp : member.isTemp = false)
    (hmember : member.temps ⊆ known) :
    Tidy known n [(memberRead role member).1] (memberRead role member).2 := by
  rw [memberRead]
  split
  · exact (ofAssign .set htemp hmember (List.nil_subset _)).of_subset (List.Subset.refl _)
  · exact .silent rfl rfl (by simpa using hmember)

theorem ofPropertyRead (ctx : Context) (role : Option Role) (object : Source.Expr) (name : String)
    (nameSpan span : Span) {value : Expr} (hvalue : value.temps ⊆ known)
    (hknown : ∀ t ∈ known, t < n) :
    Tidy known n [(propertyRead ctx role object name nameSpan span value).1]
      (propertyRead ctx role object name nameSpan span value).2 := by
  rw [propertyRead]
  split
  · exact .silent rfl rfl (List.nil_subset _)
  split
  · exact .silent rfl rfl (List.nil_subset _)
  split
  · exact .silent rfl rfl (List.nil_subset _)
  have hnote : Tidy known n [] (nameNote name nameSpan) := by
    rw [nameNote]
    split
    · exact .silent rfl rfl (List.nil_subset _)
    · exact .silent rfl rfl (List.nil_subset _)
  have hmember : Tidy known (n + (nameNote name nameSpan).temps)
      [(constantOrMember ctx role span (.property value.toIndexable name)).1]
      (constantOrMember ctx role span (.property value.toIndexable name)).2 := by
    rw [constantOrMember]
    split
    · exact .silent rfl rfl (by simp [temps_constantValue])
    · exact ofMemberRead role rfl (by simpa [Expr.temps] using hvalue)
  exact hnote.append hmember hknown (List.subset_append_right ..)

theorem ofElementRead (ctx : Context) (role : Option Role) (object : Source.Expr)
    {value index : Expr} (hvalue : value.temps ⊆ known) (hindex : index.temps ⊆ known) :
    Tidy known n [(elementRead ctx role object value index).1]
      (elementRead ctx role object value index).2 := by
  rw [elementRead]
  split
  · exact .silent rfl rfl (List.nil_subset _)
  · exact ofMemberRead role rfl (by simpa [Expr.temps] using ⟨hvalue, hindex⟩)

theorem ofExpansion {expander : Expander} {object result : Expr} {args : List Expr} {g : Growth}
    (h : expansion n object args expander = some (result, g)) (hobject : object.temps ⊆ known)
    (hargs : tempsAll args ⊆ known) (hknown : ∀ t ∈ known, t < n) :
    Tidy known n [result] g := by
  cases expander with
  | unit =>
    cases h
    exact .silent rfl rfl (List.nil_subset _)
  | length =>
    cases h
    exact .silent rfl rfl (by simpa [Expr.temps] using hobject)
  | push =>
    cases h
    have hsaved := ofSaved hobject hknown
    refine ⟨hsaved.inScope, hsaved.declared_perm, ?_⟩
    have hfirst := hsaved.values_subset
    simp only [tempsAll_cons, tempsAll_nil, List.append_nil, Expr.temps, List.nil_append]
      at hfirst ⊢
    exact List.append_subset.2 ⟨hfirst, List.Subset.trans hargs (List.subset_append_right ..)⟩
  | fail => cases h
  | effect =>
    cases h
    have hdeclare := ofDeclare hobject hknown
    have hassign : Tidy (n :: known) (n + 1) [.method (.temp ⟨n⟩) "expanded" args]
        (.ofStmts [.assign (.name "effect") .set (.temp ⟨n⟩)] ++
          .ofDiagnostic .prototype (.point 8 8)) := by
      refine ⟨⟨rfl, List.nil_subset _, by simp [Expr.temps], trivial⟩, .refl _, ?_⟩
      simp only [tempsAll_cons, tempsAll_nil, List.append_nil, Expr.temps, List.singleton_append]
      exact List.cons_subset_cons _ hargs
    rw [Growth.append_assoc]
    exact (hdeclare.append hassign hknown (List.Subset.refl _)).of_subset
      (List.subset_append_right ..)

end Tidy

theorem temps_compoundStmt (options : Options) (op : Calculation) (place value : Expr) :
    ∃ assignOp right, compoundStmt options op place value = .assign place assignOp right ∧
      right.temps ⊆ place.temps ++ value.temps := by
  rw [compoundStmt]
  split
  · exact ⟨_, _, rfl, List.subset_append_right ..⟩
  · exact ⟨_, _, rfl, by simp [temps_build]⟩

namespace Tidy

variable {known : List Nat} {n : Nat} {values : List Expr} {g : Growth}

theorem nil_lt : ∀ t ∈ ([] : List Nat), t < n := by simp

theorem subset_of_mem (h : Tidy known n values g) {value : Expr} (hmem : value ∈ values) :
    value.temps ⊆ declared g.stmts ++ known := by
  refine List.Subset.trans ?_ h.values_subset
  obtain ⟨before, after, rfl⟩ := List.append_of_mem hmem
  simp

/-- Something computed from the values, after them. -/
theorem followedBy {values₂ : List Expr} {g₂ : Growth} (h : Tidy known n values g)
    (hknown : ∀ t ∈ known, t < n)
    (h₂ : Tidy (declared g.stmts ++ known) (n + g.temps) values₂ g₂) :
    Tidy known n values₂ (g ++ g₂) :=
  (h.append h₂ hknown (List.Subset.refl _)).of_subset (by simp)

/-- A value that is saved unless it is an atom. -/
theorem thenSaved {value : Expr} (h : Tidy known n values g) (hknown : ∀ t ∈ known, t < n)
    (hvalue : value ∈ values) :
    Tidy known n (values ++ [(saved (n + g.temps) value).1]) (g ++ (saved (n + g.temps) value).2) :=
  h.append (ofSaved (h.subset_of_mem hvalue) fun _ ht => h.lt_of_mem hknown ht) hknown
    (List.Subset.refl _)

/-- An assignment between values. -/
theorem thenAssign {left right : Expr} {op : AssignOp} (h : Tidy known n values g)
    (hknown : ∀ t ∈ known, t < n) (htemp : left.isTemp = false) (hleft : left ∈ values)
    (hright : right.temps ⊆ tempsAll values) :
    Tidy known n values (g ++ .ofStmts [.assign left op right]) := by
  have hassign := ofAssign (n := n + g.temps) op htemp (h.subset_of_mem hleft)
    (List.Subset.trans hright h.values_subset)
  simpa using h.append hassign hknown (List.Subset.refl _)

/-- The operands after a head. -/
theorem withArgs {value head : Expr} {rest : List Expr} {g₂ : Growth} (h : Tidy [] n [value] g)
    (h₂ : (∀ t ∈ tempsAll [value], t < n + g.temps) →
      Tidy (tempsAll [value]) (n + g.temps) (head :: rest) g₂) :
    Tidy [] n (head :: rest) (g ++ g₂) := by
  have hlt : ∀ t ∈ tempsAll [value], t < n + g.temps := fun _ ht =>
    h.lt_of_mem nil_lt (h.values_subset ht)
  exact (h.append (h₂ hlt) nil_lt h.values_subset).of_subset (by simp)

end Tidy

/-- Every derivation is tidy. -/
theorem Lowers.tidy {ctx : Context} {job : Job} {n : Nat} {values : List Expr} {g : Growth}
    (h : Lowers ctx job n values g) (hlt : ∀ t ∈ job.temps, t < n) :
    Tidy job.temps n values g := by
  induction h with
  | name => exact .silent rfl rfl (by simp [temps_nameValue])
  | literal => exact .silent rfl rfl (by simp [temps_literalValue])
  | template _ ih => exact (ih hlt).of_subset (by simpa using temps_templateValue_subset ..)
  | simple _ _ ih => exact (ih hlt).of_subset (by simp [temps_build])
  | @logical _ _ _ _ _ n _ _ _ _ _ ih =>
    have hcount : Tidy [] n [] Growth.oneLogical := .silent rfl rfl (List.nil_subset _)
    exact (hcount.append (ih hlt) hlt (List.nil_subset _)).of_subset (by simp [Expr.temps])
  | assign _ hleft _ _ ihleft ihright =>
    have hboth := (ihleft hlt).append (ihright Tidy.nil_lt) hlt (List.nil_subset _)
    have hsave := hboth.thenSaved hlt (List.mem_cons_of_mem _ List.mem_cons_self)
    refine (hsave.thenAssign hlt hleft.isTemp_target List.mem_cons_self ?_).of_subset ?_
    · simp
    · simp
  | @compound _ _ _ _ _ _ calculation place value _ _ _ hleft _ _ ihleft ihright =>
    have hboth := (ihleft hlt).append (ihright Tidy.nil_lt) hlt (List.nil_subset _)
    obtain ⟨op, right, heq, hright⟩ := temps_compoundStmt ctx.options calculation place value
    rw [heq]
    refine (hboth.thenAssign hlt hleft.isTemp_target List.mem_cons_self ?_).of_subset ?_
    · simpa using hright
    · simp
  | property _ ih =>
    have hobject := ih hlt
    exact hobject.followedBy hlt (.ofPropertyRead _ _ _ _ _ _
      (hobject.subset_of_mem List.mem_cons_self) fun _ ht => hobject.lt_of_mem hlt ht)
  | @chainProperty _ _ _ _ _ n _ g _ ih =>
    have hcount : Tidy [] n [] Growth.oneChain := .silent rfl rfl (List.nil_subset _)
    have hobject := hcount.append (ih hlt) hlt (List.nil_subset _)
    have hsave := hobject.thenSaved hlt List.mem_cons_self
    have htemps : (Growth.oneChain ++ g).temps = g.temps := Nat.zero_add _
    rw [htemps] at hsave
    exact hsave.followedBy hlt (.ofPropertyRead _ _ _ _ _ _
      (hsave.subset_of_mem (List.mem_append_right _ List.mem_cons_self))
      fun _ ht => hsave.lt_of_mem hlt ht)
  | element _ ih =>
    have hboth := ih hlt
    exact hboth.followedBy hlt (.ofElementRead _ _ _ (hboth.subset_of_mem List.mem_cons_self)
      (hboth.subset_of_mem (List.mem_cons_of_mem _ List.mem_cons_self)))
  | @chainElement _ _ _ _ n _ _ _ _ ih =>
    have hcount : Tidy [] n [] Growth.oneChain := .silent rfl rfl (List.nil_subset _)
    have hboth := hcount.append (ih hlt) hlt (List.nil_subset _)
    exact hboth.followedBy hlt (.ofElementRead _ _ _ (hboth.subset_of_mem List.mem_cons_self)
      (hboth.subset_of_mem (List.mem_cons_of_mem _ List.mem_cons_self)))
  | refusedCall => exact .silent rfl rfl (List.nil_subset _)
  | expandedCall _ _ _ _ hexp ihobject ihargs =>
    have hboth := (ihobject hlt).withArgs ihargs
    refine hboth.followedBy hlt (.ofExpansion hexp (hboth.subset_of_mem List.mem_cons_self) ?_
      fun _ ht => hboth.lt_of_mem hlt ht)
    exact List.Subset.trans (List.subset_append_right ..) hboth.values_subset
  | methodCall _ _ _ _ ihobject ihargs =>
    exact ((ihobject hlt).withArgs ihargs).of_subset (by simp [Expr.temps])
  | plainCall _ _ _ ihcallee ihargs =>
    exact ((ihcallee hlt).withArgs ihargs).of_subset (by simp [Expr.temps])
  | delete _ _ ih => exact ih hlt
  | wrap _ ih => exact ih hlt
  | targetName => exact .silent rfl rfl (by simp [temps_nameValue])
  | targetProperty _ _ ih =>
    exact ((ih hlt).thenSaved hlt List.mem_cons_self).of_subset (by simp [Expr.temps])
  | targetElement _ _ ih =>
    have hbase := (ih hlt).thenSaved hlt List.mem_cons_self
    have hkey := hbase.thenSaved hlt (List.mem_cons_of_mem _ List.mem_cons_self)
    exact hkey.of_subset (by simp [Expr.temps])
  | noOperand => exact .silent rfl rfl (List.Subset.refl _)
  | operand _ _ ihhead ihtail =>
    have hhead := (ihhead Tidy.nil_lt).displace hlt
    have htail := ihtail fun t ht => hhead.lt_of_mem hlt (hhead.values_subset ht)
    exact (hhead.append htail hlt hhead.values_subset).of_subset (by simp)

end ExprLowering.Lowering
