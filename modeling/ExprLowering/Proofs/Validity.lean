import ExprLowering.Proofs.Ingredients

/-!
# Lowered code is valid

The grammar of the target has two kinds of places for expressions. Any expression can be an operand:
a side of an operator or of an assignment, a key or an argument. What stands before an index or a
call is a head, and a literal or an operator has to be put in parentheses there. Lowered code
follows this grammar, and has parentheses nowhere else.

## Main definitions

* `Expr.fits`: what the grammar admits as an operand and as a head.
* `Expr.isWellPlaced`, `Stmt.isWellPlaced`: the same for one node and the nodes right below it.

## Main results

* `Lowers.fits`: derivations follow the grammar.
* `lowered_code_is_valid`: every node of a lowering is well placed.
* `no_placeholder_unreported`: a lowering without diagnostics has no placeholder.
-/

namespace ExprLowering.Target

/-- The kinds of places for expressions. -/
inductive Position where
  | operand
  /-- Before an index or a call. -/
  | head
deriving DecidableEq

mutual

/-- Whether the grammar admits an expression at a place. -/
def Expr.fits (place : Position) : Expr → Bool
  | .nil | .bool _ | .number _ | .string _ => place = .operand
  | .name _ | .temp _ => true
  | .binary left _ right => place = .operand && left.fits .operand && right.fits .operand
  | .property object _ => object.fits .head
  | .index object key => object.fits .head && key.fits .operand
  | .call callee args => callee.fits .head && allFit args
  | .method object _ args => object.fits .head && allFit args
  | .paren inner => place = .head && !inner.isIndexable && inner.fits .operand

/-- Whether the grammar admits all expressions of a list as operands. -/
def allFit : List Expr → Bool
  | [] => true
  | e :: es => e.fits .operand && allFit es

end

/-- Whether the grammar admits a statement. -/
def Stmt.fits : Stmt → Bool
  | .assign left _ right => left.isAssignable && left.fits .operand && right.fits .operand
  | .declare _ value => value.fits .operand

@[simp] theorem allFit_append (xs ys : List Expr) :
    allFit (xs ++ ys) = (allFit xs && allFit ys) := by
  induction xs with
  | nil => rfl
  | cons e es ih => rw [List.cons_append, allFit, ih, allFit, Bool.and_assoc]

/-- An operand becomes a head with the parentheses that it needs. -/
theorem Expr.fits_toIndexable {e : Expr} (h : e.fits .operand = true) :
    e.toIndexable.fits .head = true := by
  cases e with
  | nil | bool | number | string => rfl
  | binary left op right => simpa [toIndexable, isIndexable, fits] using h
  | name | temp | property | index | call | method => exact h
  | paren inner => simp [fits] at h

/-- Whether an expression is in parentheses. -/
def Expr.isParen : Expr → Bool
  | .paren _ => true
  | _ => false

/-- Whether the nodes right below a node are what the grammar admits there. -/
def Expr.isWellPlaced : Expr → Bool
  | .binary left _ right => !left.isParen && !right.isParen
  | .property object _ => object.isIndexable
  | .index object key => object.isIndexable && !key.isParen
  | .call callee args => callee.isIndexable && args.all (!·.isParen)
  | .method object _ args => object.isIndexable && args.all (!·.isParen)
  | .paren inner => !inner.isIndexable && !inner.isParen
  | _ => true

/-- Whether the sides of a statement are what the grammar admits there. -/
def Stmt.isWellPlaced : Stmt → Bool
  | .assign left _ right => left.isAssignable && !right.isParen
  | .declare _ value => !value.isParen

theorem Expr.isParen_of_fits {e : Expr} (h : e.fits .operand = true) : e.isParen = false := by
  cases e with
  | paren inner => simp [fits] at h
  | _ => rfl

theorem Expr.isIndexable_of_fits {e : Expr} (h : e.fits .head = true) : e.isIndexable = true := by
  cases e with
  | nil | bool | number | string | binary => simp [fits] at h
  | _ => rfl

mutual

/-- What the grammar admits is well placed at every depth. -/
theorem Expr.every_isWellPlaced {place : Position} :
    ∀ {e : Expr}, e.fits place = true → e.Every (·.isWellPlaced = true)
  | .nil, _ | .bool _, _ | .number _, _ | .string _, _ | .name _, _ | .temp _, _ =>
    .leaf rfl rfl
  | .binary left op right, h => by
    simp only [Expr.fits, Bool.and_eq_true] at h
    obtain ⟨⟨-, hleft⟩, hright⟩ := h
    refine List.forall_mem_cons.2 ⟨?_, List.forall_mem_append.2
      ⟨Expr.every_isWellPlaced hleft, Expr.every_isWellPlaced hright⟩⟩
    simp [Expr.isWellPlaced, Expr.isParen_of_fits hleft, Expr.isParen_of_fits hright]
  | .property object name, h => by
    rw [Expr.fits] at h
    exact List.forall_mem_cons.2 ⟨Expr.isIndexable_of_fits h, Expr.every_isWellPlaced h⟩
  | .index object key, h => by
    simp only [Expr.fits, Bool.and_eq_true] at h
    obtain ⟨hobject, hkey⟩ := h
    refine List.forall_mem_cons.2 ⟨?_, List.forall_mem_append.2
      ⟨Expr.every_isWellPlaced hobject, Expr.every_isWellPlaced hkey⟩⟩
    simp [Expr.isWellPlaced, Expr.isIndexable_of_fits hobject, Expr.isParen_of_fits hkey]
  | .call callee args, h => by
    simp only [Expr.fits, Bool.and_eq_true] at h
    obtain ⟨hcallee, hargs⟩ := h
    have ⟨hinside, hbare⟩ := everyIn_isWellPlaced hargs
    refine List.forall_mem_cons.2 ⟨?_, List.forall_mem_append.2
      ⟨Expr.every_isWellPlaced hcallee, hinside⟩⟩
    rw [Expr.isWellPlaced, Expr.isIndexable_of_fits hcallee, hbare, Bool.and_true]
  | .method object name args, h => by
    simp only [Expr.fits, Bool.and_eq_true] at h
    obtain ⟨hobject, hargs⟩ := h
    have ⟨hinside, hbare⟩ := everyIn_isWellPlaced hargs
    refine List.forall_mem_cons.2 ⟨?_, List.forall_mem_append.2
      ⟨Expr.every_isWellPlaced hobject, hinside⟩⟩
    rw [Expr.isWellPlaced, Expr.isIndexable_of_fits hobject, hbare, Bool.and_true]
  | .paren inner, h => by
    simp only [Expr.fits, Bool.and_eq_true] at h
    obtain ⟨⟨-, hneeded⟩, hinner⟩ := h
    refine List.forall_mem_cons.2 ⟨?_, Expr.every_isWellPlaced hinner⟩
    rw [Expr.isWellPlaced, hneeded, Expr.isParen_of_fits hinner]
    rfl

theorem everyIn_isWellPlaced : ∀ {es : List Expr}, allFit es = true →
    EveryIn (·.isWellPlaced = true) es ∧ es.all (!·.isParen) = true
  | [], _ => ⟨everyIn_nil, rfl⟩
  | e :: es, h => by
    simp only [allFit, Bool.and_eq_true] at h
    obtain ⟨hhead, htail⟩ := h
    have ⟨hinside, hbare⟩ := everyIn_isWellPlaced htail
    refine ⟨everyIn_cons.2 ⟨Expr.every_isWellPlaced hhead, hinside⟩, ?_⟩
    rw [List.all_cons, Expr.isParen_of_fits hhead, hbare]
    rfl

end

theorem Stmt.isWellPlaced_of_fits {stmt : Stmt} (h : stmt.fits = true) :
    stmt.isWellPlaced = true ∧ ∀ m ∈ stmt.nodes, m.isWellPlaced = true := by
  cases stmt with
  | assign left op right =>
    simp only [fits, Bool.and_eq_true] at h
    obtain ⟨⟨hleft, hplace⟩, hright⟩ := h
    refine ⟨?_, List.forall_mem_append.2
      ⟨Expr.every_isWellPlaced hplace, Expr.every_isWellPlaced hright⟩⟩
    rw [isWellPlaced, hleft, Expr.isParen_of_fits hright]
    rfl
  | declare temp value =>
    rw [fits] at h
    refine ⟨?_, Expr.every_isWellPlaced h⟩
    rw [isWellPlaced, Expr.isParen_of_fits h]
    rfl

end ExprLowering.Target

namespace ExprLowering.Lowering

open Source (Calculation Substitution)
open Target

-- ════════════════════════════════════════════════════════════════════════
-- What is built from operands
-- ════════════════════════════════════════════════════════════════════════

theorem fits_nameValue (text : String) : (nameValue text).fits .operand = true := by
  rw [nameValue]
  split
  · rfl
  · rfl

theorem fits_literalValue (value : Source.Literal) : (literalValue value).fits .operand = true := by
  cases value <;> rfl

theorem fits_constantValue (constant : Constant) :
    (constantValue constant).fits .operand = true := by
  cases constant <;> rfl

theorem fits_build (form : SimpleForm) {a b : Expr} (ha : a.fits .operand = true)
    (hb : b.fits .operand = true) : (form.build a b).fits .operand = true := by
  cases form with
  | native op => simp [SimpleForm.build, Expr.fits, ha, hb]
  | bits function => simp [SimpleForm.build, Expr.fits, allFit, ha, hb]

theorem fits_property {object : Expr} (h : object.fits .operand = true) (name : String) :
    (Expr.property object.toIndexable name).fits .operand = true := Expr.fits_toIndexable h

theorem fits_index {object key : Expr} (hobject : object.fits .operand = true)
    (hkey : key.fits .operand = true) :
    (Expr.index object.toIndexable key).fits .operand = true := by
  rw [Expr.fits, Expr.fits_toIndexable hobject, hkey]
  rfl

theorem fits_concatenation {segments : List Expr} (h : allFit segments = true) :
    (concatenation segments).fits .operand = true := by
  have hchain (first : Expr) (hfirst : first.fits .operand = true) (rest : List Expr)
      (hrest : allFit rest = true) :
      (rest.foldl (fun chain segment => .binary chain .concat segment) first).fits .operand =
        true := by
    induction rest generalizing first with
    | nil => exact hfirst
    | cons segment rest ih =>
      simp only [allFit, Bool.and_eq_true] at hrest
      exact ih _ (by simp [Expr.fits, hfirst, hrest.1]) hrest.2
  cases segments with
  | nil => rfl
  | cons first rest =>
    simp only [allFit, Bool.and_eq_true] at h
    exact hchain first h.1 rest h.2

theorem allFit_textSegment (text : String) : allFit (textSegment text) = true := by
  rw [textSegment]
  split
  · rfl
  · rfl

theorem allFit_partSegments (facts : Facts) (parts : List (Substitution Source.Expr))
    {values : List Expr} (h : allFit values = true) :
    allFit (partSegments facts parts values) = true := by
  induction parts generalizing values with
  | nil => rfl
  | cons part parts ih =>
    cases values with
    | nil => rfl
    | cons value values =>
      simp only [allFit, Bool.and_eq_true] at h
      have hvalue : (valueSegment facts part.expr value).fits .operand = true := by
        rw [valueSegment]
        split
        · exact h.1
        · simp [Expr.fits, allFit, h.1]
      simp [partSegments, allFit, allFit_textSegment, hvalue, ih h.2]

theorem fits_templateValue (facts : Facts) (head : String)
    (parts : List (Substitution Source.Expr)) {values : List Expr} (h : allFit values = true) :
    (templateValue facts head parts values).fits .operand = true := by
  apply fits_concatenation
  rw [allFit_append, allFit_textSegment, allFit_partSegments facts parts h]
  rfl

theorem fits_compoundStmt (options : Options) (c : Calculation) {place value : Expr}
    (hplace : place.isAssignable = true) (hfits : place.fits .operand = true)
    (hvalue : value.fits .operand = true) : (compoundStmt options c place value).fits = true := by
  rw [compoundStmt]
  split
  · simp [Stmt.fits, hplace, hfits, hvalue]
  · simp [Stmt.fits, hplace, hfits, fits_build _ hfits hvalue]

-- ════════════════════════════════════════════════════════════════════════
-- Values with the statements before them
-- ════════════════════════════════════════════════════════════════════════

/-- The grammar admits the values as operands, and the statements. -/
structure Fits (values : List Expr) (g : Growth) : Prop where
  values : allFit values = true
  stmts : g.stmts.all Stmt.fits = true

namespace Fits

variable {values values₁ values₂ : List Expr} {value a b : Expr} {g g₁ g₂ : Growth}

theorem silent (h : value.fits .operand = true) (hstmts : g.stmts = []) : Fits [value] g :=
  ⟨by simp [allFit, h], by simp [hstmts]⟩

theorem single (h : Fits [value] g) : value.fits .operand = true := by
  simpa [allFit] using h.values

theorem pair (h : Fits [a, b] g) : a.fits .operand = true ∧ b.fits .operand = true := by
  simpa [allFit] using h.values

/-- What is called or indexed, and the arguments. -/
theorem withArgs (h : Fits (value :: values) g) :
    value.fits .operand = true ∧ allFit values = true := by
  simpa only [allFit, Bool.and_eq_true] using h.values

/-- A value from the values that are there. -/
theorem withValue (h : Fits values g) (hvalue : value.fits .operand = true) : Fits [value] g :=
  ⟨by simp [allFit, hvalue], h.stmts⟩

/-- Statements one after the other, with the values of the later ones. -/
theorem followedBy (h₁ : Fits values₁ g₁) (h₂ : Fits values₂ g₂) : Fits values₂ (g₁ ++ g₂) :=
  ⟨h₂.values, by simp [h₁.stmts, h₂.stmts]⟩

/-- A statement after the others. -/
theorem withStmt {stmt : Stmt} (h : Fits values g) (hstmt : stmt.fits = true) :
    Fits values (g ++ .ofStmts [stmt]) :=
  ⟨h.values, by simp [h.stmts, Growth.ofStmts, hstmt]⟩

theorem ofSaved (h : value.fits .operand = true) (n : Nat) :
    Fits [(saved n value).1] (saved n value).2 := by
  cases hatom : value.isAtom with
  | true =>
    rw [saved_atom hatom]
    exact silent h rfl
  | false =>
    rw [saved_complex hatom]
    exact ⟨rfl, by simp [Growth.declaring, Stmt.fits, h]⟩

theorem ofSettleAll (h : allFit values = true) (n : Nat) :
    Fits (settleAll n values).1 (settleAll n values).2 := by
  induction values generalizing n with
  | nil => exact ⟨rfl, rfl⟩
  | cons value values ih =>
    simp only [allFit, Bool.and_eq_true] at h
    cases hsettled : value.isSettled with
    | true =>
      rw [settleAll_cons_settled hsettled]
      exact ⟨by simp [allFit, h.1, (ih h.2 n).values], (ih h.2 n).stmts⟩
    | false =>
      rw [settleAll_cons_unsettled hsettled]
      have hrest := ih h.2 (n + 1)
      exact ⟨by simp [allFit, Expr.fits, hrest.values],
        by simp [Growth.declaring, Stmt.fits, h.1, hrest.stmts]⟩

theorem ofDisplaced (h : allFit values = true) (n : Nat) (stmts : List Stmt) :
    Fits (displaced n values stmts).1 (displaced n values stmts).2 := by
  cases stmts with
  | nil => exact ⟨h, rfl⟩
  | cons stmt stmts => exact ofSettleAll h n

theorem ofMemberRead (role : Option Role) {member : Expr} (hplace : member.isAssignable = true)
    (h : member.fits .operand = true) :
    Fits [(memberRead role member).1] (memberRead role member).2 := by
  rw [memberRead]
  split
  · exact ⟨rfl, by simp [Growth.ofStmts, Stmt.fits, hplace, h, Expr.fits]⟩
  · exact silent h rfl

theorem ofPropertyRead (ctx : Context) (role : Option Role) (object : Source.Expr) (name : String)
    (nameSpan span : Span) (h : value.fits .operand = true) :
    Fits [(propertyRead ctx role object name nameSpan span value).1]
      (propertyRead ctx role object name nameSpan span value).2 := by
  rw [propertyRead]
  split
  · exact silent rfl rfl
  split
  · exact silent rfl rfl
  split
  · exact silent rfl rfl
  have hnote : Fits [.nil] (nameNote name nameSpan) := silent rfl (nameNote_stmts name nameSpan)
  refine hnote.followedBy ?_
  rw [constantOrMember]
  split
  · exact silent (fits_constantValue _) rfl
  · exact ofMemberRead role rfl (fits_property h name)

theorem ofElementRead (ctx : Context) (role : Option Role) (object : Source.Expr)
    (ha : a.fits .operand = true) (hb : b.fits .operand = true) :
    Fits [(elementRead ctx role object a b).1] (elementRead ctx role object a b).2 := by
  rw [elementRead]
  split
  · exact silent rfl rfl
  · exact ofMemberRead role rfl (fits_index ha hb)

theorem ofExpansion {expander : Expander} {n : Nat} {object result : Expr} {args : List Expr}
    (hobject : object.fits .operand = true) (hargs : allFit args = true)
    (h : expansion n object args expander = some (result, g)) : Fits [result] g := by
  cases expander with
  | fail => cases h
  | unit =>
    cases h
    exact silent rfl rfl
  | length =>
    cases h
    exact silent (by simp [Expr.fits, allFit, hobject]) rfl
  | push =>
    cases h
    have hsaved := ofSaved hobject n
    exact hsaved.withValue (by simp [Expr.fits, allFit, hsaved.single, hargs])
  | effect =>
    cases h
    refine ⟨by simp [Expr.fits, allFit, hargs], ?_⟩
    simp [Growth.declaring, Growth.ofStmts, Growth.ofDiagnostic, Stmt.fits, Expr.fits,
      Expr.isAssignable, hobject]

end Fits

-- ════════════════════════════════════════════════════════════════════════
-- Derivations
-- ════════════════════════════════════════════════════════════════════════

/-- Derivations follow the grammar of the target. -/
theorem Lowers.fits {ctx : Context} {job : Job} {n : Nat} {values : List Expr} {g : Growth}
    (h : Lowers ctx job n values g) (hearlier : allFit job.earlier = true) : Fits values g := by
  induction h with
  | name => exact .silent (fits_nameValue _) rfl
  | literal => exact .silent (fits_literalValue _) rfl
  | template _ ih =>
    have hparts := ih rfl
    exact hparts.withValue (fits_templateValue _ _ _ hparts.values)
  | simple _ _ ih =>
    have hboth := ih rfl
    exact hboth.withValue (fits_build _ hboth.pair.1 hboth.pair.2)
  | logical _ _ ih =>
    have hboth := ih rfl
    have hcount : Fits [.nil] Growth.oneLogical := .silent rfl rfl
    exact hcount.followedBy
      (hboth.withValue (by simp [Expr.fits, allFit, hboth.pair.1, hboth.pair.2]))
  | @assign _ _ _ _ _ n _ value g₁ g₂ _ _ _ hplace ihleft ihright =>
    have hleft := ihleft rfl
    have hright := ihright rfl
    have hsaved := Fits.ofSaved hright.single (n + (g₁ ++ g₂).temps)
    refine ((hleft.followedBy hright).followedBy hsaved).withStmt ?_
    rw [Stmt.fits, hplace, hleft.single, hsaved.single]
    rfl
  | compound _ _ _ hplace ihleft ihright =>
    have hleft := ihleft rfl
    have hright := ihright rfl
    exact ((hleft.followedBy hright).withValue hleft.single).withStmt
      (fits_compoundStmt _ _ hplace hleft.single hright.single)
  | property _ ih =>
    have hobject := ih rfl
    exact hobject.followedBy (.ofPropertyRead _ _ _ _ _ _ hobject.single)
  | @chainProperty _ _ _ _ _ n _ g _ ih =>
    have hobject := ih rfl
    have hsaved := Fits.ofSaved hobject.single (n + g.temps)
    have hcount : Fits [.nil] Growth.oneChain := .silent rfl rfl
    exact ((hcount.followedBy hobject).followedBy hsaved).followedBy
      (.ofPropertyRead _ _ _ _ _ _ hsaved.single)
  | element _ ih =>
    have hboth := ih rfl
    exact hboth.followedBy (.ofElementRead _ _ _ hboth.pair.1 hboth.pair.2)
  | chainElement _ ih =>
    have hboth := ih rfl
    have hcount : Fits [.nil] Growth.oneChain := .silent rfl rfl
    exact (hcount.followedBy hboth).followedBy (.ofElementRead _ _ _ hboth.pair.1 hboth.pair.2)
  | refusedCall => exact .silent rfl rfl
  | expandedCall _ _ _ _ hexp ihobject ihargs =>
    have hobject := ihobject rfl
    have hargs := ihargs hobject.values
    exact (hobject.followedBy hargs).followedBy
      (.ofExpansion hargs.withArgs.1 hargs.withArgs.2 hexp)
  | methodCall _ _ _ _ ihobject ihargs =>
    have hobject := ihobject rfl
    have hargs := ihargs hobject.values
    obtain ⟨hhead, hrest⟩ := hargs.withArgs
    refine hobject.followedBy (hargs.withValue ?_)
    rw [Expr.fits, Expr.fits_toIndexable hhead, hrest]
    rfl
  | plainCall _ _ _ ihcallee ihargs =>
    have hcallee := ihcallee rfl
    have hargs := ihargs hcallee.values
    obtain ⟨hhead, hrest⟩ := hargs.withArgs
    refine hcallee.followedBy (hargs.withValue ?_)
    rw [Expr.fits, Expr.fits_toIndexable hhead, hrest]
    rfl
  | delete _ _ ih | wrap _ ih => exact ih rfl
  | targetName => exact .silent (fits_nameValue _) rfl
  | @targetProperty _ _ _ _ _ n _ g _ _ ih =>
    have hobject := ih rfl
    have hsaved := Fits.ofSaved hobject.single (n + g.temps)
    exact hobject.followedBy (hsaved.withValue (fits_property hsaved.single _))
  | @targetElement _ _ _ _ n a _ g _ _ ih =>
    have hboth := ih rfl
    have hfirst := Fits.ofSaved hboth.pair.1 (n + g.temps)
    have hsecond := Fits.ofSaved hboth.pair.2 (n + (g ++ (saved (n + g.temps) a).2).temps)
    exact (hboth.followedBy hfirst).followedBy
      (hsecond.withValue (fits_index hfirst.single hsecond.single))
  | noOperand => exact ⟨hearlier, rfl⟩
  | @operand earlier _ _ n value _ g₁ _ _ _ ihhead ihtail =>
    -- A temporary is an operand and a head, so earlier values fit whether or not they are saved.
    have hhead := ihhead rfl
    have hmoved : Fits (displaced (n + g₁.temps) earlier g₁.stmts).1 _ :=
      .ofDisplaced hearlier (n + g₁.temps) g₁.stmts
    have htail := ihtail (by simp [Job.earlier, allFit, hmoved.values, hhead.single])
    exact (hmoved.followedBy hhead).followedBy htail

/-- Lowered code is valid: at every depth, what is indexed or called may be indexed or called, what
is assigned to may be assigned to, and parentheses stand around heads that need them and nowhere
else. -/
theorem lowered_code_is_valid {ctx : Context} {e : Source.Expr} {out : Output}
    (h : lowerAlone ctx e = .ok out) :
    (∀ m ∈ out.nodes, m.isWellPlaced = true) ∧ (∀ stmt ∈ out.stmts, stmt.isWellPlaced = true) ∧
      out.value.isParen = false := by
  obtain ⟨value, g, hlow, rfl⟩ := lowerAlone_eq_ok_iff.1 h
  have hfits := hlow.fits rfl
  have hstmts := List.all_eq_true.1 hfits.stmts
  refine ⟨List.forall_mem_append.2 ⟨fun m hm => ?_, Expr.every_isWellPlaced hfits.single⟩,
    fun stmt hstmt => (Stmt.isWellPlaced_of_fits (hstmts stmt hstmt)).1,
    Expr.isParen_of_fits hfits.single⟩
  obtain ⟨stmt, hstmt, hm⟩ := List.mem_flatMap.1 hm
  exact (Stmt.isWellPlaced_of_fits (hstmts stmt hstmt)).2 m hm

/-- In `"s".len += (a + b).c(x = 1)` the literal and the sum are put in parentheses, and the callee
is saved before the assignment in the argument. -/
theorem parenthesized_heads_are_valid :
    let name (text : String) (column : Nat) : Source.Expr := .name text (.point 1 column)
    let sum : Source.Expr := .binary (name "a" 3) (.calculation (.arithmetic .add)) (name "b" 4)
      (.point 1 5)
    let e : Source.Expr := .binary
      (.property (.literal (.string "'s'") (.point 1 1)) "len" (.point 1 2) false (.point 1 12))
      (.assignWith (.arithmetic .add))
      (.call (.property sum "c" (.point 1 6) false (.point 1 7))
        [.binary (name "x" 8) .assign (.literal (.number "1") (.point 1 9)) (.point 1 10)]
        (.point 1 11))
      (.point 1 13)
    let place : Expr := .property (.paren (.string "s")) "len"
    let callee : Expr := .property (.paren (.binary (.name "a") .add (.name "b"))) "c"
    let out : Output := ⟨[.declare ⟨0⟩ callee, .assign (.name "x") .set (.number "1"),
      .assign place .add (.call (.temp ⟨0⟩) [.number "1"])], place, [], 0, 0⟩
    lowerAlone ⟨.empty, ⟨true, true⟩⟩ e = .ok out ∧
      (∀ m ∈ out.nodes, m.isWellPlaced = true) ∧
      (∀ stmt ∈ out.stmts, stmt.isWellPlaced = true) ∧ out.value.isParen = false := by
  intro name sum e place callee out
  have hout : lowerAlone ⟨.empty, ⟨true, true⟩⟩ e = .ok out := by
    simp only [name, sum, e, place, callee, out]
    rfl
  exact ⟨hout, lowered_code_is_valid hout⟩

/-- A placeholder stands for something that was reported: where the source has no empty name and
nothing is reported, there is none. -/
theorem no_placeholder_unreported {ctx : Context} {e : Source.Expr} {out : Output}
    (hnames : ∀ text span, .name text span ∈ e.nodes → text ≠ "")
    (h : lowerAlone ctx e = .ok out) (hquiet : out.diagnostics = []) :
    Expr.name "" ∉ out.nodes := by
  have hinserted : "" ∉ insertedNames := by decide
  have hadmits : Admits (· ≠ .name "") ctx.facts e.nodes out.diagnostics := by
    rintro m hm rfl
    cases hm with
    | sourceName hsource => exact hnames _ _ hsource rfl
    | insertedName hin => exact hinserted hin
    | placeholder hreports => exact hreports hquiet
  exact fun hmem => every_node_of_lowerAlone h hadmits _ hmem rfl

/-- In the template with the one substitution `a && undefined` nothing is reported, and the names
in its value are that of the source and two that lowering puts in. -/
theorem inserted_names_are_no_placeholders :
    let e : Source.Expr := .template "" [⟨.binary (.name "a" (.point 1 1)) (.logical .and)
      (.name "undefined" (.point 1 2)) (.point 1 3), "", .point 1 4⟩] (.point 1 5)
    let out : Output := ⟨[], .call (.name "tostring") [.call (.name "logical") [.name "a", .nil]],
      [], 1, 0⟩
    lowerAlone ⟨.empty, ⟨true, true⟩⟩ e = .ok out ∧ Expr.name "" ∉ out.nodes := by
  intro e out
  have hout : lowerAlone ⟨.empty, ⟨true, true⟩⟩ e = .ok out := by
    simp only [e, out]
    rfl
  refine ⟨hout, no_placeholder_unreported ?_ hout rfl⟩
  intro text span hmem
  have hname : text = "a" ∧ span = .point 1 1 ∨ text = "undefined" ∧ span = .point 1 2 := by
    simpa [e, Source.Expr.nodes, Source.partNodes] using hmem
  rcases hname with ⟨rfl, -⟩ | ⟨rfl, -⟩
  · decide
  · decide

end ExprLowering.Lowering
