import ExprLowering.Proofs.Effort
import Mathlib.Data.List.Perm.Subperm

/-!
# What folding constants does to effects

With folding, a constant is put in the place of a member access, and the value of the object is
dropped together with the calls that were left in it. A deletion of such a member deletes nothing.
Apart from that, folding lets fewer values be saved, so that an access that is refused drops more of
its object. This file says exactly when nothing is lost, and when the order stays the same.

## Main definitions

* `converts`: the templates that matter.
* `Lossless`: folding loses no effect in an expression.
* `Steady`: nothing is folded where the order could suffer.
* `Matched`, `Follows`: how the traces with and without folding are related.

## Main results

* `Lowers.operands_follow`: one operand at a time keeps the lowerings of operands related.
* `followed_of_no_expanders`: the lowerings of an expression are related.
* `folding_loses_exactly`: folding adds no effect, loses none exactly if the expression is lossless,
  and keeps the order if it is steady besides.
* `folding_drops_call_and_removal`: effects that are lost.
-/

namespace ExprLowering.Lowering

open Source (Substitution)
open Target

-- ════════════════════════════════════════════════════════════════════════
-- Where effects can be lost
-- ════════════════════════════════════════════════════════════════════════

/-- Whether an expression is a template with a value to convert. -/
def converts (facts : Facts) : Source.Expr → Bool
  | .template _ parts _ => parts.any fun part => !(facts.typeOf part.expr).isString
  | _ => false

/-- Nothing is lost where an access is folded: it is not deleted, and no call is left in the value
of its object, or that value is saved first. -/
def Spares (facts : Facts) (role : Option Role) : Source.Expr → Prop
  | .property object name nameSpan optional span =>
    isFolded facts role (.property object name nameSpan optional span) = true →
      role ≠ some .deleted ∧
        (optional = true ∨ (effort facts true (some .operand) object).late = 0)
  | _ => True

/-- Folding loses no effect in an expression. In an access that is refused, as much is done either
way before it is refused. -/
inductive Lossless (facts : Facts) : Option Role → Source.Expr → Prop where
  | refused {role e} : isRefused facts role e = true →
      (effort facts true role e).early = (effort facts false role e).early →
      Lossless facts role e
  | node {role e} : isRefused facts role e = false → Spares facts role e →
      (∀ p ∈ parts facts role e, Lossless facts p.1 p.2) → Lossless facts role e

/-- No access is folded inside a refused access or inside a template with a value to convert. -/
def Steady (facts : Facts) (role : Option Role) (e : Source.Expr) : Prop :=
  ∀ v ∈ visits facts role e, (isRefused facts v.1 v.2 || converts facts v.2) = true →
    ∀ w ∈ visits facts v.1 v.2, isFolded facts w.1 w.2 = false

theorem lossless_of_refused {facts : Facts} {role : Option Role} {e : Source.Expr}
    (h : isRefused facts role e = true) :
    Lossless facts role e ↔
      (effort facts true role e).early = (effort facts false role e).early := by
  constructor
  · intro hlossless
    cases hlossless with
    | refused _ hlength => exact hlength
    | node hnot => cases hnot.symm.trans h
  · exact .refused h

theorem lossless_of_not_refused {facts : Facts} {role : Option Role} {e : Source.Expr}
    (h : isRefused facts role e = false) :
    Lossless facts role e ↔
      Spares facts role e ∧ ∀ p ∈ parts facts role e, Lossless facts p.1 p.2 := by
  constructor
  · intro hlossless
    cases hlossless with
    | refused hrefused => cases h.symm.trans hrefused
    | node _ hspares hparts => exact ⟨hspares, hparts⟩
  · exact fun ⟨hspares, hparts⟩ => .node h hspares hparts

theorem Steady.part {facts : Facts} {role : Option Role} {e : Source.Expr}
    (h : Steady facts role e) {p : Visit} (hp : p ∈ parts facts role e) : Steady facts p.1 p.2 :=
  fun v hv => h v (visits_subset_of_mem_parts hp hv)

-- ════════════════════════════════════════════════════════════════════════
-- Traces with and without folding
-- ════════════════════════════════════════════════════════════════════════

/-- The traces of parts with and without folding: the first has no more effects than the second, as
many exactly if the parts are lossless, and is the same if they are steady besides. -/
structure Matched (facts : Facts) (ps : List Visit) (ts ts' : List Event) : Prop where
  sub : ts.Subperm ts'
  perm : ts.Perm ts' ↔ ∀ p ∈ ps, Lossless facts p.1 p.2
  eq : (∀ p ∈ ps, Lossless facts p.1 p.2) → (∀ p ∈ ps, Steady facts p.1 p.2) → ts = ts'

/-- Of two lists of which the second has all elements of the first, they are permutations exactly if
they are equally long. -/
theorem perm_iff_length_eq {α : Type} {xs ys : List α} (h : xs.Subperm ys) :
    xs.Perm ys ↔ xs.length = ys.length :=
  ⟨List.Perm.length_eq, fun hlength => h.perm_of_length_le (Nat.le_of_eq hlength.symm)⟩

theorem subperm_append_right_of {α : Type} {xs ys : List α} (h : xs.Subperm ys) (zs : List α) :
    xs.Subperm (ys ++ zs) :=
  h.trans (List.sublist_append_left ys zs).subperm

namespace Matched

variable {facts : Facts} {ps qs : List Visit} {ts ts' us us' : List Event}

/-- Where there are no parts, the traces are the same. -/
theorem same (ts : List Event) : Matched facts [] ts ts :=
  ⟨.refl ts, by simp, fun _ _ => rfl⟩

theorem append (h : Matched facts ps ts ts') (k : Matched facts qs us us') :
    Matched facts (ps ++ qs) (ts ++ us) (ts' ++ us') where
  sub := h.sub.append k.sub
  perm := by
    have hle := h.sub.length_le
    have kle := k.sub.length_le
    rw [List.forall_mem_append, ← h.perm, ← k.perm, perm_iff_length_eq h.sub,
      perm_iff_length_eq k.sub, perm_iff_length_eq (h.sub.append k.sub), List.length_append,
      List.length_append]
    omega
  eq hlossless hsteady := by
    obtain ⟨hps, hqs⟩ := List.forall_mem_append.1 hlossless
    obtain ⟨sps, sqs⟩ := List.forall_mem_append.1 hsteady
    rw [h.eq hps sps, k.eq hqs sqs]

/-- An effect that both have at the end. -/
theorem thenBoth (h : Matched facts ps ts ts') (own : List Event) :
    Matched facts ps (ts ++ own) (ts' ++ own) where
  sub := h.sub.append (.refl own)
  perm := (List.perm_append_right_iff own).trans h.perm
  eq hlossless hsteady := congrArg (· ++ own) (h.eq hlossless hsteady)

/-- An expression that is not refused and loses nothing itself, from its parts. -/
theorem node {role : Option Role} {e : Source.Expr}
    (h : Matched facts (parts facts role e) ts ts')
    (hrefused : isRefused facts role e = false) (hspares : Spares facts role e) :
    Matched facts [(role, e)] ts ts' where
  sub := h.sub
  perm := by
    rw [h.perm, List.forall_mem_singleton, lossless_of_not_refused hrefused, and_iff_right hspares]
  eq hlossless hsteady := by
    rw [List.forall_mem_singleton] at hlossless hsteady
    exact h.eq ((lossless_of_not_refused hrefused).1 hlossless).2 fun p hp => hsteady.part hp

end Matched

/-- How the lowerings of parts to one value with and without folding are related. With folding,
nothing is emitted where nothing is emitted without, values that are atoms without are atoms, and
the statements do no more. -/
structure Follows (facts : Facts) (ps : List Visit) (v : Expr) (g : Growth) (v' : Expr)
    (g' : Growth) : Prop where
  emits : g'.stmts = [] → g.stmts = []
  atom : v'.isAtom = true → v.isAtom = true
  early : g.trace.Subperm g'.trace
  whole : Matched facts ps (g.trace ++ trace v) (g'.trace ++ trace v')

/-- The same for operands after earlier ones. -/
structure OperandsFollow (facts : Facts) (es : List Source.Expr) (earlier values : List Expr)
    (g : Growth) (earlier' values' : List Expr) (g' : Growth) : Prop where
  emits : g'.stmts = [] → g.stmts = []
  /-- What was done before, and what is pending of it, may be counted in. -/
  early : ∀ ⦃done done' : List Event⦄, done.Subperm done' →
    (done ++ traceAll earlier).Subperm (done' ++ traceAll earlier') →
    (done ++ g.trace).Subperm (done' ++ g'.trace)
  whole : ∃ ts ts', g.trace ++ traceAll values = traceAll earlier ++ ts ∧
    g'.trace ++ traceAll values' = traceAll earlier' ++ ts' ∧
    Matched facts (asOperands es) ts ts'

/-- Lowerings of an expression in a role are related, whatever temporaries they start at. -/
def Followed (facts : Facts) (keep : Bool) (role : Option Role) (e : Source.Expr) : Prop :=
  ∀ ⦃n n' : Nat⦄ ⦃v v' : Expr⦄ ⦃g g' : Growth⦄,
    Lowers (folding facts keep) (.expr role e) n [v] g →
    Lowers (unfolding facts keep) (.expr role e) n' [v'] g' →
    Follows facts [(role, e)] v g v' g'

section

variable {facts : Facts} {keep : Bool} {ps : List Visit} {es : List Source.Expr}
  {v v' w w' : Expr} {g g' k k' : Growth} {n n' : Nat}

theorem followed_operands (h : ∀ p ∈ asOperands es, Followed facts keep p.1 p.2) :
    ∀ e ∈ es, Followed facts keep (some .operand) e :=
  fun e he => h (some .operand, e) (List.mem_map_of_mem he)

/-- Only the statements matter. -/
theorem Follows.congr (h : Follows facts ps v g v' g') (hk : k.stmts = g.stmts)
    (hk' : k'.stmts = g'.stmts) : Follows facts ps v k v' k' where
  emits := by rw [hk, hk']; exact h.emits
  atom := h.atom
  early := by rw [Growth.trace_congr hk, Growth.trace_congr hk']; exact h.early
  whole := by rw [Growth.trace_congr hk, Growth.trace_congr hk']; exact h.whole

/-- An expression that loses nothing itself, from its parts. -/
theorem Follows.node {role : Option Role} {e : Source.Expr}
    (h : Follows facts (parts facts role e) v g v' g')
    (hrefused : isRefused facts role e = false) (hspares : Spares facts role e) :
    Follows facts [(role, e)] v g v' g' :=
  ⟨h.emits, h.atom, h.early, h.whole.node hrefused hspares⟩

/-- Operands after earlier ones, one operand at a time. Where the lowering with folding emits
statements the other one does, and both have then done all that was pending. -/
theorem Lowers.operands_follow (hes : ∀ e ∈ es, Followed facts keep (some .operand) e)
    {earlier earlier' values values' : List Expr}
    (h : Lowers (folding facts keep) (.operands earlier es) n values g)
    (h' : Lowers (unfolding facts keep) (.operands earlier' es) n' values' g') :
    OperandsFollow facts es earlier values g earlier' values' g' := by
  induction es generalizing earlier earlier' n n' g g' with
  | nil =>
    cases h
    cases h'
    refine ⟨fun _ => rfl, fun done done' hdone _ => ?_, [], [], by simp, by simp, .same []⟩
    simpa using hdone
  | cons e es ih =>
    cases h with
    | @operand _ _ _ _ v _ g₁ g₂ hhead htail =>
    cases h' with
    | @operand _ _ _ _ v' _ g₁' g₂' hhead' htail' =>
    have hfirst := hes e List.mem_cons_self hhead hhead'
    have hrest := ih (fun d hd => hes d (List.mem_cons_of_mem e hd)) htail htail'
    have hmoved := trace_displaced (n + g₁.temps) earlier g₁ v
    have hmoved' := trace_displaced (n' + g₁'.temps) earlier' g₁' v'
    refine ⟨fun hnone => ?_, fun done done' hdone hpending => ?_, ?_⟩
    · simp only [Growth.append_stmts, List.append_eq_nil_iff] at hnone ⊢
      obtain ⟨⟨-, hnone₁⟩, hnone₂⟩ := hnone
      rw [hfirst.emits hnone₁]
      exact ⟨⟨rfl, rfl⟩, hrest.emits hnone₂⟩
    · have hdone₁ : List.Subperm
          (done ++ ((displaced (n + g₁.temps) earlier g₁.stmts).2.trace ++ g₁.trace))
          (done' ++ ((displaced (n' + g₁'.temps) earlier' g₁'.stmts).2.trace ++ g₁'.trace)) := by
        -- The lowering without folding may save what is pending while the other one does not.
        by_cases hquiet : g₁.stmts = []
        · rw [hquiet, Growth.trace_of_stmts hquiet]
          exact subperm_append_right_of (by simpa using hdone) _
        · have hquiet' : g₁'.stmts ≠ [] := fun hnone => hquiet (hfirst.emits hnone)
          rw [trace_displaced_of_ne_nil hquiet, trace_displaced_of_ne_nil hquiet',
            ← List.append_assoc, ← List.append_assoc]
          exact hpending.append hfirst.early
      have hall := hpending.append hfirst.whole.sub
      rw [List.append_assoc, List.append_assoc, ← hmoved, ← hmoved'] at hall
      have hend := hrest.early hdone₁ (by simpa only [List.append_assoc] using hall)
      simpa only [Growth.trace_append, List.append_assoc] using hend
    · obtain ⟨ts, ts', hts, hts', hmatched⟩ := hrest.whole
      refine ⟨_, _, ?_, ?_, hfirst.whole.append hmatched⟩
      · rw [Growth.trace_append, Growth.trace_append, List.append_assoc, hts, ← List.append_assoc,
          hmoved, List.append_assoc]
      · rw [Growth.trace_append, Growth.trace_append, List.append_assoc, hts', ← List.append_assoc,
          hmoved', List.append_assoc]

/-- What is made of operands alone. -/
theorem OperandsFollow.result {values values' : List Expr} {own : List Event}
    (h : OperandsFollow facts es [] values g [] values' g')
    (hv : trace v = traceAll values ++ own) (hv' : trace v' = traceAll values' ++ own)
    (hatom : v'.isAtom = true → v.isAtom = true) :
    Follows facts (asOperands es) v g v' g' where
  emits := h.emits
  atom := hatom
  early := h.early (List.Subperm.refl []) (List.Subperm.refl [])
  whole := by
    obtain ⟨ts, ts', hts, hts', hmatched⟩ := h.whole
    rw [hv, hv', ← List.append_assoc, ← List.append_assoc, hts, hts']
    exact hmatched.thenBoth own

/-- What is made of a first value and operands after it. -/
theorem Follows.withArgs {values values' : List Expr} {own : List Event}
    (hfirst : Follows facts ps w g w' g')
    (hargs : OperandsFollow facts es [w] values k [w'] values' k')
    (hv : trace v = traceAll values ++ own) (hv' : trace v' = traceAll values' ++ own)
    (hatom : v'.isAtom = true → v.isAtom = true) :
    Follows facts (ps ++ asOperands es) v (g ++ k) v' (g' ++ k') where
  emits hnone := by
    obtain ⟨hnone₁, hnone₂⟩ := List.append_eq_nil_iff.1 hnone
    exact List.append_eq_nil_iff.2 ⟨hfirst.emits hnone₁, hargs.emits hnone₂⟩
  atom := hatom
  early := by
    have hpending : (g.trace ++ traceAll [w]).Subperm (g'.trace ++ traceAll [w']) := by
      simpa using hfirst.whole.sub
    simpa only [Growth.trace_append] using hargs.early hfirst.early hpending
  whole := by
    obtain ⟨ts, ts', hts, hts', hmatched⟩ := hargs.whole
    have hall := (hfirst.whole.append hmatched).thenBoth own
    have heq : (g ++ k).trace ++ trace v = g.trace ++ trace w ++ ts ++ own := by
      rw [hv, Growth.trace_append, ← List.append_assoc, List.append_assoc _ k.trace, hts]
      simp
    have heq' : (g' ++ k').trace ++ trace v' = g'.trace ++ trace w' ++ ts' ++ own := by
      rw [hv', Growth.trace_append, ← List.append_assoc, List.append_assoc _ k'.trace, hts']
      simp
    rwa [heq, heq']

/-- A member that is read, or removed. -/
theorem Follows.memberRead (h : Follows facts ps v g v' g') (role : Option Role)
    (hlabel : targetLabel v = targetLabel v') :
    Follows facts ps (memberRead role v).1 (g ++ (memberRead role v).2) (memberRead role v').1
      (g' ++ (memberRead role v').2) := by
  by_cases hrole : role = some .deleted
  · have hwritten := h.whole.thenBoth [.write (targetLabel v')]
    have hend (w : Expr) (k : Growth) : (k ++ .ofStmts [.assign w .set .nil]).trace =
        k.trace ++ trace w ++ [.write (targetLabel w)] := by simp [stmtTrace, trace]
    simp only [Lowering.memberRead, if_pos hrole]
    refine ⟨by simp [Growth.ofStmts], fun _ => rfl, ?_, ?_⟩
    · rw [hend, hend, hlabel]
      exact hwritten.sub
    · rw [hend, hend, hlabel]
      simpa only [trace, List.append_nil] using hwritten
  · rw [memberRead_of_ne hrole, memberRead_of_ne hrole]
    exact h.congr (List.append_nil _) (List.append_nil _)

/-- The value of an object before its member is read. -/
theorem Follows.received {optional : Bool} (h : Follows facts ps w g w' g')
    (hr : Received w g optional v k) (hr' : Received w' g' optional v' k') :
    Follows facts ps v k v' k' := by
  cases hr with
  | asIs =>
    cases hr'
    exact h
  | inTemp m =>
    cases hr' with
    | inTemp m' =>
    refine ⟨fun hnone => ?_, fun _ => saved_isAtom m w, ?_, ?_⟩
    · obtain ⟨hnone₁, hnone₂⟩ := List.append_eq_nil_iff.1 hnone
      have hatom := h.atom ((stmts_saved_eq_nil_iff m' w').1 hnone₂)
      exact List.append_eq_nil_iff.2 ⟨h.emits hnone₁, (stmts_saved_eq_nil_iff m w).2 hatom⟩
    · simpa using h.whole.sub
    · simpa using h.whole

end

-- ════════════════════════════════════════════════════════════════════════
-- Where nothing is folded
-- ════════════════════════════════════════════════════════════════════════

/-- A refused access and a template are lowered alike in all roles. -/
theorem Lowers.as_operand {facts : Facts} {options : Options} {role : Option Role}
    {e : Source.Expr} {n : Nat} {values : List Expr} {g : Growth}
    (h : Lowers ⟨facts, options⟩ (.expr role e) n values g)
    (he : (isRefused facts role e || converts facts e) = true) :
    Lowers ⟨facts, options⟩ (.expr (some .operand) e) n values g := by
  cases h with
  | template hparts => exact .template hparts
  | @property _ object name nameSpan span _ value _ hobject =>
    simp only [converts, Bool.or_false] at he
    rw [(propertyRead_refused he options value).2.2 options]
    exact .property hobject
  | @chainProperty _ object name nameSpan span n value g hobject =>
    simp only [converts, Bool.or_false] at he
    rw [(propertyRead_refused he options (saved (n + g.temps) value).1).2.2 options]
    exact .chainProperty hobject
  | @element _ object index span _ a b _ hboth =>
    simp only [converts, Bool.or_false] at he
    rw [elementRead_refused he, ← elementRead_refused he options (some .operand) a b]
    exact .element hboth
  | @chainElement _ object index span _ a b _ hboth =>
    simp only [converts, Bool.or_false] at he
    rw [elementRead_refused he, ← elementRead_refused he options (some .operand) a b]
    exact .chainElement hboth
  | name | literal | simple | logical | assign | compound | refusedCall | expandedCall | methodCall
  | plainCall | delete | wrap => cases he

/-- Where no access is folded, lowering is the same with and without folding. -/
theorem Lowers.unfolded {facts : Facts} {keep : Bool} {job : Job} {n : Nat} {values : List Expr}
    {g : Growth} (h : Lowers (folding facts keep) job n values g)
    (hnone : ∀ w ∈ job.visits facts, isFolded facts w.1 w.2 = false) :
    Lowers (unfolding facts keep) job n values g := by
  have hparts {role : Option Role} {e : Source.Expr}
      (hexpr : ∀ w ∈ (Job.expr role e).visits facts, isFolded facts w.1 w.2 = false) :
      ∀ w ∈ visitsAll facts (parts facts role e), isFolded facts w.1 w.2 = false := by
    rw [Job.visits, visits_eq] at hexpr
    exact (List.forall_mem_append.1 hexpr).1
  induction h with
  | name => exact .name
  | literal => exact .literal
  | template _ ih => exact .template (ih (hparts hnone))
  | simple hop _ ih =>
    have hboth := hparts hnone
    rw [parts_simple _ _ (operatorEffects_simple hop).1] at hboth
    exact .simple hop (ih hboth)
  | logical hop _ ih =>
    obtain ⟨l, rfl⟩ := eq_logical_of_operatorKind hop
    exact .logical hop (ih (hparts hnone))
  | assign hop _ _ hplace ihleft ihright =>
    have hboth := hparts hnone
    rw [parts_assignment _ _ (by rw [eq_assign_of_operatorKind hop]; rfl), visitsAll_append]
      at hboth
    obtain ⟨hleft, hright⟩ := List.forall_mem_append.1 hboth
    exact .assign hop (ihleft hleft) (ihright (List.forall_mem_append.1 hright).1) hplace
  | compound hop _ _ hplace ihleft ihright =>
    have hboth := hparts hnone
    rw [parts_assignment _ _ (by rw [eq_assignWith_of_operatorKind hop]; rfl), visitsAll_append]
      at hboth
    obtain ⟨hleft, hright⟩ := List.forall_mem_append.1 hboth
    exact .compound hop (ihleft hleft) (ihright (List.forall_mem_append.1 hright).1) hplace
  | @property role object name nameSpan span _ value _ _ ih =>
    have hown := hnone _ (mem_visits_self ..)
    have hobject := hparts hnone
    rw [propertyRead_not_folded hown]
    exact .property (ih (List.forall_mem_append.1 hobject).1)
  | chainProperty _ ih =>
    have hown := hnone _ (mem_visits_self ..)
    have hobject := hparts hnone
    rw [propertyRead_not_folded hown]
    exact .chainProperty (ih (List.forall_mem_append.1 hobject).1)
  | element _ ih => exact .element (ih (hparts hnone))
  | chainElement _ ih => exact .chainElement (ih (hparts hnone))
  | refusedCall hform => exact .refusedCall hform
  | expandedCall hform hunwrap _ _ hexp ihobject ihargs =>
    have hall := hparts hnone
    rw [parts_memberCall hunwrap (.inl ⟨_, hform⟩)] at hall
    obtain ⟨hobject, hargs⟩ := List.forall_mem_append.1 hall
    exact .expandedCall hform hunwrap (ihobject hobject) (ihargs hargs) hexp
  | methodCall hform hunwrap _ _ ihobject ihargs =>
    have hall := hparts hnone
    rw [parts_memberCall hunwrap (.inr ⟨_, hform⟩)] at hall
    obtain ⟨hobject, hargs⟩ := List.forall_mem_append.1 hall
    exact .methodCall hform hunwrap (ihobject hobject) (ihargs hargs)
  | plainCall hform _ _ ihcallee ihargs =>
    have hall := hparts hnone
    rw [parts_plainCall hform] at hall
    obtain ⟨hcallee, hargs⟩ := List.forall_mem_append.1 hall
    exact .plainCall hform (ihcallee hcallee) (ihargs hargs)
  | delete hoperand _ ih => exact .delete hoperand (ih (List.forall_mem_append.1 (hparts hnone)).1)
  | wrap _ ih => exact .wrap (ih (List.forall_mem_append.1 (hparts hnone)).1)
  | targetName hunwrap => exact .targetName hunwrap
  | targetProperty hunwrap _ ih =>
    rw [Job.visits, memberParts, hunwrap] at hnone
    exact .targetProperty hunwrap (ih (List.forall_mem_append.1 hnone).1)
  | targetElement hunwrap _ ih =>
    rw [Job.visits, memberParts, hunwrap] at hnone
    exact .targetElement hunwrap (ih hnone)
  | noOperand => exact .noOperand
  | operand _ _ ihhead ihtail =>
    obtain ⟨hhead, htail⟩ := List.forall_mem_append.1 hnone
    exact .operand (ihhead hhead) (ihtail htail)

-- ════════════════════════════════════════════════════════════════════════
-- One lemma for each kind of expression
-- ════════════════════════════════════════════════════════════════════════

section

variable {facts : Facts} {keep : Bool} {role : Option Role} {e : Source.Expr} {n n' : Nat}
  {v v' : Expr} {g g' : Growth}

/-- Where the order could suffer and nothing is folded, the traces are the same. -/
theorem Steady.same_trace (hsteady : Steady facts role e)
    (he : (isRefused facts role e || converts facts e) = true)
    (h : Lowers (folding facts keep) (.expr role e) n [v] g)
    (h' : Lowers (unfolding facts keep) (.expr role e) n' [v'] g') :
    g.trace = g'.trace ∧ trace v = trace v' := by
  have hsame := h.unfolded (hsteady (role, e) (mem_visits_self ..) he)
  exact (hsame.as_operand he).same_trace (h'.as_operand he)

/-- A refused access drops what is left in its object. -/
theorem follows_refused (hexpanders : facts.expanders.isEmpty = true)
    (hrefused : isRefused facts role e = true)
    (h : Lowers (folding facts keep) (.expr role e) n [.placeholder] g)
    (h' : Lowers (unfolding facts keep) (.expr role e) n' [.placeholder] g')
    (hemits : g'.stmts = [] → g.stmts = []) (hearly : g.trace.Subperm g'.trace) :
    Follows facts [(role, e)] .placeholder g .placeholder g' := by
  have he : (isRefused facts role e || converts facts e) = true := by rw [hrefused, Bool.true_or]
  refine ⟨hemits, fun _ => rfl, hearly, ?_⟩
  simp only [Expr.placeholder, trace, List.append_nil]
  refine ⟨hearly, ?_, fun _ hsteady => ?_⟩
  · rw [perm_iff_length_eq hearly, List.forall_mem_singleton, lossless_of_refused hrefused,
      (measured_of_no_expanders hexpanders _ _ _ h).early,
      (measured_of_no_expanders hexpanders _ _ _ h').early]
  · exact ((List.forall_mem_singleton.1 hsteady).same_trace he h h').1

/-- A folded access, from what is done for its object and what is left in it. -/
theorem Matched.folded {object : Source.Expr} {name : String} {nameSpan span : Span}
    {optional : Bool} {done left ts' own : List Event}
    (h : Matched facts [(some .operand, object)] (done ++ left) ts')
    (hfolded : isFolded facts role (.property object name nameSpan optional span) = true)
    (hown : own = [] ↔ role ≠ some .deleted)
    (hleft : left = [] ↔
      optional = true ∨ (effort facts true (some .operand) object).late = 0) :
    Matched facts [(role, .property object name nameSpan optional span)] done
      (ts' ++ own) := by
  have hrefused : isRefused facts role (.property object name nameSpan optional span) = false := by
    rw [isFolded, Bool.and_eq_true, Bool.not_eq_true'] at hfolded
    exact hfolded.1
  have hdone : done.Subperm ts' := (List.sublist_append_left done left).subperm.trans h.sub
  have hlossless : Lossless facts role (.property object name nameSpan optional span) ↔
      (own = [] ∧ left = []) ∧ Lossless facts (some .operand) object := by
    rw [lossless_of_not_refused hrefused, Spares, hown, hleft, imp_iff_right hfolded]
    exact and_congr_right fun _ => List.forall_mem_singleton
  refine ⟨subperm_append_right_of hdone own, ?_, fun hnone hsteady => ?_⟩
  · have hobject : (done ++ left).Perm ts' ↔ Lossless facts (some .operand) object :=
      h.perm.trans List.forall_mem_singleton
    have hle := h.sub.length_le
    rw [perm_iff_length_eq (subperm_append_right_of hdone own), List.forall_mem_singleton,
      hlossless, ← hobject, perm_iff_length_eq h.sub, ← List.length_eq_zero_iff,
      ← List.length_eq_zero_iff]
    rw [List.length_append] at hle ⊢
    rw [List.length_append]
    omega
  · obtain ⟨⟨rfl, rfl⟩, hobject⟩ := hlossless.1 (hnone _ List.mem_cons_self)
    have hpart : Steady facts (some .operand) object :=
      (hsteady _ List.mem_cons_self).part List.mem_cons_self
    have heq := h.eq (List.forall_mem_singleton.2 hobject) (List.forall_mem_singleton.2 hpart)
    rwa [List.append_nil] at heq ⊢

theorem follows_property {object : Source.Expr} {name : String} {nameSpan span : Span}
    {optional : Bool} (hexpanders : facts.expanders.isEmpty = true)
    (hobject : Followed facts keep (some .operand) object) :
    Followed facts keep role (.property object name nameSpan optional span) := by
  intro n n' v v' g g' h h'
  obtain ⟨value, g₀, receiver, g₁, hlow, hreceived, rfl, hg⟩ := h.property_parts
  obtain ⟨value', g₀', receiver', g₁', hlow', hreceived', rfl, hg'⟩ := h'.property_parts
  have hreceiver := (hobject hlow hlow').received hreceived hreceived'
  cases hrefused : isRefused facts role (.property object name nameSpan optional span) with
  | true =>
    obtain ⟨hv, hstmts, -⟩ := propertyRead_refused hrefused ⟨true, keep⟩ receiver
    obtain ⟨hv', hstmts', -⟩ := propertyRead_refused hrefused ⟨false, keep⟩ receiver'
    rw [hstmts, List.append_nil] at hg
    rw [hstmts', List.append_nil] at hg'
    have hread := hreceiver.congr hg hg'
    rw [hv] at h ⊢
    rw [hv'] at h' ⊢
    exact follows_refused hexpanders hrefused h h' hread.emits hread.early
  | false =>
    obtain ⟨hv', hstmts'⟩ := propertyRead_unfolding hrefused keep receiver'
    rw [hstmts'] at hg'
    rw [hv']
    cases hfolded : isFolded facts role (.property object name nameSpan optional span) with
    | false =>
      obtain ⟨hv, hstmts⟩ := propertyRead_unfolding hrefused keep receiver
      rw [propertyRead_not_folded hfolded] at hg ⊢
      rw [hstmts] at hg
      rw [hv]
      have hmember : Follows facts [(some .operand, object)]
          (.property receiver.toIndexable name) g₁ (.property receiver'.toIndexable name) g₁' :=
        ⟨hreceiver.emits, (fun hatom => by cases hatom), hreceiver.early,
          by simpa only [trace, trace_toIndexable] using hreceiver.whole⟩
      exact ((hmember.memberRead role rfl).congr hg hg').node hrefused
        fun hyes => by cases hfolded.symm.trans hyes
    | true =>
      -- The constant has no effects: what is left in the receiver is lost, and so is the removal.
      obtain ⟨hatom, hstmts⟩ := propertyRead_folded hfolded keep receiver
      rw [hstmts, List.append_nil] at hg
      have hleft : trace receiver = [] ↔
          optional = true ∨ (effort facts true (some .operand) object).late = 0 := by
        have hlate := (measured_of_no_expanders hexpanders _ _ _ hlow).late
        cases hreceived with
        | asIs => simp [← hlate]
        | inTemp m => simp
      have hlabel : targetLabel (.property receiver'.toIndexable name) =
          sourceLabel (.property object name nameSpan optional span) := rfl
      have hend' : g'.trace = g₁'.trace ++
          (memberRead role (.property receiver'.toIndexable name)).2.trace :=
        (Growth.trace_congr (h := g₁' ++ _) hg').trans (Growth.trace_append ..)
      refine ⟨fun hnone => ?_, fun _ => hatom, ?_, ?_⟩
      · rw [hg'] at hnone
        rw [hg]
        exact hreceiver.emits (List.append_eq_nil_iff.1 hnone).1
      · rw [Growth.trace_congr hg, hend']
        exact subperm_append_right_of hreceiver.early _
      · rw [Growth.trace_congr hg, trace_atom hatom, List.append_nil, hend', List.append_assoc,
          trace_memberRead role hlabel, ← List.append_assoc]
        simp only [trace, trace_toIndexable]
        exact hreceiver.whole.folded hfolded removal_eq_nil_iff hleft

theorem follows_element {object index : Source.Expr} {span : Span} {optional : Bool}
    (hexpanders : facts.expanders.isEmpty = true)
    (hboth : ∀ d ∈ [object, index], Followed facts keep (some .operand) d) :
    Followed facts keep role (.element object index optional span) := by
  intro n n' v v' g g' h h'
  obtain ⟨a, b, g₀, hlow, rfl, hg⟩ := h.element_parts
  obtain ⟨a', b', g₀', hlow', rfl, hg'⟩ := h'.element_parts
  have hindex (a b : Expr) : trace (.index a.toIndexable b) = traceAll [a, b] ++ [] := by
    simp [trace]
  have hmember : Follows facts (asOperands [object, index]) (.index a.toIndexable b) g₀
      (.index a'.toIndexable b') g₀' :=
    (hlow.operands_follow hboth hlow').result (hindex a b) (hindex a' b') fun hatom => by
      cases hatom
  cases hrefused : isRefused facts role (.element object index optional span) with
  | true =>
    rw [elementRead_refused hrefused] at h hg ⊢
    rw [elementRead_refused hrefused] at h' hg' ⊢
    have hread := hmember.congr (hg.trans (List.append_nil _)) (hg'.trans (List.append_nil _))
    exact follows_refused hexpanders hrefused h h' hread.emits hread.early
  | false =>
    rw [elementRead_not_refused hrefused] at hg ⊢
    rw [elementRead_not_refused hrefused] at hg' ⊢
    exact ((hmember.memberRead role rfl).congr hg hg').node hrefused trivial

theorem follows_operator {left right : Source.Expr} {op : Source.Operator} {span : Span}
    (hop : op.isAssignment = false)
    (hboth : ∀ d ∈ [left, right], Followed facts keep (some .operand) d) :
    Followed facts keep role (.binary left op right span) := by
  intro n n' v v' g g' h h'
  obtain ⟨a, b, g₀, hlow, hg, hatom, hv⟩ := h.operator_parts hop
  obtain ⟨a', b', g₀', hlow', hg', hatom', hv'⟩ := h'.operator_parts hop
  have hall : Follows facts (asOperands [left, right]) v g₀ v' g₀' :=
    (hlow.operands_follow hboth hlow').result (by simpa using hv) (by simpa using hv')
      fun hyes => by cases hatom'.symm.trans hyes
  rw [← parts_simple facts role hop left right span] at hall
  exact (hall.congr hg hg').node rfl trivial

/-- The targets of an assignment do what their parts do. -/
theorem matched_target {left : Source.Expr}
    (hparts : ∀ p ∈ memberParts left, Followed facts keep p.1 p.2)
    (h : Lowers (folding facts keep) (.target left) n [v] g)
    (h' : Lowers (unfolding facts keep) (.target left) n' [v'] g') :
    Matched facts (memberParts left) g.trace g'.trace := by
  have htarget := h.target_parts
  have htarget' := h'.target_parts
  rw [memberParts] at hparts ⊢
  cases hunwrap : left.unwrap with
  | property object name nameSpan optional span =>
    rw [hunwrap] at htarget htarget' hparts
    obtain ⟨value, g₀, hlow, htrace⟩ := htarget
    obtain ⟨value', g₀', hlow', htrace'⟩ := htarget'
    rw [htrace, htrace']
    exact (hparts _ List.mem_cons_self hlow hlow').whole
  | element object index optional span =>
    rw [hunwrap] at htarget htarget' hparts
    obtain ⟨a, b, g₀, hlow, htrace⟩ := htarget
    obtain ⟨a', b', g₀', hlow', htrace'⟩ := htarget'
    have hboth := hlow.operands_follow (followed_operands hparts) hlow'
    obtain ⟨ts, ts', hts, hts', hmatched⟩ := hboth.whole
    rw [htrace, htrace', hts, hts']
    exact hmatched
  | name | literal | template | binary | call | delete | wrap =>
    rw [hunwrap] at htarget htarget'
    rw [htarget, htarget']
    exact .same []

theorem follows_assignment {left right : Source.Expr} {op : Source.Operator} {span : Span}
    (hop : op.isAssignment = true)
    (hleft : ∀ p ∈ memberParts left, Followed facts keep p.1 p.2)
    (hright : Followed facts keep (some .operand) right) :
    Followed facts keep role (.binary left op right span) := by
  intro n n' v v' g g' h h'
  obtain ⟨place, value, g₁, g₂, m, htarget, hvalue, hdone, hstmts, hatom, htrace⟩ :=
    h.assignment_parts hop
  obtain ⟨place', value', g₁', g₂', m', htarget', hvalue', hdone', hstmts', hatom', htrace'⟩ :=
    h'.assignment_parts hop
  have hsides := (matched_target hleft htarget htarget').append (hright hvalue hvalue').whole
  have hall : Matched facts (parts facts role (.binary left op right span)) g.trace
      g'.trace := by
    rw [parts_assignment facts role hop, htrace, htrace']
    exact hsides.thenBoth _
  refine ⟨fun hnone => absurd hnone hstmts', fun hyes => hatom.2 (hatom'.1 hyes), hall.sub, ?_⟩
  rw [hdone, hdone', List.append_nil, List.append_nil]
  exact hall.node rfl trivial

theorem follows_call {callee : Source.Expr} {args : List Source.Expr} {span : Span}
    (hexpanders : facts.expanders.isEmpty = true)
    (hparts : ∀ p ∈ parts facts role (.call callee args span), Followed facts keep p.1 p.2) :
    Followed facts keep role (.call callee args span) := by
  intro n n' v v' g g' h h'
  rcases h.call_parts hexpanders with ⟨hnone, rfl, hg⟩ |
    ⟨receiver, value, head, values, g₁, g₂, m, hcons, hlow, hargs, hg, hatom, hv⟩
  · rcases h'.call_parts hexpanders with ⟨-, rfl, hg'⟩ | ⟨_, _, _, _, _, _, _, hcons', -⟩
    · have hrefused : Follows facts [] .placeholder g .placeholder g' := by
        refine ⟨fun _ => hg, fun _ => rfl, ?_, ?_⟩
        · rw [Growth.trace_of_stmts hg]
          exact List.nil_subperm
        · rw [Growth.trace_of_stmts hg, Growth.trace_of_stmts hg']
          exact .same []
      exact Follows.node (hnone ▸ hrefused) rfl trivial
    · cases hnone.symm.trans hcons'
  · rcases h'.call_parts hexpanders with ⟨hnone, -⟩ |
      ⟨receiver', value', head', values', g₁', g₂', m', hcons', hlow', hargs', hg', hatom', hv'⟩
    · cases hcons.symm.trans hnone
    · obtain ⟨rfl, -⟩ := List.cons.inj (hcons.symm.trans hcons')
      change parts facts role (.call callee args span) = [receiver] ++ asOperands args at hcons
      rw [hcons] at hparts
      obtain ⟨hreceiver, hes⟩ := List.forall_mem_cons.1 hparts
      have hrest := hargs.operands_follow (followed_operands hes) hargs'
      have hall := (hreceiver hlow hlow').withArgs hrest hv hv' fun hyes => by
        cases hatom'.symm.trans hyes
      exact Follows.node (hcons ▸ hall.congr hg hg') rfl trivial

/-- A template is an atom with folding if it is one without. -/
theorem isAtom_template {parts : List (Substitution Source.Expr)}
    (hes : ∀ d ∈ parts.map (·.expr), Followed facts keep (some .operand) d)
    {values values' : List Expr}
    (h : Lowers (folding facts keep) (.operands [] (parts.map (·.expr))) n values g)
    (h' : Lowers (unfolding facts keep) (.operands [] (parts.map (·.expr))) n' values' g')
    (head : String) (hatom : (templateValue facts head parts values').isAtom = true) :
    (templateValue facts head parts values).isAtom = true := by
  rw [isAtom_templateValue facts head (by simpa using h.length_values)]
  rw [isAtom_templateValue facts head (by simpa using h'.length_values)] at hatom
  refine isAtomicTemplate_imp ?_ hatom
  rintro part rfl hone
  obtain ⟨value, rfl, hlow⟩ := h.single
  obtain ⟨value', rfl, hlow'⟩ := h'.single
  have hvalue := (hes part.expr List.mem_cons_self hlow hlow').atom (List.cons.inj hone).1
  exact congrArg ([·]) hvalue

theorem conversions_eq_nil_iff {parts : List (Substitution Source.Expr)} {head : String}
    {span : Span} : parts.flatMap (conversion facts) = [] ↔
      converts facts (.template head parts span) = false := by
  simp [converts, conversion, List.flatMap_eq_nil_iff]

/-- A template does what its parts do, and its conversions, the order apart. -/
theorem follows_template {head : String} {parts : List (Substitution Source.Expr)} {span : Span}
    (hes : ∀ d ∈ parts.map (·.expr), Followed facts keep (some .operand) d) :
    Followed facts keep role (.template head parts span) := by
  intro n n' v v' g g' h h'
  have ⟨values, hlow, hv⟩ : ∃ values,
      Lowers (folding facts keep) (.operands [] (parts.map (·.expr))) n values g ∧
        v = templateValue facts head parts values := by
    cases h with
    | template hlow => exact ⟨_, hlow, rfl⟩
  have ⟨values', hlow', hv'⟩ : ∃ values,
      Lowers (unfolding facts keep) (.operands [] (parts.map (·.expr))) n' values g' ∧
        v' = templateValue facts head parts values := by
    cases h' with
    | template hlow => exact ⟨_, hlow, rfl⟩
  have hoperands := hlow.operands_follow hes hlow'
  obtain ⟨ts, ts', hts, hts', hmatched⟩ := hoperands.whole
  obtain ⟨hperm, heq⟩ := trace_templateValue facts head (by simpa using hlow.length_values)
  obtain ⟨hperm', heq'⟩ := trace_templateValue facts head (by simpa using hlow'.length_values)
  rw [← hv] at hperm heq
  rw [← hv'] at hperm' heq'
  have hnode : Matched facts [(role, .template head parts span)]
      (ts ++ parts.flatMap (conversion facts)) (ts' ++ parts.flatMap (conversion facts)) :=
    Matched.node (hmatched.thenBoth _) rfl trivial
  have hall : (g.trace ++ trace v).Perm (ts ++ parts.flatMap (conversion facts)) := by
    have hmoved := hperm.append_left g.trace
    rwa [← List.append_assoc, hts] at hmoved
  have hall' : (g'.trace ++ trace v').Perm (ts' ++ parts.flatMap (conversion facts)) := by
    have hmoved := hperm'.append_left g'.trace
    rwa [← List.append_assoc, hts'] at hmoved
  have hearly := hoperands.early (List.Subperm.refl []) (List.Subperm.refl [])
  refine ⟨hoperands.emits, fun hatom => ?_, hearly,
    hall.subperm.trans (hnode.sub.trans hall'.symm.subperm), ?_, fun hlossless hsteady => ?_⟩
  · rw [hv'] at hatom
    rw [hv]
    exact isAtom_template hes hlow hlow' head hatom
  · rw [← hnode.perm]
    exact ⟨fun hp => hall.symm.trans (hp.trans hall'), fun hp => hall.trans (hp.trans hall'.symm)⟩
  -- Conversions stand between the values, so the traces are only permutations of the traces of the
  -- parts with the conversions at the end, unless there is nothing to convert.
  · cases hconverts : converts facts (.template head parts span) with
    | true =>
      obtain ⟨hearly, hpending⟩ := (hsteady _ List.mem_cons_self).same_trace hconverts h h'
      rw [hearly, hpending]
    | false =>
      have hnone := conversions_eq_nil_iff.2 hconverts
      have hend := hnode.eq hlossless hsteady
      rw [hnone, List.append_nil, List.append_nil] at hend
      rw [heq hnone, heq' hnone, hts, hts', hend]

end

/-- The lowerings of an expression with and without folding are related, by induction along its
parts. -/
theorem followed_of_no_expanders {facts : Facts} (hexpanders : facts.expanders.isEmpty = true)
    (keep : Bool) (role : Option Role) (e : Source.Expr) : Followed facts keep role e := by
  refine parts_induction facts (fun role e ih => ?_) role e
  cases e with
  | name | literal =>
    intro n n' v v' g g' h h'
    cases h
    cases h'
    exact Follows.node ⟨fun _ => rfl, id, .refl _, .same _⟩ rfl trivial
  | template head parts span =>
    exact follows_template (followed_operands ih)
  | binary left op right span =>
    cases hop : op.isAssignment with
    | true =>
      rw [parts_assignment facts role hop] at ih
      obtain ⟨hleft, hright⟩ := List.forall_mem_append.1 ih
      exact follows_assignment hop hleft (hright _ List.mem_cons_self)
    | false =>
      rw [parts_simple facts role hop] at ih
      exact follows_operator hop (followed_operands ih)
  | property object name nameSpan optional span =>
    exact follows_property hexpanders (ih _ List.mem_cons_self)
  | element object index optional span =>
    exact follows_element hexpanders (followed_operands ih)
  | call callee args span => exact follows_call hexpanders ih
  | delete operand span =>
    intro n n' v v' g g' h h'
    cases h with
    | delete _ hlow =>
    cases h' with
    | delete _ hlow' =>
    exact (ih _ List.mem_cons_self hlow hlow').node rfl trivial
  | wrap wrapper inner span =>
    intro n n' v v' g g' h h'
    cases h with
    | wrap hlow =>
    cases h' with
    | wrap hlow' =>
    exact (ih _ List.mem_cons_self hlow hlow').node rfl trivial

/-- Folding adds no effect. It loses none exactly if the expression is lossless, and keeps the order
if the expression is steady besides. -/
theorem folding_loses_exactly {facts : Facts} {keep : Bool} {e : Source.Expr}
    {folded unfolded : Output} (hexpanders : facts.expanders.isEmpty = true)
    (hfolded : lowerAlone (folding facts keep) e = .ok folded)
    (hunfolded : lowerAlone (unfolding facts keep) e = .ok unfolded) :
    folded.trace.Subperm unfolded.trace ∧
      (folded.trace.Perm unfolded.trace ↔ Lossless facts (some .operand) e) ∧
      (Lossless facts (some .operand) e → Steady facts (some .operand) e →
        folded.trace = unfolded.trace) := by
  obtain ⟨v, g, h, rfl⟩ := lowerAlone_eq_ok_iff.1 hfolded
  obtain ⟨v', g', h', rfl⟩ := lowerAlone_eq_ok_iff.1 hunfolded
  have hwhole := (followed_of_no_expanders hexpanders keep _ e h h').whole
  refine ⟨hwhole.sub, hwhole.perm.trans List.forall_mem_singleton, fun hlossless hsteady => ?_⟩
  exact hwhole.eq (List.forall_mem_singleton.2 hlossless) (List.forall_mem_singleton.2 hsteady)

-- In the template with the substitutions `a` and `h() + y.c?.d`, where `c` is a constant, nothing
-- is lost, but the first value is converted before `h` is called only if the constant is folded:
-- otherwise `y.c` is saved, and the result of the call with it.
example :
    let facts := Facts.empty.withConstant (.point 1 5) (.text "k")
    let chain : Source.Expr := .property (.property (.name "y" (.point 1 4)) "c" (.point 1 6) false
      (.point 1 5)) "d" (.point 1 8) true (.point 1 7)
    let e : Source.Expr := .template "" [⟨.name "a" (.point 1 1), "", .point 1 11⟩,
      ⟨.binary (.call (.name "h" (.point 1 2)) [] (.point 1 3)) (.calculation (.arithmetic .add))
        chain (.point 1 9), "", .point 1 12⟩] (.point 1 10)
    (lowerAlone (folding facts true) e).map Output.trace = .ok [.call 1, .call 0, .call 1] ∧
      (lowerAlone (unfolding facts true) e).map Output.trace = .ok [.call 0, .call 1, .call 1] :=
  ⟨rfl, rfl⟩

/-- In `g(f()?.B, x = 1)`, where `B` is a constant, the object is saved before it is dropped.
Without folding the member is saved too, and the calls and the write come in the same order. -/
theorem folding_behind_optional_access :
    let facts := Facts.empty.withConstant ⟨1, 6, 2⟩ (.text "k")
    let e : Source.Expr := .call (.name "g" ⟨1, 1, 1⟩)
      [.property (.call (.name "f" ⟨1, 2, 1⟩) [] ⟨1, 3, 2⟩) "B" ⟨1, 5, 1⟩ true ⟨1, 6, 2⟩,
        .binary (.name "x" ⟨1, 8, 1⟩) .assign (.literal (.number "1") ⟨1, 9, 1⟩) ⟨1, 10, 1⟩]
      ⟨1, 11, 2⟩
    let object : Expr := .call (.name "f") []
    let write : Stmt := .assign (.name "x") .set (.number "1")
    let folded : Output := ⟨[.declare ⟨1⟩ (.name "g"), .declare ⟨0⟩ object, write],
      .call (.temp ⟨1⟩) [.string "k", .number "1"], [], 0, 1⟩
    let unfolded : Output := ⟨[.declare ⟨1⟩ (.name "g"), .declare ⟨0⟩ object,
      .declare ⟨2⟩ (.property (.temp ⟨0⟩) "B"), write],
      .call (.temp ⟨1⟩) [.temp ⟨2⟩, .number "1"], [], 0, 1⟩
    (lowerAlone (folding facts true) e = .ok folded ∧
      lowerAlone (unfolding facts true) e = .ok unfolded) ∧
      (Lossless facts (some .operand) e ∧ Steady facts (some .operand) e) ∧
      folded.trace = [.call 0, .write (.variable "x"), .call 2] ∧
      folded.trace = unfolded.trace := by
  intro facts e object write folded unfolded
  have hfolded : lowerAlone (folding facts true) e = .ok folded := by
    simp only [facts, e, folded, object, write]
    rfl
  have hunfolded : lowerAlone (unfolding facts true) e = .ok unfolded := by
    simp only [facts, e, unfolded, object, write]
    rfl
  have hsteady : Steady facts (some .operand) e := by
    have hplain (text : String) (span : Span) : callForm facts (.name text span) = .plain := rfl
    have hread : ((facts.typeOf (.call (.name "f" ⟨1, 2, 1⟩) [] ⟨1, 3, 2⟩)).isAny = false ∧
        facts.expanderAt? ⟨1, 6, 2⟩ = none) ∧ facts.isMethodAt ⟨1, 6, 2⟩ = false := by
      simp only [facts]
      decide
    have hnone : ∀ v ∈ visits facts (some .operand) e,
        (isRefused facts v.1 v.2 || converts facts v.2) = false := by
      simpa [e, visits_eq, parts, hplain, memberParts, asOperands, Source.Expr.unwrap,
        Source.Operator.isAssignment, isRefused, converts] using hread
    intro v hv hmixed
    cases (hnone v hv).symm.trans hmixed
  obtain ⟨-, hperm, heq⟩ := folding_loses_exactly rfl hfolded hunfolded
  have hlossless : Lossless facts (some .operand) e := hperm.1 (List.Perm.refl _)
  exact ⟨⟨hfolded, hunfolded⟩, ⟨hlossless, hsteady⟩, rfl, heq hlossless hsteady⟩

/-- Folding drops the call in `f().x` and the removal in `delete a.B`, where `x` and `B` are
constants. -/
theorem folding_drops_call_and_removal :
    (let facts := Facts.empty.withConstant ⟨1, 5, 2⟩ (.text "k")
      let e : Source.Expr :=
        .property (.call (.name "f" ⟨1, 1, 1⟩) [] ⟨1, 2, 2⟩) "x" ⟨1, 4, 1⟩ false ⟨1, 5, 2⟩
      let folded : Output := ⟨[], .string "k", [], 0, 0⟩
      let unfolded : Output := ⟨[], .property (.call (.name "f") []) "x", [], 0, 0⟩
      lowerAlone (folding facts true) e = .ok folded ∧
        lowerAlone (unfolding facts true) e = .ok unfolded ∧
        folded.trace = [] ∧ unfolded.trace = [.call 0]) ∧
    (let facts := Facts.empty.withConstant ⟨1, 3, 2⟩ (.text "k")
      let e : Source.Expr :=
        .delete (.property (.name "a" ⟨1, 1, 1⟩) "B" ⟨1, 2, 1⟩ false ⟨1, 3, 2⟩) ⟨1, 5, 6⟩
      let folded : Output := ⟨[], .string "k", [], 0, 0⟩
      let unfolded : Output := ⟨[.assign (.property (.name "a") "B") .set .nil], .nil, [], 0, 0⟩
      lowerAlone (folding facts true) e = .ok folded ∧
        lowerAlone (unfolding facts true) e = .ok unfolded ∧
        folded.trace = [] ∧ unfolded.trace = [.write (.property "B")]) :=
  ⟨⟨rfl, rfl, rfl, rfl⟩, rfl, rfl, rfl, rfl⟩

end ExprLowering.Lowering
