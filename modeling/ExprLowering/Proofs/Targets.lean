import ExprLowering.Proofs.Pending

/-!
# Targets of assignments

The object and the key in the target of an assignment are atoms: they were saved unless they were
atoms before. So the target stands for the place that was found first until a name in it changes.

## Main definitions

* `Unmoved`: the names that are left in a target have the values that they have in a place.
* `Points`: a target stands for a place exactly as long as its names are unmoved.

## Main results

* `points_property`, `points_element`: what targets point to after their statements.
* `Lowers.temps_target_kept`: the right side leaves the temporaries of a target alone.
-/

namespace ExprLowering.Lowering

open Target

variable {V W : Type}

/-- The object and the key in a target, with the values that they have in a place. -/
def operandsAt : Expr → Place V → List (Expr × V)
  | .property object _, .member a _ => [(object, a)]
  | .index object key, .member a (.value b) => [(object, a), (key, b)]
  | _, _ => []

/-- The names that are left in a target have the values that they have in a place. -/
def Unmoved (I : Interp V W) (target : Expr) (place : Place V) (s : Store V W) : Prop :=
  ∀ x v, (.name x, v) ∈ operandsAt target place → I.lookup x s = v

/-- An atom has the value that it had before exactly if it is no name or the name has it. -/
theorem eval_atom_iff {e : Expr} (h : e.isAtom = true) (I : Interp V W) {τ σ : Nat → V}
    {s u : Store V W} {v : V} (htemps : ∀ t ∈ e.temps, σ t = τ t) (hv : (eval I τ e s).1 = v) :
    (eval I σ e u).1 = v ↔ ∀ x, e = .name x → I.lookup x u = v := by
  subst hv
  constructor
  · rintro heq x rfl
    exact heq
  · intro hnames
    cases e with
    | name x => exact hnames x rfl
    | temp t => simp only [eval, htemps t.id List.mem_cons_self]
    | nil | bool | number | string => rfl
    | binary | property | index | call | method | paren => cases h

theorem toIndexable_eq_name {e : Expr} {x : String} : e.toIndexable = .name x ↔ e = .name x := by
  cases e <;> simp [Expr.toIndexable, Expr.isIndexable]

/-- From a machine on, a target stands for a place exactly as long as its names are unmoved. -/
def Points (I : Interp V W) (target : Expr) (place : Place V) (m : Machine V W) : Prop :=
  ∀ τ s, (∀ t ∈ target.temps, τ t = m.temps t) → (placeOf I τ target s).2 = s ∧
    ((placeOf I τ target s).1 = place ↔ Unmoved I target place s)

theorem Points.placeOf_eq {I : Interp V W} {target : Expr} {place : Place V} {m : Machine V W}
    (h : Points I target place m) {τ : Nat → V} {s : Store V W}
    (htemps : ∀ t ∈ target.temps, τ t = m.temps t) (hunmoved : Unmoved I target place s) :
    placeOf I τ target s = (place, s) :=
  Prod.ext ((h τ s htemps).2.2 hunmoved) (h τ s htemps).1

theorem unmoved_property {I : Interp V W} {object : Expr} {name : String} {v : V} {key : Key V}
    {s : Store V W} :
    Unmoved I (.property object.toIndexable name) (.member v key) s ↔
      ∀ x, object = .name x → I.lookup x s = v := by
  simp only [Unmoved, operandsAt, List.mem_singleton, Prod.mk.injEq]
  constructor
  · intro hnames x hx
    exact hnames x _ ⟨(toIndexable_eq_name.2 hx).symm, rfl⟩
  · rintro hnames x v ⟨hx, rfl⟩
    exact hnames x (toIndexable_eq_name.1 hx.symm)

theorem unmoved_index {I : Interp V W} {object key : Expr} {v w : V} {s : Store V W} :
    Unmoved I (.index object.toIndexable key) (.member v (.value w)) s ↔
      (∀ x, object = .name x → I.lookup x s = v) ∧ ∀ x, key = .name x → I.lookup x s = w := by
  simp only [Unmoved, operandsAt, List.mem_cons, List.not_mem_nil, or_false, Prod.mk.injEq]
  constructor
  · intro hnames
    refine ⟨fun x hx => hnames x _ (.inl ⟨(toIndexable_eq_name.2 hx).symm, rfl⟩), fun x hx => ?_⟩
    exact hnames x _ (.inr ⟨hx.symm, rfl⟩)
  · rintro ⟨hobject, hkey⟩ x v (⟨hx, rfl⟩ | ⟨hx, rfl⟩)
    · exact hobject x (toIndexable_eq_name.1 hx.symm)
    · exact hkey x hx.symm

/-- A property whose object was saved. -/
theorem points_property (I : Interp V W) (n : Nat) (value : Expr) (name : String)
    (m : Machine V W) :
    (execAll I (saved n value).2.stmts m).store = (eval I m.temps value m.store).2 ∧
      Points I (.property (saved n value).1.toIndexable name)
        (.member (eval I m.temps value m.store).1 (.name name))
        (execAll I (saved n value).2.stmts m) := by
  obtain ⟨hstore, hsaved⟩ := exec_saved I n value m
  refine ⟨hstore, fun τ s htemps => ?_⟩
  rw [Expr.temps, Expr.temps_toIndexable] at htemps
  have hatom := saved_isAtom n value
  have hiff := eval_atom_iff hatom I (u := s) htemps (congrArg Prod.fst hsaved)
  simp only [placeOf, eval_toIndexable, eval_atom hatom, Place.member.injEq, and_true, hiff,
    unmoved_property]

/-- An element whose object and key were saved, in this order. -/
theorem points_element (I : Interp V W) {n : Nat} {a b : Expr} (ha : ∀ t ∈ a.temps, t < n)
    (hb : ∀ t ∈ b.temps, t < n) (m : Machine V W) :
    let first := eval I m.temps a m.store
    let second := eval I m.temps b first.2
    let last := execAll I (saved (n + (saved n a).2.temps) b).2.stmts
      (execAll I (saved n a).2.stmts m)
    last.store = second.2 ∧
      Points I (.index (saved n a).1.toIndexable (saved (n + (saved n a).2.temps) b).1)
        (.member first.1 (.value second.1)) last := by
  obtain ⟨-, hsaved⟩ := exec_saved I n a m
  obtain ⟨hstore, hsaved', hkept⟩ := exec_saved_saved I ha hb m
  refine ⟨hstore, fun τ s htemps => ?_⟩
  have hatomA := saved_isAtom n a
  have hatomB := saved_isAtom (n + (saved n a).2.temps) b
  have htempsA : ∀ t ∈ (saved n a).1.temps, τ t =
      (execAll I (saved n a).2.stmts m).temps t := by
    intro t ht
    rw [htemps t (by simp [Expr.temps, ht]), hkept t ht]
  have htempsB := fun t ht => htemps t (List.mem_append_right _ ht)
  have hiffA := eval_atom_iff hatomA I (u := s) htempsA (congrArg Prod.fst hsaved)
  have hiffB := eval_atom_iff hatomB I (u := s) htempsB (congrArg Prod.fst hsaved')
  simp only [placeOf, eval_toIndexable, eval_atom hatomA, eval_atom hatomB, Place.member.injEq,
    Key.value.injEq, true_and, hiffA, hiffB, unmoved_index]

/-- The temporaries of a target keep their values while the right side runs and is saved. -/
theorem Lowers.temps_target_kept {ctx : Context} {left right : Source.Expr} {n : Nat}
    {place value : Expr} {g₁ g₂ : Growth} (htarget : Lowers ctx (.target left) n [place] g₁)
    (hvalue : Lowers ctx (.expr (some .operand) right) (n + g₁.temps) [value] g₂)
    (I : Interp V W) (m : Machine V W) {t : Nat} (ht : t ∈ place.temps) :
    (execAll I g₂.stmts m).temps t = m.temps t ∧
      (execAll I (saved (n + (g₁ ++ g₂).temps) value).2.stmts (execAll I g₂.stmts m)).temps t =
        m.temps t := by
  have htidy₁ := htarget.tidy Tidy.nil_lt
  have htidy₂ := hvalue.tidy Tidy.nil_lt
  have htidy₃ : Tidy _ (n + (g₁ ++ g₂).temps) _ _ :=
    .ofSaved (List.Subset.refl value.temps) fun u hu => by
      have := htidy₂.lt_of_mem Tidy.nil_lt (htidy₂.values_subset (by simpa using hu))
      simpa [Nat.add_assoc] using this
  have hlt := htidy₁.lt_of_mem Tidy.nil_lt (htidy₁.values_subset (by simpa using ht))
  have hright := htidy₂.temps_execAll I m hlt
  refine ⟨hright, ?_⟩
  rw [htidy₃.temps_execAll I _ (by simp; omega), hright]

end ExprLowering.Lowering
