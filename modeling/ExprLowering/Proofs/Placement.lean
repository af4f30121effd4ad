import ExprLowering.Proofs.Uses
import ExprLowering.Source.Outline
import Mathlib.Data.List.Forall2

/-!
# Nodes on columns of their own

Nodes are built on one line, each of them after its parts and on the next free columns, so no two of
them share a column. What is filed under the span of a node is therefore known of this node only,
and it is found again after all nodes are built.

## Main definitions

* `Piece`, `Piece.build`: a node to build from parts that are there already.
* `layOut`: the spans of texts one after the other.
* `Outline.Answered`: the facts say of a node what is noted in its outline.

## Main results

* `ownSpans_run_mapM_build`: nodes that are built one after the other are laid out so.
* `Outline.place_eq_build`: an outline is placed by building its nodes and filing their notes.
* `Outline.Settles.node`: placing a node keeps what is known of others and finds its own note again.
* `built_nodes_share_no_span`: no column is used twice, and every note is found again.
-/

namespace ExprLowering

/-- All that the facts say about a span. -/
def Facts.known (facts : Facts) (span : Span) : StaticType × Option Constant × Bool :=
  (facts.typeAt span, facts.constantAt? span, facts.isMethodAt span)

end ExprLowering

namespace ExprLowering.Source

-- ════════════════════════════════════════════════════════════════════════
-- Columns of a line
-- ════════════════════════════════════════════════════════════════════════

/-- The spans of texts with the given lengths, one after the other from a column on. Every text
takes at least one column. -/
def layOut (column : Nat) : List Nat → List Span
  | [] => []
  | n :: ns => ⟨1, column, max 1 n⟩ :: layOut (column + max 1 n) ns

/-- How many columns texts with the given lengths take. -/
def columns : List Nat → Nat
  | [] => 0
  | n :: ns => max 1 n + columns ns

theorem columns_append (ms ns : List Nat) : columns (ms ++ ns) = columns ms + columns ns := by
  induction ms with
  | nil => exact (Nat.zero_add _).symm
  | cons m ms ih => rw [List.cons_append, columns, columns, ih, Nat.add_assoc]

theorem layOut_append (column : Nat) (ms ns : List Nat) :
    layOut column (ms ++ ns) = layOut column ms ++ layOut (column + columns ms) ns := by
  induction ms generalizing column with
  | nil => rfl
  | cons m ms ih =>
    rw [List.cons_append, layOut, ih, columns, Nat.add_assoc]
    rfl

theorem bounds_of_mem_layOut {column : Nat} {ns : List Nat} {span : Span}
    (h : span ∈ layOut column ns) :
    span.line = 1 ∧ 0 < span.length ∧ column ≤ span.column ∧
      span.stop ≤ column + columns ns := by
  induction ns generalizing column with
  | nil => cases h
  | cons n ns ih =>
    rw [columns]
    rcases List.mem_cons.1 h with rfl | hrest
    · refine ⟨rfl, ?_, Nat.le_refl _, ?_⟩
      · show 0 < max 1 n
        omega
      · show column + max 1 n ≤ column + (max 1 n + columns ns)
        omega
    · obtain ⟨hline, hlength, hcolumn, hstop⟩ := ih hrest
      exact ⟨hline, hlength, by omega, by omega⟩

theorem pairwise_layOut (column : Nat) (ns : List Nat) :
    (layOut column ns).Pairwise fun a b => a.stop ≤ b.column := by
  induction ns generalizing column with
  | nil => exact List.Pairwise.nil
  | cons n ns ih => exact List.pairwise_cons.2 ⟨fun b hb => (bounds_of_mem_layOut hb).2.2.1, ih _⟩

-- ════════════════════════════════════════════════════════════════════════
-- Building nodes
-- ════════════════════════════════════════════════════════════════════════

/-- A node to build from parts that are there already. -/
inductive Piece where
  | name (text : String)
  | literal (value : Literal)
  | template (head : String) (parts : List (Expr × String))
  | binary (left : Expr) (op : Operator) (right : Expr)
  | property (object : Expr) (name : String) (optional : Bool)
  | element (object index : Expr) (optional : Bool)
  | call (callee : Expr) (args : List Expr)
  | delete (operand : Expr)
  | wrap (wrapper : Wrapper) (inner : Expr)

namespace Piece

/-- Builds a node. A member name and the texts of a template take their columns before it. -/
def build : Piece → PlaceM Expr
  | name text => return .name text (← takeSpan text.utf8ByteSize)
  | literal value => return .literal value (← takeSpan value.length)
  | template head parts => do
    let parts ← placeTexts parts
    return .template head parts (← takeSpan (head.utf8ByteSize + 2))
  | binary left op right => return .binary left op right (← takeSpan op.token.utf8ByteSize)
  | property object label optional => do
    let own ← takeSpan label.utf8ByteSize
    return .property object label own optional (← takeSpan (own.length + 1))
  | element object index optional => return .element object index optional (← takeSpan 2)
  | call callee args => return .call callee args (← takeSpan 2)
  | delete operand => return .delete operand (← takeSpan 6)
  | wrap wrapper inner => return .wrap wrapper inner (← takeSpan wrapper.length)

/-- The lengths of the texts for which building asks, in order. -/
def lengths : Piece → List Nat
  | name text => [text.utf8ByteSize]
  | literal value => [value.length]
  | template head parts => parts.map (·.2.utf8ByteSize + 3) ++ [head.utf8ByteSize + 2]
  | binary _ op _ => [op.token.utf8ByteSize]
  | property _ label _ => [label.utf8ByteSize, max 1 label.utf8ByteSize + 1]
  | element .. | call .. => [2]
  | delete _ => [6]
  | wrap wrapper _ => [wrapper.length]

/-- The parts of a node. -/
def parts : Piece → List Expr
  | name _ | literal _ => []
  | template _ parts => parts.map Prod.fst
  | binary left _ right => [left, right]
  | property object _ _ => [object]
  | element object index _ => [object, index]
  | call callee args => callee :: args
  | delete operand => [operand]
  | wrap _ inner => [inner]

end Piece

/-- The spans that belong to a node itself, in the order in which they are taken. -/
def Expr.ownSpans : Expr → List Span
  | .template _ parts span => parts.map (·.span) ++ [span]
  | .property _ _ nameSpan _ span => [nameSpan, span]
  | e => [e.span]

theorem Expr.span_mem_ownSpans (e : Expr) : e.span ∈ e.ownSpans := by
  cases e with
  | template => exact List.mem_append_right _ List.mem_cons_self
  | property => exact List.mem_cons_of_mem _ List.mem_cons_self
  | name | literal | binary | element | call | delete | wrap => exact List.mem_cons_self

/-- The same layout with some columns taken. -/
def Layout.advance (l : Layout) (n : Nat) : Layout := { l with column := l.column + n }

theorem Layout.advance_advance (l : Layout) (m n : Nat) :
    (l.advance m).advance n = l.advance (m + n) := by
  simp [Layout.advance, Nat.add_assoc]

theorem run_placeTexts (parts : List (Expr × String)) (l : Layout) :
    ((placeTexts parts).run l).2 = l.advance (columns (parts.map (·.2.utf8ByteSize + 3))) ∧
      ((placeTexts parts).run l).1.map (·.span) =
        layOut l.column (parts.map (·.2.utf8ByteSize + 3)) := by
  induction parts generalizing l with
  | nil => exact ⟨rfl, rfl⟩
  | cons part parts ih =>
    obtain ⟨e, text⟩ := part
    obtain ⟨hlayout, hspans⟩ := ih (l.advance (max 1 (text.utf8ByteSize + 3)))
    constructor
    · rw [List.map_cons, columns, ← Layout.advance_advance]
      exact hlayout
    · rw [List.map_cons, layOut]
      exact congrArg _ hspans

theorem exprs_placeTexts (parts : List (Expr × String)) (l : Layout) :
    ((placeTexts parts).run l).1.map (·.expr) = parts.map Prod.fst := by
  induction parts generalizing l with
  | nil => rfl
  | cons part parts ih => exact congrArg (part.1 :: ·) (ih _)

theorem texts_placeTexts (parts : List (Expr × String)) (l : Layout) :
    ((placeTexts parts).run l).1.map (·.text) = parts.map Prod.snd := by
  induction parts generalizing l with
  | nil => rfl
  | cons part parts ih => exact congrArg (part.2 :: ·) (ih _)

theorem run_build (p : Piece) (l : Layout) :
    (p.build.run l).2 = l.advance (columns p.lengths) ∧
      (p.build.run l).1.ownSpans = layOut l.column p.lengths := by
  cases p with
  | name | literal | binary | element | call | delete | wrap => exact ⟨rfl, rfl⟩
  | property object label optional =>
    refine ⟨?_, rfl⟩
    rw [Piece.lengths, columns, ← Layout.advance_advance]
    rfl
  | template head parts =>
    obtain ⟨hlayout, hspans⟩ := run_placeTexts parts l
    constructor
    · rw [Piece.lengths, columns_append, ← Layout.advance_advance, ← hlayout]
      rfl
    · show ((placeTexts parts).run l).1.map (·.span) ++
        [(⟨1, ((placeTexts parts).run l).2.column, _⟩ : Span)] = _
      rw [Piece.lengths, layOut_append, hspans, hlayout]
      rfl

theorem children_build (p : Piece) (l : Layout) : (p.build.run l).1.children = p.parts := by
  cases p with
  | template head parts => exact exprs_placeTexts parts l
  | name | literal | binary | property | element | call | delete | wrap => rfl

/-- Nodes that are built one after the other are laid out from left to right. -/
theorem ownSpans_run_mapM_build (pieces : List Piece) (l : Layout) :
    ((pieces.mapM Piece.build).run l).2 = l.advance (columns (pieces.flatMap Piece.lengths)) ∧
      ((pieces.mapM Piece.build).run l).1.flatMap Expr.ownSpans =
        layOut l.column (pieces.flatMap Piece.lengths) := by
  induction pieces generalizing l with
  | nil => exact ⟨rfl, rfl⟩
  | cons p pieces ih =>
    obtain ⟨hlayout, hspans⟩ := run_build p l
    obtain ⟨hlayouts, hspanss⟩ := ih (p.build.run l).2
    have hrun : ((p :: pieces).mapM Piece.build).run l =
        ((p.build.run l).1 :: ((pieces.mapM Piece.build).run (p.build.run l).2).1,
          ((pieces.mapM Piece.build).run (p.build.run l).2).2) := by
      rw [List.mapM_cons]
      rfl
    rw [hrun, List.flatMap_cons, List.flatMap_cons, columns_append, layOut_append]
    constructor
    · rw [hlayouts, hlayout, Layout.advance_advance]
    · rw [hspanss, hspans, hlayout]
      rfl

-- ════════════════════════════════════════════════════════════════════════
-- What is known at a span
-- ════════════════════════════════════════════════════════════════════════

/-- All that a note says about a node, with the defaults where it says nothing. -/
def Note.known (note : Note) : StaticType × Option Constant × Bool :=
  (note.type.getD (.ofTags .object), note.constant, note.isMethod)

theorem typeAt_file (note : Note) (span query : Span) (facts : Facts) :
    (note.file span facts).typeAt query =
      if query = span then note.type.getD (facts.typeAt query) else facts.typeAt query := by
  obtain ⟨_, type, constant, isMethod⟩ := note
  have hrest : (Note.file ⟨none, type, constant, isMethod⟩ span facts).typeAt query =
      (Note.file ⟨none, type, none, false⟩ span facts).typeAt query := by
    cases constant <;> cases isMethod <;> rfl
  refine hrest.trans ?_
  cases type with
  | none => exact (ite_self _).symm
  | some type => exact Facts.typeAt_withType facts span query type

theorem constantAt?_file (note : Note) (span query : Span) (facts : Facts) :
    (note.file span facts).constantAt? query =
      if query = span then note.constant <|> facts.constantAt? query
      else facts.constantAt? query := by
  obtain ⟨_, type, constant, isMethod⟩ := note
  have hrest : (Note.file ⟨none, type, constant, isMethod⟩ span facts).constantAt? query =
      (Note.file ⟨none, none, constant, false⟩ span facts).constantAt? query := by
    cases type <;> cases constant <;> cases isMethod <;> rfl
  refine hrest.trans ?_
  cases constant with
  | none => exact (ite_self _).symm
  | some value => exact Facts.constantAt?_withConstant facts span query value

theorem isMethodAt_file (note : Note) (span query : Span) (facts : Facts) :
    (note.file span facts).isMethodAt query =
      if query = span then note.isMethod || facts.isMethodAt query
      else facts.isMethodAt query := by
  obtain ⟨_, type, constant, isMethod⟩ := note
  have hrest : (Note.file ⟨none, type, constant, isMethod⟩ span facts).isMethodAt query =
      (Note.file ⟨none, none, none, isMethod⟩ span facts).isMethodAt query := by
    cases type <;> cases constant <;> cases isMethod <;> rfl
  refine hrest.trans ?_
  cases isMethod with
  | false => exact (ite_self _).symm
  | true =>
    show (facts.withMethod span).isMethodAt query = _
    rw [Facts.isMethodAt_withMethod]
    by_cases h : query = span
    · simp [h]
    · simp [h]

/-- A note that is filed where nothing was known is found there, and the rest stays. -/
theorem Note.known_file (note : Note) {span : Span} {facts : Facts}
    (h : facts.known span = Note.empty.known) (query : Span) :
    (note.file span facts).known query =
      if query = span then note.known else facts.known query := by
  rw [Facts.known, typeAt_file, constantAt?_file, isMethodAt_file]
  by_cases hquery : query = span
  · subst hquery
    simp only [Facts.known, Note.known, Note.empty, Prod.mk.injEq] at h ⊢
    simp [h]
  · simp [Facts.known, hquery]

-- ════════════════════════════════════════════════════════════════════════
-- Outlines
-- ════════════════════════════════════════════════════════════════════════

namespace Outline

/-- The note on a node. -/
def note : Outline → Note
  | name _ note => note
  | literal _ note => note
  | template _ _ note => note
  | binary _ _ _ note => note
  | property _ _ _ _ note => note
  | element _ _ _ note => note
  | call _ _ note => note
  | delete _ note => note
  | wrap _ _ note => note

/-- The outline inside all wrappers. -/
def unwrap : Outline → Outline
  | wrap _ inner _ => unwrap inner
  | o => o

/-- Whether a node or its member name has a span other than the one taken for it. -/
def isMoved : Outline → Bool
  | property _ _ nameSpan _ note => nameSpan.isSome || note.span.isSome
  | o => o.note.span.isSome

/-- The outlines directly inside an outline. -/
def children : Outline → List Outline
  | name .. | literal .. => []
  | template _ parts _ => parts.map Prod.fst
  | binary left _ right _ => [left, right]
  | property object _ _ _ _ => [object]
  | element object index _ _ => [object, index]
  | call callee args _ => callee :: args
  | delete operand _ => [operand]
  | wrap _ inner _ => [inner]

mutual

/-- An outline and all outlines inside it. -/
def nodes : Outline → List Outline
  | name text note => [name text note]
  | literal value note => [literal value note]
  | template head parts note => template head parts note :: partNodes parts
  | binary left op right note => binary left op right note :: (left.nodes ++ right.nodes)
  | property object label nameSpan optional note =>
    property object label nameSpan optional note :: object.nodes
  | element object index optional note =>
    element object index optional note :: (object.nodes ++ index.nodes)
  | call callee args note => call callee args note :: (callee.nodes ++ nodesAll args)
  | delete operand note => delete operand note :: operand.nodes
  | wrap wrapper inner note => wrap wrapper inner note :: inner.nodes

/-- All outlines inside the outlines of a list, and these themselves. -/
def nodesAll : List Outline → List Outline
  | [] => []
  | o :: os => o.nodes ++ nodesAll os

/-- The same for the substitutions of a template. -/
def partNodes : List (Outline × String) → List Outline
  | [] => []
  | (o, _) :: parts => o.nodes ++ partNodes parts

end

theorem nodesAll_eq (os : List Outline) : nodesAll os = os.flatMap nodes := by
  induction os with
  | nil => rfl
  | cons o os ih => rw [nodesAll, ih, List.flatMap_cons]

theorem partNodes_eq (parts : List (Outline × String)) :
    partNodes parts = (parts.map Prod.fst).flatMap nodes := by
  induction parts with
  | nil => rfl
  | cons part parts ih => rw [partNodes, ih]; rfl

theorem nodes_eq (o : Outline) : o.nodes = o :: o.children.flatMap nodes := by
  cases o with
  | template head parts note => rw [nodes, partNodes_eq, children]
  | call callee args note => rw [nodes, nodesAll_eq, children, List.flatMap_cons]
  | name | literal | binary | property | element | delete | wrap => simp [nodes, children]

theorem sizeOf_lt_of_mem_children {o child : Outline} (h : child ∈ o.children) :
    sizeOf child < sizeOf o := by
  cases o with
  | template head parts note =>
    obtain ⟨⟨e, text⟩, hpart, rfl⟩ := List.mem_map.1 h
    have := List.sizeOf_lt_of_mem hpart
    simp at this ⊢
    omega
  | call callee args note =>
    rcases List.mem_cons.1 h with rfl | harg
    · simp
      omega
    · have := List.sizeOf_lt_of_mem harg
      simp
      omega
  | name | literal => cases h
  | binary | property | element | delete | wrap =>
    simp [children] at h ⊢
    grind

/-- Induction on outlines: what holds of an outline if it holds of those directly inside it holds
of all. -/
@[elab_as_elim]
theorem child_induction {motive : Outline → Prop}
    (h : ∀ o, (∀ child ∈ o.children, motive child) → motive o) (o : Outline) : motive o :=
  h o fun child hchild =>
    have := sizeOf_lt_of_mem_children hchild
    child_induction h child
termination_by sizeOf o

/-- The node that an outline asks for, after its parts are placed. -/
def piece : Outline → PlaceM Piece
  | name text _ => return .name text
  | literal value _ => return .literal value
  | template head parts _ => return .template head (← placeParts parts)
  | binary left op right _ => return .binary (← left.place) op (← right.place)
  | property object label _ optional _ => return .property (← object.place) label optional
  | element object index optional _ => return .element (← object.place) (← index.place) optional
  | call callee args _ => return .call (← callee.place) (← placeAll args)
  | delete operand _ => return .delete (← operand.place)
  | wrap wrapper inner _ => return .wrap wrapper (← inner.place)

/-- An outline is placed by building its node after its parts and filing its note. -/
theorem place_eq_build {o : Outline} (h : o.isMoved = false) :
    o.place = do
      let p ← o.piece
      let e ← p.build
      modify fun l => { l with facts := o.note.file e.span l.facts }
      return e := by
  cases o with
  | property object label nameSpan optional note =>
    obtain ⟨_ | span, type, constant, isMethod⟩ := note
    · cases nameSpan with
      | none => rfl
      | some nameSpan => cases h
    · simp [isMoved] at h
  | name _ note | literal _ note | template _ _ note | binary _ _ _ note | element _ _ _ note
  | call _ _ note | delete _ note | wrap _ _ note =>
    obtain ⟨_ | span, type, constant, isMethod⟩ := note
    · rfl
    · cases h

theorem placeParts_eq (parts : List (Outline × String)) :
    (List.map Prod.fst <$> placeParts parts) = placeAll (parts.map Prod.fst) := by
  induction parts with
  | nil => rfl
  | cons part parts ih =>
    obtain ⟨o, text⟩ := part
    rw [List.map_cons, placeAll, ← ih]
    rfl

/-- The parts of a node are placed from left to right. -/
theorem parts_piece (o : Outline) : Piece.parts <$> o.piece = placeAll o.children := by
  cases o with
  | template head parts note => exact placeParts_eq parts
  | name | literal | binary | property | element | call | delete | wrap => rfl

/-- The expression is the node that the outline asks for, whatever its parts are. -/
def Fits : Outline → Expr → Prop
  | name text _, .name text' _ => text = text'
  | literal value _, .literal value' _ => value = value'
  | template head parts _, .template head' parts' _ =>
    head = head' ∧ parts.map Prod.snd = parts'.map (·.text)
  | binary _ op _ _, .binary _ op' _ _ => op = op'
  | property _ label _ optional _, .property _ label' _ optional' _ =>
    label = label' ∧ optional = optional'
  | element _ _ optional _, .element _ _ optional' _ => optional = optional'
  | call _ args _, .call _ args' _ => args.length = args'.length
  | delete .., .delete .. => True
  | wrap wrapper .., .wrap wrapper' .. => wrapper = wrapper'
  | _, _ => False

theorem length_placeAll (os : List Outline) (l : Layout) :
    ((placeAll os).run l).1.length = os.length := by
  induction os generalizing l with
  | nil => rfl
  | cons o os ih => exact congrArg (· + 1) (ih (o.place.run l).2)

theorem texts_placeParts (parts : List (Outline × String)) (l : Layout) :
    ((placeParts parts).run l).1.map Prod.snd = parts.map Prod.snd := by
  induction parts generalizing l with
  | nil => rfl
  | cons part parts ih => exact congrArg (part.2 :: ·) (ih (part.1.place.run l).2)

theorem fits_build (o : Outline) (l l' : Layout) : o.Fits ((o.piece.run l).1.build.run l').1 := by
  cases o with
  | template head parts note =>
    refine ⟨rfl, ?_⟩
    rw [← texts_placeParts parts l]
    exact (texts_placeTexts _ l').symm
  | call callee args note => exact (length_placeAll args (callee.place.run l).2).symm
  | property => exact ⟨rfl, rfl⟩
  | delete => trivial
  | name | literal | binary | element | wrap => rfl

/-- Wrappers are looked through in the outline as in the expression. -/
theorem Fits.unwrap {o : Outline} {e : Expr} (h : o.Fits e) :
    (o.unwrap = o ∧ e.unwrap = e) ∨
      ∃ o' e', o.children = [o'] ∧ e.children = [e'] ∧ o.unwrap = o'.unwrap ∧
        e.unwrap = e'.unwrap := by
  cases o with
  | wrap wrapper inner note =>
    cases e with
    | wrap wrapper' inner' span => exact .inr ⟨inner, inner', rfl, rfl, rfl, rfl⟩
    | name | literal | template | binary | property | element | call | delete => cases h
  | name | literal | template | binary | property | element | call | delete =>
    cases e with
    | wrap => cases h
    | name | literal | template | binary | property | element | call | delete =>
      exact .inl ⟨rfl, rfl⟩

end Outline

-- ════════════════════════════════════════════════════════════════════════
-- Notes are found again
-- ════════════════════════════════════════════════════════════════════════

/-- Nothing is known of the free columns. -/
def Layout.Fresh (l : Layout) : Prop :=
  ∀ span : Span, span.line = 1 → l.column ≤ span.column →
    l.facts.known span = Note.empty.known

/-- Columns are taken, and facts are filed under spans that start there. -/
structure Layout.Grows (l l' : Layout) : Prop where
  le : l.column ≤ l'.column
  same : ∀ span : Span, span.line = 1 → span.column < l.column ∨ l'.column ≤ span.column →
    l'.facts.known span = l.facts.known span

/-- The columns of a span are taken, and all that is known there is what a note says. -/
structure Layout.Holds (l : Layout) (span : Span) (note : Note) : Prop where
  line : span.line = 1
  column_lt : span.column < l.column
  known : l.facts.known span = note.known

namespace Layout

variable {l l₁ l₂ : Layout}

theorem Grows.refl (l : Layout) : l.Grows l := ⟨Nat.le_refl _, fun _ _ _ => rfl⟩

theorem Grows.trans (h : l.Grows l₁) (h₁ : l₁.Grows l₂) : l.Grows l₂ where
  le := Nat.le_trans h.le h₁.le
  same span hline houtside := by
    have hle := h.le
    have hle₁ := h₁.le
    rw [h₁.same span hline (by omega), h.same span hline (by omega)]

theorem Fresh.grows (hfresh : l.Fresh) (h : l.Grows l₁) : l₁.Fresh := by
  intro span hline hcolumn
  rw [h.same span hline (.inr hcolumn)]
  exact hfresh span hline (Nat.le_trans h.le hcolumn)

theorem Holds.grows {span : Span} {note : Note} (hholds : l.Holds span note) (h : l.Grows l₁) :
    l₁.Holds span note where
  line := hholds.line
  column_lt := Nat.lt_of_lt_of_le hholds.column_lt h.le
  known := by rw [h.same span hholds.line (.inl hholds.column_lt), hholds.known]

/-- Filing a note under a span on free columns, which are taken with it. -/
theorem Fresh.file (hfresh : l.Fresh) (note : Note) {span : Span} {n : Nat} (hline : span.line = 1)
    (hcolumn : l.column ≤ span.column) (hlt : span.column < l.column + n) :
    l.Grows ⟨l.column + n, note.file span l.facts⟩ ∧
      Holds ⟨l.column + n, note.file span l.facts⟩ span note := by
  have hknown := note.known_file (hfresh span hline hcolumn)
  refine ⟨⟨Nat.le_add_right .., ?_⟩, hline, hlt, ?_⟩
  · intro query _ houtside
    have hne : query ≠ span := by
      rintro rfl
      dsimp only at houtside
      omega
    rw [hknown, if_neg hne]
  · rw [hknown, if_pos rfl]

end Layout

namespace Outline

/-- The expression is the node that the outline asks for, and the facts say about it what is noted
in the outline: its type, for the node inside all wrappers, its constant value, and whether it is an
access of a method. Where nothing is noted the defaults are found. -/
structure Answered (facts : Facts) (o : Outline) (e : Expr) : Prop where
  fits : o.Fits e
  type : facts.typeOf e = o.unwrap.note.type.getD (.ofTags .object)
  constant : facts.constantAt? e.span = o.note.constant
  isMethod : facts.isMethodAt e.span = o.note.isMethod

/-- The invariant for a node: its notes are found, and the columns where they are filed are
taken. -/
structure Settled (l : Layout) (o : Outline) (e : Expr) : Prop where
  fits : o.Fits e
  own : l.Holds e.span o.note
  inner : l.Holds e.unwrap.span o.unwrap.note

theorem Settled.grows {l l' : Layout} {o : Outline} {e : Expr} (h : Settled l o e)
    (hgrows : l.Grows l') : Settled l' o e :=
  ⟨h.fits, h.own.grows hgrows, h.inner.grows hgrows⟩

theorem Settled.answered {l : Layout} {o : Outline} {e : Expr} (h : Settled l o e) :
    Answered l.facts o e where
  fits := h.fits
  type := congrArg Prod.fst h.inner.known
  constant := congrArg (·.2.1) h.own.known
  isMethod := congrArg (·.2.2) h.own.known

/-- Between two layouts the nodes of outlines were placed as expressions: all of them are settled,
and their spans are those of texts one after the other, in some order. -/
structure Stage (l l' : Layout) (os : List Outline) (es : List Expr) : Prop where
  grows : l.Grows l'
  settled : List.Forall₂ (Settled l') os es
  spans : ∃ ns, l'.column = l.column + columns ns ∧
    (es.flatMap Expr.ownSpans).Perm (layOut l.column ns)

theorem Stage.nil (l : Layout) : Stage l l [] [] := ⟨.refl l, .nil, [], rfl, .nil⟩

theorem Stage.append {l l₁ l₂ : Layout} {os os' : List Outline} {es es' : List Expr}
    (h : Stage l l₁ os es) (h' : Stage l₁ l₂ os' es') : Stage l l₂ (os ++ os') (es ++ es') where
  grows := h.grows.trans h'.grows
  settled := List.rel_append (h.settled.imp fun _ _ hnode => hnode.grows h'.grows) h'.settled
  spans := by
    obtain ⟨ns, hcolumn, hperm⟩ := h.spans
    obtain ⟨ns', hcolumn', hperm'⟩ := h'.spans
    refine ⟨ns ++ ns', ?_, ?_⟩
    · rw [hcolumn', hcolumn, columns_append, Nat.add_assoc]
    · rw [List.flatMap_append, layOut_append, ← hcolumn]
      exact hperm.append hperm'

/-- Placing an outline settles all its nodes. -/
def Settles (o : Outline) : Prop :=
  ∀ l : Layout, l.Fresh → Stage l (o.place.run l).2 o.nodes (o.place.run l).1.nodes

theorem Settles.all {os : List Outline} (h : ∀ o ∈ os, o.Settles) {l : Layout} (hfresh : l.Fresh) :
    Stage l ((placeAll os).run l).2 (os.flatMap nodes)
      (((placeAll os).run l).1.flatMap Expr.nodes) := by
  induction os generalizing l with
  | nil => exact .nil l
  | cons o os ih =>
    have hfirst := h o List.mem_cons_self l hfresh
    have hrest := ih (fun d hd => h d (List.mem_cons_of_mem o hd)) (hfresh.grows hfirst.grows)
    exact hfirst.append hrest

/-- The run of a placement: the parts, the node, and the note. -/
theorem run_place {o : Outline} (h : o.isMoved = false) (l : Layout) :
    let parts := o.piece.run l
    let e := (parts.1.build.run parts.2).1
    o.place.run l =
      (e, ⟨parts.2.column + columns parts.1.lengths, o.note.file e.span parts.2.facts⟩) := by
  intro parts e
  have hrun : o.place.run l = (e, { (parts.1.build.run parts.2).2 with
      facts := o.note.file e.span (parts.1.build.run parts.2).2.facts }) := by
    rw [place_eq_build h]
    rfl
  rw [hrun, (run_build parts.1 parts.2).1]
  rfl

/-- A node is settled after its parts. -/
theorem Settles.node {o : Outline} (hmoved : o.isMoved = false)
    (h : ∀ child ∈ o.children, child.Settles) : o.Settles := by
  intro l hfresh
  have hparts := Settles.all h hfresh
  rw [← parts_piece] at hparts
  change Stage l (o.piece.run l).2 _ ((o.piece.run l).1.parts.flatMap Expr.nodes) at hparts
  have hfits := o.fits_build l (o.piece.run l).2
  rw [run_place hmoved]
  generalize (o.piece.run l).2 = l₁ at hparts hfits ⊢
  generalize (o.piece.run l).1 = p at hparts hfits ⊢
  have hspans := (run_build p l₁).2
  rw [← children_build p l₁] at hparts
  generalize (p.build.run l₁).1 = e at hspans hparts hfits ⊢
  have hown : e.span ∈ layOut l₁.column p.lengths := hspans ▸ e.span_mem_ownSpans
  obtain ⟨hline, hlength, hcolumn, hstop⟩ := bounds_of_mem_layOut hown
  rw [Span.stop] at hstop
  obtain ⟨hgrows, hholds⟩ := (hfresh.grows hparts.grows).file o.note hline hcolumn
    (n := columns p.lengths) (by omega)
  have hsettled := hparts.settled.imp fun _ _ hnode => hnode.grows hgrows
  rw [o.nodes_eq, e.nodes_eq]
  refine ⟨hparts.grows.trans hgrows, .cons ⟨hfits, hholds, ?_⟩ hsettled, ?_⟩
  · rcases hfits.unwrap with ⟨ho, he⟩ | ⟨o', e', ho, he, ho', he'⟩
    · rw [ho, he]
      exact hholds
    · rw [ho, he, List.flatMap_singleton, List.flatMap_singleton, o'.nodes_eq,
        e'.nodes_eq] at hsettled
      rw [ho', he']
      cases hsettled with
      | cons hinner _ => exact hinner.inner
  · obtain ⟨ns, hcolumns, hperm⟩ := hparts.spans
    refine ⟨ns ++ p.lengths, ?_, ?_⟩
    · rw [hcolumns, columns_append, Nat.add_assoc]
    · rw [List.flatMap_cons, layOut_append, hspans, hcolumns]
      exact List.perm_append_comm.trans (hperm.append_right _)

theorem settles_of_not_moved {o : Outline} (h : ∀ d ∈ o.nodes, d.isMoved = false) : o.Settles := by
  induction o using child_induction with
  | h o ih =>
    rw [o.nodes_eq, List.forall_mem_cons] at h
    refine .node h.1 fun child hchild => ih child hchild fun d hd => h.2 d ?_
    exact List.mem_flatMap.2 ⟨child, hchild, hd⟩

end Outline

-- ════════════════════════════════════════════════════════════════════════
-- Spans and answers
-- ════════════════════════════════════════════════════════════════════════

/-- Nothing is known on an empty line if no facts are filed. -/
theorem fresh_start (expanders : ExpanderTable) : (Layout.start ⟨[], [], [], expanders⟩).Fresh :=
  fun _ _ _ => rfl

/-- No two nodes share a column. However many nodes are built one after the other, from whatever
parts, all spans taken for nodes, member names and texts of templates lie on line 1, and each of
them ends before the next one starts; if the lengths asked for leave room for it, all columns fit
into 32 bits. So if outlines are placed without moving a node, the spans of all nodes are disjoint,
and the facts filed on the way say about every node what is noted in its outline. -/
theorem built_nodes_share_no_span :
    (∀ (pieces : List Piece) (facts : Facts),
      columns (pieces.flatMap Piece.lengths) < UInt32.size - 1 →
      let spans := ((pieces.mapM Piece.build).run (.start facts)).1.flatMap Expr.ownSpans
      (∀ span ∈ spans, span.line = 1 ∧ 0 < span.length ∧ span.stop < UInt32.size) ∧
        spans.Pairwise fun a b => a.stop ≤ b.column) ∧
    ∀ (os : List Outline) (expanders : ExpanderTable),
      (∀ o ∈ os.flatMap Outline.nodes, o.isMoved = false) →
      let placed := (Outline.placeAll os).run (.start ⟨[], [], [], expanders⟩)
      let nodes := placed.1.flatMap Expr.nodes
      (nodes.flatMap Expr.ownSpans).Pairwise (fun a b => a.stop ≤ b.column ∨ b.stop ≤ a.column) ∧
        List.Forall₂ (Outline.Answered placed.2.facts) (os.flatMap Outline.nodes) nodes := by
  constructor
  · intro pieces facts hroom spans
    have hspans : spans = layOut 1 (pieces.flatMap Piece.lengths) :=
      (ownSpans_run_mapM_build pieces (.start facts)).2
    rw [hspans]
    refine ⟨?_, pairwise_layOut 1 _⟩
    intro span hspan
    obtain ⟨hline, hlength, -, hstop⟩ := bounds_of_mem_layOut hspan
    exact ⟨hline, hlength, by omega⟩
  · intro os expanders hmoved placed nodes
    have hsettles : ∀ o ∈ os, o.Settles := by
      intro o ho
      refine Outline.settles_of_not_moved fun d hd => hmoved d ?_
      exact List.mem_flatMap.2 ⟨o, ho, hd⟩
    have hall := Outline.Settles.all hsettles (fresh_start expanders)
    obtain ⟨ns, -, hperm⟩ := hall.spans
    refine ⟨?_, hall.settled.imp fun _ _ hnode => hnode.answered⟩
    refine (hperm.pairwise_iff fun h => h.symm).2 ?_
    exact (pairwise_layOut _ ns).imp .inl

/-- `(a.b)` and `a.b`, with different notes on the two accesses and on the parentheses. -/
def accessOutlines : List Outline :=
  let access (note : Note) : Outline := .property (.name "a" .empty) "b" none false note
  [.wrap .parens (access ⟨none, some (.ofTags .string), some (.text "k"), false⟩)
      ⟨none, some (.ofTags .number), none, false⟩,
    access ⟨none, none, none, true⟩]

/-- The spans of two accesses lie side by side, and every note is found at its own node. -/
theorem accesses_share_no_span :
    let access : Piece := .property (.name "a" (.point 1 1)) "b" false
    let placed := (Outline.placeAll accessOutlines).run (.start .empty)
    ((([access, access].mapM Piece.build).run (.start .empty)).1.flatMap Expr.ownSpans).Pairwise
        (fun a b => a.stop ≤ b.column) ∧
      List.Forall₂ (Outline.Answered placed.2.facts) (accessOutlines.flatMap Outline.nodes)
        (placed.1.flatMap Expr.nodes) := by
  intro access placed
  have hspans := (built_nodes_share_no_span.1 [access, access] .empty (by decide)).2
  exact ⟨hspans, (built_nodes_share_no_span.2 accessOutlines .empty (by decide)).2⟩

end ExprLowering.Source
