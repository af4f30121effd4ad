import ExprLowering.Proofs.Preservation

/-!
# What templates stand for

A template consists of pieces, in source order: its texts, and its substitutions. Its value is a
chain of concatenations, grouped to the left, in which the texts that are empty as written have no
segment. Where joining texts is associative and the empty string changes nothing, the chain stands
for the pieces joined in source order, the empty ones included.

## Main definitions

* `Piece`, `pieces`: the texts and the substitutions of a template.
* `Chain`: a chain of concatenations, grouped to the left.
* `Texts`: joining is associative on the values that are texts.

## Main results

* `chain_concatenation`, `joinAll_eq_concat`: the shape and the value of a chain.
* `template_is_concatenation`: templates and their chains.
-/

namespace ExprLowering.Target

/-- Expressions joined from left to right by concatenations; nothing is joined to the empty
string. -/
inductive Chain : List Expr → Expr → Prop where
  | empty : Chain [] (.string "")
  | single (segment : Expr) : Chain [segment] segment
  | extend {segments : List Expr} {chain : Expr} (segment : Expr) :
      segments ≠ [] → Chain segments chain →
      Chain (segments ++ [segment]) (.binary chain .concat segment)

variable {V W : Type}

/-- Strings, conversions and what is joined of them are texts. Joining texts is associative, and the
empty string changes none of them. -/
structure Interp.PureText.Texts {I : Interp V W} (P : I.PureText) (IsText : V → Prop) : Prop where
  string : ∀ body, IsText (I.string body)
  text : ∀ v, IsText (P.text v)
  join : ∀ a b, IsText a → IsText b → IsText (P.join a b)
  join_assoc : ∀ a b c, IsText a → IsText b → IsText c →
    P.join (P.join a b) c = P.join a (P.join b c)
  empty_join : ∀ a, IsText a → P.join (I.string "") a = a
  join_empty : ∀ a, IsText a → P.join a (I.string "") = a

/-- Values joined in order. -/
def Interp.PureText.concat {I : Interp V W} (P : I.PureText) (vs : List V) : V :=
  vs.foldr P.join (I.string "")

end ExprLowering.Target

namespace ExprLowering.Lowering

open Source (Substitution)
open Target

/-- A piece of a template: a text as it is written, or the value of a substitution with the mark
whether it is known to be a string. -/
inductive Piece (α : Type) where
  | text (raw : String)
  | value (isString : Bool) (value : α)

/-- The pieces of a template in source order, given the values of its substitutions. -/
def pieces {α : Type} (facts : Facts) (head : String) (parts : List (Substitution Source.Expr))
    (values : List α) : List (Piece α) :=
  .text head :: (parts.zip values).flatMap fun (part, value) =>
    [.value (facts.typeOf part.expr).isString value, .text part.text]

/-- Whether the piece is a text without characters. -/
def Piece.isVoid {α : Type} : Piece α → Bool
  | .text raw => raw.isEmpty
  | .value _ _ => false

/-- The expression for a piece. -/
def Piece.segment : Piece Expr → Expr
  | .text raw => .string (StringBody.ofTemplate raw)
  | .value true e => e
  | .value false e => .call (.name "tostring") [e]

/-- What a piece stands for. -/
def Piece.meaning {V W : Type} {I : Interp V W} (P : I.PureText) : Piece V → V
  | .text raw => I.string (StringBody.ofTemplate raw)
  | .value true v => v
  | .value false v => P.text v

variable {V W : Type} {I : Interp V W}

-- ════════════════════════════════════════════════════════════════════════
-- Segments
-- ════════════════════════════════════════════════════════════════════════

/-- What is made of the pieces that are not void. -/
def solid {α β : Type} (f : Piece α → β) (ps : List (Piece α)) : List β :=
  (ps.filter (!·.isVoid)).map f

theorem solid_text {α β : Type} (f : Piece α → β) (raw : String) (ps : List (Piece α)) :
    solid f (.text raw :: ps) = (if raw.isEmpty then [] else [f (.text raw)]) ++ solid f ps := by
  by_cases h : raw.isEmpty <;> simp [solid, Piece.isVoid, h]

theorem solid_value {α β : Type} (f : Piece α → β) (isString : Bool) (v : α)
    (ps : List (Piece α)) :
    solid f (.value isString v :: ps) = f (.value isString v) :: solid f ps := rfl

/-- The pieces after a substitution are those of a template that starts with the text there. -/
theorem pieces_cons {α : Type} (facts : Facts) (head : String) (part : Substitution Source.Expr)
    (parts : List (Substitution Source.Expr)) (v : α) (vs : List α) :
    pieces facts head (part :: parts) (v :: vs) =
      .text head :: .value (facts.typeOf part.expr).isString v ::
        pieces facts part.text parts vs := rfl

theorem segments_eq_solid (facts : Facts) (head : String) (parts : List (Substitution Source.Expr))
    (values : List Expr) :
    textSegment head ++ partSegments facts parts values =
      solid Piece.segment (pieces facts head parts values) := by
  induction parts generalizing head values with
  | nil => exact (solid_text Piece.segment head []).symm
  | cons part parts ih =>
    cases values with
    | nil => exact (solid_text Piece.segment head []).symm
    | cons value values =>
      rw [pieces_cons, solid_text, solid_value, partSegments, ih]
      cases hstring : (facts.typeOf part.expr).isString with
      | true => simp [textSegment, valueSegment, Piece.segment, hstring]
      | false => simp [textSegment, valueSegment, Piece.segment, hstring]

theorem values_eq_solid (P : I.PureText) (facts : Facts) (head : String)
    (parts : List (Substitution Source.Expr)) (vs : List V) :
    textValues I head ++ partValues P facts parts vs =
      solid (Piece.meaning P) (pieces facts head parts vs) := by
  induction parts generalizing head vs with
  | nil => exact (solid_text (Piece.meaning P) head []).symm
  | cons part parts ih =>
    cases vs with
    | nil => exact (solid_text (Piece.meaning P) head []).symm
    | cons v vs =>
      rw [pieces_cons, solid_text, solid_value, partValues, ih]
      cases hstring : (facts.typeOf part.expr).isString with
      | true => simp [textValues, Piece.meaning]
      | false => simp [textValues, Piece.meaning]

/-- Segments are chained in order. -/
theorem chain_concatenation (segments : List Expr) : Chain segments (concatenation segments) := by
  have hfold (rest : List Expr) : ∀ {done : List Expr} {chain : Expr}, done ≠ [] →
      Chain done chain → Chain (done ++ rest)
        (rest.foldl (fun chain segment => .binary chain .concat segment) chain) := by
    induction rest with
    | nil =>
      intro done chain _ hchain
      rw [List.append_nil]
      exact hchain
    | cons segment rest ih =>
      intro done chain hdone hchain
      rw [List.append_cons]
      exact ih (by simp) (.extend segment hdone hchain)
  cases segments with
  | nil => exact .empty
  | cons first rest => exact hfold rest (List.cons_ne_nil first []) (.single first)

-- ════════════════════════════════════════════════════════════════════════
-- Values
-- ════════════════════════════════════════════════════════════════════════

section Texts

variable {P : I.PureText} {IsText : V → Prop}

theorem isText_concat (hP : P.Texts IsText) {vs : List V} (h : ∀ v ∈ vs, IsText v) :
    IsText (P.concat vs) := by
  induction vs with
  | nil => exact hP.string ""
  | cons v vs ih =>
    obtain ⟨hv, hvs⟩ := List.forall_mem_cons.1 h
    exact hP.join _ _ hv (ih hvs)

/-- It does not matter how texts are grouped. -/
theorem joinAll_eq_concat (hP : P.Texts IsText) {vs : List V} (h : ∀ v ∈ vs, IsText v) :
    joinAll P vs = P.concat vs := by
  have hfold (rest : List V) (hrest : ∀ v ∈ rest, IsText v) : ∀ first, IsText first →
      rest.foldl P.join first = P.join first (P.concat rest) := by
    induction rest with
    | nil =>
      intro first hfirst
      exact (hP.join_empty first hfirst).symm
    | cons v rest ih =>
      intro first hfirst
      obtain ⟨hv, htail⟩ := List.forall_mem_cons.1 hrest
      calc (v :: rest).foldl P.join first
          = P.join (P.join first v) (P.concat rest) := ih htail _ (hP.join _ _ hfirst hv)
        _ = P.join first (P.concat (v :: rest)) :=
            hP.join_assoc _ _ _ hfirst hv (isText_concat hP htail)
  cases vs with
  | nil => rfl
  | cons first rest =>
    obtain ⟨hfirst, hrest⟩ := List.forall_mem_cons.1 h
    exact hfold rest hrest first hfirst

theorem isText_meaning (hP : P.Texts IsText) {piece : Piece V}
    (h : ∀ v, piece = .value true v → IsText v) : IsText (piece.meaning P) := by
  match piece with
  | .text raw => exact hP.string _
  | .value true v => exact h v rfl
  | .value false v => exact hP.text v

/-- Void pieces stand for the empty string, so it does not matter that they are left out. -/
theorem concat_solid (hP : P.Texts IsText) {ps : List (Piece V)}
    (h : ∀ p ∈ ps, IsText (p.meaning P)) :
    P.concat (solid (Piece.meaning P) ps) = P.concat (ps.map (Piece.meaning P)) := by
  induction ps with
  | nil => rfl
  | cons p ps ih =>
    obtain ⟨hp, hps⟩ := List.forall_mem_cons.1 h
    have hrest : IsText (P.concat (ps.map (Piece.meaning P))) :=
      isText_concat hP (List.forall_mem_map.2 hps)
    match p with
    | .text raw =>
      rw [solid_text]
      by_cases hraw : raw.isEmpty
      · obtain rfl : raw = "" := by simpa using hraw
        rw [if_pos hraw]
        exact (ih hps).trans (hP.empty_join _ hrest).symm
      · rw [if_neg hraw]
        exact congrArg (P.join _) (ih hps)
    | .value isString v => exact congrArg (P.join _) (ih hps)

/-- The chain for a template stands for its pieces joined in source order. -/
theorem eval_templateValue_eq_concat (hP : P.Texts IsText) (facts : Facts) (τ : Nat → V)
    (head : String) {parts : List (Substitution Source.Expr)} {values : List Expr}
    (hlength : values.length = parts.length) (s : Store V W)
    (hstrings : ∀ v, .value true v ∈ pieces facts head parts (evalAll I τ values s).1 → IsText v) :
    eval I τ (templateValue facts head parts values) s =
      (P.concat ((pieces facts head parts (evalAll I τ values s).1).map (Piece.meaning P)),
        (evalAll I τ values s).2) := by
  have hpieces : ∀ p ∈ pieces facts head parts (evalAll I τ values s).1,
      IsText (p.meaning P) := by
    intro p hp
    apply isText_meaning hP
    rintro v rfl
    exact hstrings v hp
  have hsolid : ∀ v ∈ solid (Piece.meaning P) (pieces facts head parts (evalAll I τ values s).1),
      IsText v := by
    intro v hv
    obtain ⟨p, hp, rfl⟩ := List.mem_map.1 hv
    exact hpieces p (List.mem_filter.1 hp).1
  rw [eval_templateValue P facts τ head hlength, values_eq_solid, joinAll_eq_concat hP hsolid,
    concat_solid hP hpieces]

end Texts

-- ════════════════════════════════════════════════════════════════════════
-- Templates
-- ════════════════════════════════════════════════════════════════════════

/-- A template lowers if its substitutions do, to the value that is made of theirs. -/
theorem run_template_eq_ok {ctx : Context} {role : Role} {head : String}
    {parts : List (Substitution Source.Expr)} {span : Span} {s t : State} {value : Expr}
    (h : (lowerIn ctx role (.template head parts span)).run s = (.ok value, t)) :
    ∃ values, (inRole role (lowerAll ctx (parts.map (·.expr)))).run s = (.ok values, t) ∧
      values.length = parts.length ∧ value = templateValue ctx.facts head parts values := by
  have hnode : lowerNode ctx (.template head parts span) =
      lowerAll ctx (parts.map (·.expr)) >>= fun values =>
        pure (templateValue ctx.facts head parts values) := by
    rw [lowerNode, lowerParts_eq_map]
    rfl
  rw [lowerIn, run_inRole, hnode] at h
  rcases hall : (lowerAll ctx (parts.map (·.expr))).run (s.enter role) with ⟨failure | values, u⟩
  · rw [LowerM.run_bind_error hall] at h
    cases h
  · rw [LowerM.run_bind_ok hall] at h
    cases h
    obtain ⟨g, -, hlow⟩ := lowers_of_run_operands (fun e _ => lowers_of_run ctx e) hall
    have hlength := hlow.length_values
    refine ⟨values, ?_, by simpa using hlength, rfl⟩
    rw [run_inRole, hall]
    rfl

/-- A template lowers to the concatenation of its pieces. Its value is a chain, grouped to the left,
of the pieces that are not void, and stands for all pieces joined in source order. -/
theorem template_is_concatenation {ctx : Context} {role : Role} {head : String}
    {parts : List (Substitution Source.Expr)} {span : Span} {s t : State} {value : Expr}
    (hrun : (lowerIn ctx role (.template head parts span)).run s = (.ok value, t)) :
    ∃ values, (inRole role (lowerAll ctx (parts.map (·.expr)))).run s = (.ok values, t) ∧
      values.length = parts.length ∧
      Chain (((pieces ctx.facts head parts values).filter (!·.isVoid)).map Piece.segment) value ∧
      ∀ (V W : Type) (I : Interp V W) (P : I.PureText) (IsText : V → Prop), P.Texts IsText →
        ∀ (temps : Nat → V) (store : Store V W),
          let after := evalAll I temps values store
          (∀ v, .value true v ∈ pieces ctx.facts head parts after.1 → IsText v) →
          eval I temps value store =
            (P.concat ((pieces ctx.facts head parts after.1).map (Piece.meaning P)), after.2) := by
  obtain ⟨values, hvalues, hlength, rfl⟩ := run_template_eq_ok hrun
  refine ⟨values, hvalues, hlength, ?_, ?_⟩
  · have hchain := chain_concatenation (textSegment head ++ partSegments ctx.facts parts values)
    rw [segments_eq_solid] at hchain
    rw [templateValue, segments_eq_solid]
    exact hchain
  · intro V W I P IsText hP temps store after hstrings
    exact eval_templateValue_eq_concat hP ctx.facts temps head hlength store hstrings

/-- The characters of a number or of a text. -/
def shown : Nat ⊕ List Char → List Char
  | .inl n => Nat.toDigits 10 n
  | .inr text => text

/-- An interpretation over numbers and texts that does nothing but join and convert. A number that
is joined becomes a text, so the empty text changes texts only. -/
def textInterp : Interp (Nat ⊕ List Char) Unit where
  nil := .inl 0
  bool b := .inl b.toNat
  number text := .inl text.length
  string body := .inr body.toList
  fixed x := if x = "tostring" then some (.inl 0) else none
  binary _ a b s := (.inr (shown a ++ shown b), s)
  read object _ s := (object, s)
  write _ _ _ s := s
  call _ args s := (.inr (args.flatMap shown), s)
  method object _ _ s := (object, s)

def textInterpPure : textInterp.PureText where
  tostring := .inl 0
  text v := .inr (shown v)
  join a b := .inr (shown a ++ shown b)
  fixed_eq _ := rfl
  call_tostring v s := by simp [textInterp]
  binary_concat _ _ _ := rfl

theorem texts_textInterp : textInterpPure.Texts fun v => ∃ text, v = .inr text where
  string body := ⟨_, rfl⟩
  text v := ⟨_, rfl⟩
  join a b _ _ := ⟨_, rfl⟩
  join_assoc a b c _ _ _ := congrArg Sum.inr (List.append_assoc ..)
  empty_join := by
    rintro _ ⟨text, rfl⟩
    exact congrArg Sum.inr (List.nil_append text)
  join_empty := by
    rintro _ ⟨text, rfl⟩
    exact congrArg Sum.inr (List.append_nil text)

/-- `${x as string}${f()}b${y = 1}` and an escaped line break, where `x` is a string. The first two
values are saved before the assignment, the text between them is void, and the text in the end has a
segment without characters. -/
theorem saved_values_are_joined :
    let ctx : Context := ⟨Facts.empty.withType (.point 1 1) (.ofTags .string), default⟩
    let parts : List (Substitution Source.Expr) :=
      [⟨.wrap (.assertion "string") (.name "x" (.point 1 1)) (.point 1 2), "", .point 1 8⟩,
        ⟨.call (.name "f" (.point 1 3)) [] (.point 1 4), "b", .point 1 9⟩,
        ⟨.binary (.name "y" (.point 1 5)) .assign (.literal (.number "1") (.point 1 6))
          (.point 1 7), "\\\n", .point 1 10⟩]
    let segments : List Expr := [.temp ⟨0⟩, .call (.name "tostring") [.temp ⟨1⟩], .string "b",
      .call (.name "tostring") [.number "1"], .string ""]
    (lowerExpr ctx (.template "" parts (.point 1 11))).run .initial =
        (.ok (concatenation segments),
          { State.initial with
            frame := [.declare ⟨0⟩ (.name "x"), .declare ⟨1⟩ (.call (.name "f") []),
              .assign (.name "y") .set (.number "1")]
            nextTemp := 2 }) ∧
      Chain segments (concatenation segments) ∧
      ∀ store, eval textInterp (fun t => if t = 0 then .inr ['u'] else .inl 12)
          (concatenation segments) store = (.inr ['u', '1', '2', 'b', '1'], store) := by
  intro ctx parts segments
  have hrun : (lowerIn ctx .operand (.template "" parts (.point 1 11))).run .initial =
      (.ok (concatenation segments),
        { State.initial with
          frame := [.declare ⟨0⟩ (.name "x"), .declare ⟨1⟩ (.call (.name "f") []),
            .assign (.name "y") .set (.number "1")]
          nextTemp := 2 }) := rfl
  obtain ⟨values, hvalues, -, hchain, hmeaning⟩ := template_is_concatenation hrun
  obtain rfl : [.temp ⟨0⟩, .temp ⟨1⟩, .number "1"] = values :=
    Except.ok.inj (Prod.mk.inj hvalues).1
  refine ⟨hrun, hchain, fun store => ?_⟩
  apply hmeaning _ _ textInterp textInterpPure _ texts_textInterp
  intro v hv
  -- Of the three substitutions only the first one is a string.
  have hmem : Piece.value true v ∈ [.text "", .value true (.inr ['u']), .text "",
    .value false (.inl 12), .text "b", .value false (.inl 1), .text "\\\n"] := hv
  exact ⟨['u'], by simpa using hmem⟩

end ExprLowering.Lowering
