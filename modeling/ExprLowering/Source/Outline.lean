import ExprLowering.Facts

/-!
# Outlines of source expressions

An outline is a source expression that has no place in a text yet, with notes on what is known
about its nodes. `Outline.place` lays it out on line 1: children before their parents, every node
and every member name on columns of its own. The notes are filed under the spans so obtained.

## Design notes

Placing runs in `PlaceM`, whose state is the next free column and the facts filed so far, so that
several outlines can be placed one after the other without sharing columns.
-/

namespace ExprLowering.Source

/-- What is known about a node: a span to use in the place of its own, its type, its constant
value, and whether it is an access of a method. -/
structure Note where
  span : Option Span
  type : Option StaticType
  constant : Option Constant
  isMethod : Bool
deriving Repr

/-- Nothing is known. -/
def Note.empty : Note := ⟨none, none, none, false⟩

/-- A source expression without spans. -/
inductive Outline where
  | name (text : String) (note : Note)
  | literal (value : Literal) (note : Note)
  | template (head : String) (parts : List (Outline × String)) (note : Note)
  | binary (left : Outline) (op : Operator) (right : Outline) (note : Note)
  | property (object : Outline) (name : String) (nameSpan : Option Span) (optional : Bool)
      (note : Note)
  | element (object index : Outline) (optional : Bool) (note : Note)
  | call (callee : Outline) (args : List Outline) (note : Note)
  | delete (operand : Outline) (note : Note)
  | wrap (wrapper : Wrapper) (inner : Outline) (note : Note)
deriving Repr

/-- A text being laid out: the next free column, and the facts filed so far. -/
structure Layout where
  column : Nat
  facts : Facts

/-- An empty line with nothing placed on it yet. -/
def Layout.start (facts : Facts) : Layout := ⟨1, facts⟩

/-- Computations that place nodes. -/
abbrev PlaceM := StateM Layout

/-- Takes the next columns: as many as asked for, and at least one. -/
def takeSpan (length : Nat) : PlaceM Span :=
  modifyGet fun l => (⟨1, l.column, max 1 length⟩, { l with column := l.column + max 1 length })

/-- Files all that a note says under a span. -/
def Note.file (note : Note) (span : Span) (facts : Facts) : Facts :=
  let facts := match note.type with
    | some type => facts.withType span type
    | none => facts
  let facts := match note.constant with
    | some value => facts.withConstant span value
    | none => facts
  if note.isMethod then facts.withMethod span else facts

/-- Takes the span of a node and files what is known about it; a span in the note replaces the
one taken. -/
def takeNode (note : Note) (length : Nat) : PlaceM Span := do
  let own ← takeSpan length
  let span := note.span.getD own
  modify fun l => { l with facts := note.file span l.facts }
  return span

/-- How many bytes a literal takes in the text. -/
def Literal.length : Literal → Nat
  | bool true => 4
  | bool false => 5
  | number raw => raw.utf8ByteSize
  | string raw => raw.utf8ByteSize
  | template raw => raw.utf8ByteSize

/-- How many bytes a wrapper adds to what it wraps. -/
def Wrapper.length : Wrapper → Nat
  | parens => 2
  | nonNull => 1
  | assertion type => type.utf8ByteSize + 4

/-- The span of the text after each substitution, which includes the substitution's brackets. -/
def placeTexts : List (Expr × String) → PlaceM (List (Substitution Expr))
  | [] => pure []
  | (expr, text) :: rest => do
    let span ← takeSpan (text.utf8ByteSize + 3)
    return ⟨expr, text, span⟩ :: (← placeTexts rest)

namespace Outline

mutual

/-- Places an outline: its children from left to right, then the node. -/
def place : Outline → PlaceM Expr
  | name text note => return .name text (← takeNode note text.utf8ByteSize)
  | literal value note => return .literal value (← takeNode note value.length)
  | template head parts note => do
    let parts ← placeTexts (← placeParts parts)
    return .template head parts (← takeNode note (head.utf8ByteSize + 2))
  | binary left op right note => do
    let left ← place left
    let right ← place right
    return .binary left op right (← takeNode note op.token.utf8ByteSize)
  | property object label nameSpan optional note => do
    let object ← place object
    let own ← takeSpan label.utf8ByteSize
    let span ← takeNode note (own.length + 1)
    return .property object label (nameSpan.getD own) optional span
  | element object index optional note => do
    let object ← place object
    let index ← place index
    return .element object index optional (← takeNode note 2)
  | call callee args note => do
    let callee ← place callee
    let args ← placeAll args
    return .call callee args (← takeNode note 2)
  | delete operand note => do
    let operand ← place operand
    return .delete operand (← takeNode note 6)
  | wrap wrapper inner note => do
    let inner ← place inner
    return .wrap wrapper inner (← takeNode note wrapper.length)

/-- Places outlines from left to right. -/
def placeAll : List Outline → PlaceM (List Expr)
  | [] => pure []
  | o :: os => do
    let e ← place o
    return e :: (← placeAll os)

/-- Places the substitutions of a template from left to right; their texts follow later. -/
def placeParts : List (Outline × String) → PlaceM (List (Expr × String))
  | [] => pure []
  | (o, text) :: rest => do
    let e ← place o
    return (e, text) :: (← placeParts rest)

end

end Outline

end ExprLowering.Source
