/-!
# Source spans

A `Span` says where a piece of source text stands. Everything that is known about a source
expression from outside (its type, its constant value) is filed under its span.
-/

namespace ExprLowering

/-- A stretch of source text: the line and column where it starts, and its length in bytes. -/
structure Span where
  line : Nat
  column : Nat
  length : Nat
deriving DecidableEq, Repr

instance : Inhabited Span := ⟨⟨0, 0, 0⟩⟩

namespace Span

/-- The empty span at a position. -/
def point (line column : Nat) : Span := ⟨line, column, 0⟩

/-- Whether the span covers no text. -/
def isEmpty (s : Span) : Bool := s.length == 0

/-- The start of the span as messages show it, `line:column`. -/
def start (s : Span) : String := toString s.line ++ ":" ++ toString s.column

/-- The first column after the span. -/
def stop (s : Span) : Nat := s.column + s.length

end Span

end ExprLowering
