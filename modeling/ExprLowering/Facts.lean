import ExprLowering.Expander
import ExprLowering.Number.Binary64
import ExprLowering.Source.Expr
import ExprLowering.StaticType

/-!
# Facts about source expressions

What an analysis of the source program has found out, filed under spans: the types of
expressions, the constant values of members, and which members are methods. Of two entries with
one span the later counts.

## Design notes

Types are asked for the expression inside all wrappers, while constants and methods are asked
for exactly the span given.
-/

namespace ExprLowering

/-- A value known at compile time. -/
inductive Constant where
  | text (value : String)
  | number (value : Binary64)
deriving DecidableEq, Repr

/-- What is known about the expressions of a program. Each list has its latest entry first. -/
structure Facts where
  types : List (Span × StaticType)
  constants : List (Span × Constant)
  methods : List Span
  expanders : ExpanderTable
deriving Repr

namespace Facts

/-- Nothing is known. -/
def empty : Facts := ⟨[], [], [], .empty⟩

instance : Inhabited Facts := ⟨empty⟩

/-- Files a type under a span. -/
def withType (f : Facts) (span : Span) (type : StaticType) : Facts :=
  { f with types := (span, type) :: f.types }

/-- Files a constant value under a span. -/
def withConstant (f : Facts) (span : Span) (value : Constant) : Facts :=
  { f with constants := (span, value) :: f.constants }

/-- Marks the member access at a span as one of a method. -/
def withMethod (f : Facts) (span : Span) : Facts := { f with methods := span :: f.methods }

/-- Enters an expander for a symbol. -/
def withExpander (f : Facts) (symbol : Symbol) (expander : Expander) : Facts :=
  { f with expanders := f.expanders.insert symbol expander }

/-- The type filed under a span; an object type if there is none. -/
def typeAt (f : Facts) (span : Span) : StaticType :=
  (f.types.lookup span).getD (.ofTags .object)

/-- The type of an expression, whatever its wrappers. -/
def typeOf (f : Facts) (e : Source.Expr) : StaticType := f.typeAt e.unwrap.span

/-- The constant value filed under a span. -/
def constantAt? (f : Facts) (span : Span) : Option Constant := f.constants.lookup span

/-- Whether the member access at a span is one of a method. -/
def isMethodAt (f : Facts) (span : Span) : Bool := f.methods.contains span

/-- The expander for calls of the member access at a span: that of the first symbol of its
type. -/
def expanderAt? (f : Facts) (span : Span) : Option Expander :=
  (f.typeAt span).firstSymbol?.bind f.expanders.get?

/-- A type is found under the span where it was filed, and other types stay. -/
theorem typeAt_withType (f : Facts) (span query : Span) (type : StaticType) :
    (f.withType span type).typeAt query = if query = span then type else f.typeAt query := by
  by_cases h : query = span
  · simp [typeAt, withType, h]
  · have hne : (query == span) = false := beq_false_of_ne h
    simp [typeAt, withType, List.lookup_cons, h, hne]

/-- A constant is found under the span where it was filed, and other constants stay. -/
theorem constantAt?_withConstant (f : Facts) (span query : Span) (value : Constant) :
    (f.withConstant span value).constantAt? query =
      if query = span then some value else f.constantAt? query := by
  by_cases h : query = span
  · simp [constantAt?, withConstant, h]
  · have hne : (query == span) = false := beq_false_of_ne h
    simp [constantAt?, withConstant, List.lookup_cons, h, hne]

/-- A marked method is found, and the other marks stay. -/
theorem isMethodAt_withMethod (f : Facts) (span query : Span) :
    (f.withMethod span).isMethodAt query = (query == span || f.isMethodAt query) :=
  List.contains_cons

end Facts

end ExprLowering
