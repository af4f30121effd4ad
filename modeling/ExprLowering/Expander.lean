import ExprLowering.Symbol

/-!
# Call expanders

Some members are not functions at run time: a call of such a member is replaced by other code.
An `Expander` names the replacement, and an `ExpanderTable` says which symbols have one.
-/

namespace ExprLowering

/-- What a call `object.member(args)` may be replaced by. -/
inductive Expander where
  /-- The absent value; object and arguments are dropped. -/
  | unit
  /-- The length of the object, whatever the arguments. -/
  | length
  /-- Appending the arguments to the object as a list. -/
  | push
  /-- Nothing: the expansion is refused. -/
  | fail
  /-- A note of the object in a global variable, a diagnostic, and a call of another method. -/
  | effect
deriving DecidableEq, Repr

/-- The expanders known, at most one for each symbol. -/
structure ExpanderTable where
  entries : List (Symbol × Expander)
deriving Repr

namespace ExpanderTable

/-- The table without entries. -/
def empty : ExpanderTable := ⟨[]⟩

instance : Inhabited ExpanderTable := ⟨empty⟩

/-- Enters an expander for a symbol, in the place of an earlier one. -/
def insert (t : ExpanderTable) (symbol : Symbol) (expander : Expander) : ExpanderTable :=
  ⟨(symbol, expander) :: t.entries.filter (fun entry => entry.1 != symbol)⟩

/-- The expander of a symbol. -/
def get? (t : ExpanderTable) (symbol : Symbol) : Option Expander := t.entries.lookup symbol

/-- How many symbols have an expander. -/
def size (t : ExpanderTable) : Nat := t.entries.length

/-- Whether no symbol has an expander. -/
def isEmpty (t : ExpanderTable) : Bool := t.entries.isEmpty

end ExpanderTable

end ExprLowering
