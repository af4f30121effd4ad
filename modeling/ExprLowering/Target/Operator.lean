/-!
# Operators of the target language
-/

namespace ExprLowering.Target

/-- Binary operators of the target language. -/
inductive Binop where
  | add | sub | mul | div | mod | pow | concat | eq | ne | lt | gt | le | ge
deriving DecidableEq, Repr

namespace Binop

/-- The text of an operator. -/
def token : Binop → String
  | add => "+"
  | sub => "-"
  | mul => "*"
  | div => "/"
  | mod => "%"
  | pow => "^"
  | concat => ".."
  | eq => "=="
  | ne => "~="
  | lt => "<"
  | gt => ">"
  | le => "<="
  | ge => ">="

/-- All binary operators. -/
def all : List Binop :=
  [add, sub, mul, div, mod, pow, concat, eq, ne, lt, gt, le, ge]

/-- The operator with a given text. -/
def ofToken? (text : String) : Option Binop := all.find? (fun op => op.token == text)

end Binop

/-- Assignment operators of the target language: plain assignment, and the five calculations
that have a compound form. -/
inductive AssignOp where
  | set | add | sub | mul | div | mod
deriving DecidableEq, Repr

namespace AssignOp

/-- The text of an operator. -/
def token : AssignOp → String
  | set => "="
  | add => "+="
  | sub => "-="
  | mul => "*="
  | div => "/="
  | mod => "%="

/-- All assignment operators. -/
def all : List AssignOp := [set, add, sub, mul, div, mod]

/-- The operator with a given text. -/
def ofToken? (text : String) : Option AssignOp := all.find? (fun op => op.token == text)

end AssignOp

end ExprLowering.Target
