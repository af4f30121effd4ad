/-!
# Binary operators of the source language

The binary tokens, sorted by what they do. An operator that computes a value from two numbers
(a `Calculation`) can also be the middle part of a compound assignment.

## Main definitions

* `Operator.token`, `Operator.ofToken?`: the text of an operator and back.
* `Operator.all`: all operators in their fixed order.
-/

namespace ExprLowering.Source

/-- Comparisons of two values without conversion. -/
inductive Comparison where
  | eq | ne | lt | le | gt | ge
deriving DecidableEq, Repr

/-- Arithmetic on numbers. -/
inductive Arithmetic where
  | add | sub | mul | div | mod | pow
deriving DecidableEq, Repr

/-- Operations on the bits of whole numbers; `ushr` shifts zeros in. -/
inductive Bitwise where
  | and | or | xor | shl | shr | ushr
deriving DecidableEq, Repr

/-- What computes a number from two numbers. -/
inductive Calculation where
  | arithmetic (op : Arithmetic)
  | bitwise (op : Bitwise)
deriving DecidableEq, Repr

/-- Operators that may leave their right side unevaluated. -/
inductive Logical where
  | and | or | coalesce
deriving DecidableEq, Repr

/-- A binary operator of the source language. -/
inductive Operator where
  /-- Equality after conversion. -/
  | looseEq
  /-- Inequality after conversion. -/
  | looseNe
  | comparison (op : Comparison)
  | calculation (op : Calculation)
  | logical (op : Logical)
  /-- Plain assignment. -/
  | assign
  /-- Assignment of the result of a calculation on the old value. -/
  | assignWith (op : Calculation)
  /-- Whether a key is in an object. -/
  | membership
  /-- Whether an object comes from a constructor. -/
  | instanceOf
  /-- Evaluation of both sides for the value of the second. -/
  | comma
deriving DecidableEq, Repr

/-- The token of a comparison. -/
def Comparison.token : Comparison → String
  | eq => "==="
  | ne => "!=="
  | lt => "<"
  | le => "<="
  | gt => ">"
  | ge => ">="

/-- The token of a calculation. -/
def Calculation.token : Calculation → String
  | arithmetic .add => "+"
  | arithmetic .sub => "-"
  | arithmetic .mul => "*"
  | arithmetic .div => "/"
  | arithmetic .mod => "%"
  | arithmetic .pow => "**"
  | bitwise .and => "&"
  | bitwise .or => "|"
  | bitwise .xor => "^"
  | bitwise .shl => "<<"
  | bitwise .shr => ">>"
  | bitwise .ushr => ">>>"

/-- The token of a logical operator. -/
def Logical.token : Logical → String
  | and => "&&"
  | or => "||"
  | coalesce => "??"

namespace Operator

/-- The text of an operator. -/
def token : Operator → String
  | looseEq => "=="
  | looseNe => "!="
  | comparison op => op.token
  | calculation op => op.token
  | logical op => op.token
  | assign => "="
  | assignWith op => op.token ++ "="
  | membership => "in"
  | instanceOf => "instanceof"
  | comma => ","

/-- All operators, in their fixed order. -/
def all : List Operator :=
  [looseEq, looseNe]
    ++ [.eq, .ne, .lt, .le, .gt, .ge].map comparison
    ++ [.add, .sub, .mul, .div, .mod, .pow].map (fun op => calculation (.arithmetic op))
    ++ [.and, .or, .xor, .shl, .shr, .ushr].map (fun op => calculation (.bitwise op))
    ++ [.and, .or, .coalesce].map logical
    ++ [assign]
    ++ [.add, .sub, .mul, .pow, .div, .mod].map (fun op => assignWith (.arithmetic op))
    ++ [.shl, .shr, .ushr, .and, .or, .xor].map (fun op => assignWith (.bitwise op))
    ++ [membership, instanceOf, comma]

/-- The operator with a given text. -/
def ofToken? (text : String) : Option Operator := all.find? (fun op => op.token == text)

/-- The place of an operator in the fixed order. -/
def index (op : Operator) : Nat := all.idxOf op

/-- Whether the operator writes to its left side. -/
def isAssignment : Operator → Bool
  | assign => true
  | assignWith _ => true
  | _ => false

/-- The calculation inside a compound assignment. -/
def operand? : Operator → Option Calculation
  | assignWith op => some op
  | _ => none

end Operator

end ExprLowering.Source
