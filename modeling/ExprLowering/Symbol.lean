import ExprLowering.Symbol.Hash

/-!
# Symbols

A `Symbol` identifies a declared entity by a 64-bit word computed from its name, or from its
owner's name and its own.
-/

namespace ExprLowering

/-- The identity of a declared entity. -/
structure Symbol where
  word : UInt64
deriving DecidableEq, Repr

namespace Symbol

/-- Sets symbols apart from other uses of the same hash. -/
def domain : UInt64 := 0x6c8e9cf570932bd5

/-- The bytes of a name. -/
def bytes (name : String) : List UInt8 := name.toUTF8.toList

/-- The symbol of a top-level name. -/
def ofName (name : String) : Symbol := ⟨domain ^^^ Hash.digest 0 (bytes name)⟩

/-- The symbol of a member: the owner's name seeds the hash of the member's. -/
def ofMember (owner member : String) : Symbol :=
  ⟨domain ^^^ Hash.digest (Hash.digest 0 (bytes owner)) (bytes member)⟩

/-- The symbol as 16 hexadecimal digits. -/
def hex (s : Symbol) : String :=
  let digits := Nat.toDigits 16 s.word.toNat
  String.ofList (List.replicate (16 - digits.length) '0' ++ digits)

/-- The symbol as it is shown when inspected. -/
def inspect (s : Symbol) : String := "SymbolId(0x" ++ s.hex ++ ")"

end Symbol

end ExprLowering
