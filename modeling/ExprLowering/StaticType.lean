import ExprLowering.Symbol

/-!
# Static types

The part of a type that lowering looks at: a set of tags, the symbol of the declaration it
comes from, and, for a union, its members.

## Main definitions

* `StaticType.isAny`: members of such a value may not be used.
* `StaticType.isString`: the value needs no conversion inside a template.
* `StaticType.firstSymbol?`: the symbol under which call expansions are looked up.
-/

namespace ExprLowering

/-- A set of type tags, one bit for each; bits without a name are kept. -/
structure TypeTags where
  bits : UInt32
deriving DecidableEq, Repr

namespace TypeTags

/-- No tag at all. -/
def empty : TypeTags := ⟨0⟩

/-- The type `any`. -/
def any : TypeTags := ⟨1⟩

/-- The type `unknown`. -/
def unknown : TypeTags := ⟨2⟩

/-- The type of all strings. -/
def string : TypeTags := ⟨4⟩

/-- A type of one string. -/
def stringLiteral : TypeTags := ⟨8⟩

/-- The type of all numbers. -/
def number : TypeTags := ⟨16⟩

/-- A type of one number. -/
def numberLiteral : TypeTags := ⟨32⟩

/-- The type of the two truth values. -/
def boolean : TypeTags := ⟨64⟩

/-- The type of the absent value. -/
def undefined : TypeTags := ⟨128⟩

/-- A type of objects. -/
def object : TypeTags := ⟨256⟩

/-- A union of other types. -/
def union : TypeTags := ⟨512⟩

/-- Both kinds of string type. -/
def stringLike : TypeTags := ⟨12⟩

/-- The tags of either set. -/
def join (f g : TypeTags) : TypeTags := ⟨f.bits ||| g.bits⟩

/-- Whether every tag of `g` is in `f`. -/
def contains (f g : TypeTags) : Bool := f.bits &&& g.bits == g.bits

/-- Whether no tag is set. -/
def isEmpty (f : TypeTags) : Bool := f.bits == 0

end TypeTags

/-- A static type as far as lowering looks at it. -/
structure StaticType where
  tags : TypeTags
  symbol : Option Symbol
  members : List StaticType
deriving Repr

namespace StaticType

/-- The type with these tags and nothing else. -/
def ofTags (tags : TypeTags) : StaticType := ⟨tags, none, []⟩

/-- The type of an object declared under `symbol`. -/
def ofSymbol (symbol : Symbol) : StaticType := ⟨.object, some symbol, []⟩

/-- The union of some types. -/
def ofMembers (members : List StaticType) : StaticType := ⟨.union, none, members⟩

/-- Whether the type is `any`. -/
def isAny (t : StaticType) : Bool := t.tags.contains .any

mutual

/-- A type is a string type if all its tags say so; a union, if it has members and all of them
are string types. -/
def isString : StaticType → Bool
  | ⟨tags, _, members⟩ =>
    if tags.contains .union then !members.isEmpty && allString members
    else !tags.isEmpty && TypeTags.stringLike.contains tags

/-- Whether all types of a list are string types. -/
def allString : List StaticType → Bool
  | [] => true
  | t :: ts => isString t && allString ts

end

mutual

/-- The type's own symbol, or else the first one found among its members, depth first. -/
def firstSymbol? : StaticType → Option Symbol
  | ⟨_, some symbol, _⟩ => some symbol
  | ⟨_, none, members⟩ => firstSymbolIn? members

/-- The first symbol that a type of the list has. -/
def firstSymbolIn? : List StaticType → Option Symbol
  | [] => none
  | t :: ts => (firstSymbol? t).or (firstSymbolIn? ts)

end

end StaticType

end ExprLowering
