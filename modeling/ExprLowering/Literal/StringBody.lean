/-!
# Bodies of target strings

All strings of the target language are written between double quotes. A string body is what
stands between them. It is made in three ways: from a quoted source string, from the text of a
template, and from a decoded value.

## Main definitions

* `StringBody.ofQuoted`: both languages share their escapes, so the body is copied; in a
  single-quoted string a bare double quote gets an escape.
* `StringBody.ofTemplate`: the escapes that only templates have are dissolved, and double quotes
  and line breaks get escapes.
* `StringBody.ofText`: every character that cannot stand for itself gets an escape.
-/

namespace ExprLowering.StringBody

/-- The text without its first and last character. -/
def withoutEnds (raw : List Char) : List Char := (raw.drop 1).dropLast

/-- Escapes the double quotes that are not escaped yet. -/
def escapeQuotes : List Char → List Char
  | '\\' :: c :: rest => '\\' :: c :: escapeQuotes rest
  | '"' :: rest => '\\' :: '"' :: escapeQuotes rest
  | c :: rest => c :: escapeQuotes rest
  | [] => []

/-- The body of a source string given with its quotes. -/
def ofQuoted (raw : String) : String :=
  let body := withoutEnds raw.toList
  String.ofList (if raw.toList.head? = some '\'' then escapeQuotes body else body)

/-- The body for the text of a template. An escaped backquote or dollar sign stands for itself, an
escaped line break for nothing, and every other escape is kept; a carriage return and a following
line feed are one line break. -/
def templateChars : List Char → List Char
  | '\\' :: '\x60' :: rest => '\x60' :: templateChars rest
  | '\\' :: '$' :: rest => '$' :: templateChars rest
  | '\\' :: '\n' :: rest => templateChars rest
  | '\\' :: '\r' :: '\n' :: rest => templateChars rest
  | '\\' :: '\r' :: rest => templateChars rest
  | '\\' :: c :: rest => '\\' :: c :: templateChars rest
  | '"' :: rest => '\\' :: '"' :: templateChars rest
  | '\r' :: '\n' :: rest => '\\' :: '\r' :: '\n' :: templateChars rest
  | '\r' :: rest => '\\' :: '\r' :: templateChars rest
  | '\n' :: rest => '\\' :: '\n' :: templateChars rest
  | c :: rest => c :: templateChars rest
  | [] => []

/-- The body for the text of a template, without its delimiters. -/
def ofTemplate (text : String) : String := String.ofList (templateChars text.toList)

/-- The body of a template without substitutions, given with its backquotes. -/
def ofQuotedTemplate (raw : String) : String :=
  String.ofList (templateChars (withoutEnds raw.toList))

/-- Control characters: the first 32 characters, the delete character, and the 32 after it. -/
def isControl (c : Char) : Bool := c.toNat < 0x20 || (0x7f ≤ c.toNat && c.toNat < 0xa0)

/-- A byte as an escape of three decimal digits. -/
def byteEscape (b : UInt8) : List Char :=
  ['\\', Nat.digitChar (b.toNat / 100), Nat.digitChar (b.toNat / 10 % 10),
    Nat.digitChar (b.toNat % 10)]

/-- A character of a decoded text, escaped if it cannot stand for itself. -/
def escapeChar (c : Char) : List Char :=
  match c with
  | '\\' => ['\\', '\\']
  | '"' => ['\\', '"']
  | '\n' => ['\\', 'n']
  | '\r' => ['\\', 'r']
  | '\t' => ['\\', 't']
  | c => if isControl c then (String.utf8EncodeChar c).flatMap byteEscape else [c]

/-- The body that stands for a decoded text. -/
def ofText (value : String) : String := String.ofList (value.toList.flatMap escapeChar)

end ExprLowering.StringBody
