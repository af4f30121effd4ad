import ExprLowering.Lowering.Literal
import ExprLowering.Proofs.Quoting

/-!
# The bytes of a string

A string of the target language is a sequence of bytes. Its body is read from the left: a backslash
and up to three decimal digits stand for one byte, five other escapes for one character each, and
every other character for its UTF-8 encoding. The digits of an escape are taken greedily, so an
escape of fewer than three digits would swallow a digit that follows it.

## Main definitions

* `readBytes`: the bytes that a body stands for.

## Main results

* `readBytes_byteEscape`: the escape of a byte is read as that byte, whatever follows.
* `constant_text_round_trips`: the body for a text stands for the bytes of that text.
-/

namespace ExprLowering.StringBody

/-- The byte that a backslash and a character other than a digit stand for. -/
def escapedByte? : Char → Option UInt8
  | 'n' => some '\n'.toUInt8
  | 'r' => some '\r'.toUInt8
  | 't' => some '\t'.toUInt8
  | '\\' => some '\\'.toUInt8
  | '"' => some '"'.toUInt8
  | _ => none

/-- The byte that decimal digits stand for, if it is one. -/
def decimalByte? (digits : List Char) : Option UInt8 :=
  let value := Nat.ofDigitChars 10 digits 0
  if value < 256 then some (UInt8.ofNat value) else none

/-- The digits that belong to an escape: as many as there are, but at most three. -/
def escapeDigits (text : List Char) : List Char := (text.take 3).takeWhile Char.isDigit

/-- The bytes that the body of a string stands for, if all its escapes have a meaning. -/
def readBytes : List Char → Option (List UInt8)
  | [] => some []
  | '\\' :: c :: rest =>
    if c.isDigit then
      (decimalByte? (escapeDigits (c :: rest))).bind fun b =>
        (readBytes (rest.drop ((escapeDigits (c :: rest)).length - 1))).map (b :: ·)
    else
      (escapedByte? c).bind fun b => (readBytes rest).map (b :: ·)
  | ['\\'] => none
  | c :: rest => (readBytes rest).map (String.utf8EncodeChar c ++ ·)
termination_by text => text.length
decreasing_by all_goals simp only [List.length_cons, List.length_drop]; omega

theorem readBytes_plain {c : Char} (h : c ≠ '\\') (rest : List Char) :
    readBytes (c :: rest) = (readBytes rest).map (String.utf8EncodeChar c ++ ·) := by
  rw [readBytes]
  · exact fun _ _ hc _ => h hc
  · exact fun hc _ => h hc

theorem readBytes_escape {c : Char} {b : UInt8} (hdigit : c.isDigit = false)
    (hbyte : escapedByte? c = some b) (rest : List Char) :
    readBytes ('\\' :: c :: rest) = (readBytes rest).map (b :: ·) := by
  rw [readBytes, hdigit, hbyte]
  rfl

/-- The three digits of a number below a thousand spell it. -/
theorem ofDigitChars_three_digits {n : Nat} (h : n < 1000) :
    Nat.ofDigitChars 10
      [Nat.digitChar (n / 100), Nat.digitChar (n / 10 % 10), Nat.digitChar (n % 10)] 0 = n := by
  have hvalue : ∀ d < 10, (Nat.digitChar d).toNat - '0'.toNat = d := by decide
  simp only [Nat.ofDigitChars, List.foldl_cons, List.foldl_nil]
  rw [hvalue (n / 100) (by omega), hvalue (n / 10 % 10) (by omega), hvalue (n % 10) (by omega)]
  omega

/-- An escape takes three digits where there are three, also if a further digit follows. -/
theorem readBytes_digits {x y z : Char} {b : UInt8} (hx : x.isDigit = true) (hy : y.isDigit = true)
    (hz : z.isDigit = true) (hbyte : decimalByte? [x, y, z] = some b) (rest : List Char) :
    readBytes ('\\' :: x :: y :: z :: rest) = (readBytes rest).map (b :: ·) := by
  have hdigits : escapeDigits (x :: y :: z :: rest) = [x, y, z] := by
    simp [escapeDigits, hx, hy, hz]
  rw [readBytes, if_pos hx, hdigits, hbyte]
  rfl

/-- A byte is read from its escape, whatever follows. -/
theorem readBytes_byteEscape (b : UInt8) (rest : List Char) :
    readBytes (byteEscape b ++ rest) = (readBytes rest).map (b :: ·) := by
  have hb : b.toNat < 256 := UInt8.toNat_lt_size b
  have hisDigit : ∀ d < 10, (Nat.digitChar d).isDigit = true := by decide
  apply readBytes_digits (hisDigit _ (by omega)) (hisDigit _ (by omega)) (hisDigit _ (by omega))
  rw [decimalByte?, ofDigitChars_three_digits (by omega), if_pos hb, UInt8.ofNat_toNat]

/-- Bytes are read from their escapes. -/
theorem readBytes_flatMap_byteEscape (bytes : List UInt8) (rest : List Char) :
    readBytes (bytes.flatMap byteEscape ++ rest) = (readBytes rest).map (bytes ++ ·) := by
  induction bytes with
  | nil => exact Option.map_id'.symm
  | cons b bytes ih =>
    rw [List.flatMap_cons, List.append_assoc, readBytes_byteEscape, ih, Option.map_map]
    rfl

/-- A character is read as its encoding, however it was escaped. -/
theorem readBytes_escapeChar (c : Char) (rest : List Char) :
    readBytes (escapeChar c ++ rest) = (readBytes rest).map (String.utf8EncodeChar c ++ ·) := by
  rw [escapeChar.eq_def]
  split
  · exact readBytes_escape (by decide) rfl rest
  · exact readBytes_escape (by decide) rfl rest
  · exact readBytes_escape (by decide) rfl rest
  · exact readBytes_escape (by decide) rfl rest
  · exact readBytes_escape (by decide) rfl rest
  · rename_i hescape _ _ _ _
    split
    · exact readBytes_flatMap_byteEscape _ rest
    · exact readBytes_plain hescape rest

theorem readBytes_flatMap_escapeChar (text : List Char) :
    readBytes (text.flatMap escapeChar) = some (text.flatMap String.utf8EncodeChar) := by
  induction text with
  | nil => rw [List.flatMap_nil, readBytes, List.flatMap_nil]
  | cons c text ih =>
    rw [List.flatMap_cons, readBytes_escapeChar, ih, List.flatMap_cons]
    rfl

/-- The body for a text is read as the text's bytes. -/
theorem readBytes_ofText (value : String) :
    readBytes (ofText value).toList = some value.toUTF8.data.toList := by
  have hbytes : value.toUTF8.data.toList = value.toList.flatMap String.utf8EncodeChar := by
    show value.toByteArray.data.toList = _
    rw [← String.utf8Encode_toList, List.utf8Encode, List.data_toByteArray]
  rw [ofText, String.toList_ofList, readBytes_flatMap_escapeChar, hbytes]

end ExprLowering.StringBody

namespace ExprLowering.Lowering

open StringBody

/-- Constant texts survive lowering: the literal for a text may stand between double quotes and is
read as the bytes of that text, so no two texts have the same body. -/
theorem constant_text_round_trips :
    (∀ value : String, constantValue (.text value) = .string (ofText value) ∧
        isBody '"' (ofText value).toList = true ∧
        readBytes (ofText value).toList = some value.toUTF8.data.toList) ∧
      Function.Injective ofText := by
  constructor
  · intro value
    exact ⟨rfl, isBody_ofText value, readBytes_ofText value⟩
  · intro a b hbody
    have hread : some a.toUTF8.data.toList = some b.toUTF8.data.toList := by
      rw [← readBytes_ofText a, ← readBytes_ofText b, hbody]
    apply String.toByteArray_inj.1
    apply ByteArray.ext
    apply Array.toList_inj.1
    exact Option.some.inj hread

example : readBytes "\\0012\\194\\133\\7".toList = some [1, 50, 194, 133, 7] := by cbv

end ExprLowering.Lowering
