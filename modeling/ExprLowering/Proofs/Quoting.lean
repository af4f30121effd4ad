import ExprLowering.Proofs.Ingredients

/-!
# Strings stay between their quotes

A string body may stand between two quotes if the text does not end early: every quote and every
line break in it is escaped, and the last character is no backslash that would escape the closing
quote. Three functions make string bodies, and all three make such bodies, from source strings that
were themselves of this form, from template texts that do not end in the middle of an escape, and
from any decoded text.

## Main definitions

* `StringBody.isBody`: the text may stand between two quotes.
* `StringBody.isComplete`: the text does not end in the middle of an escape.
* `WellQuoted`: the strings and texts of an expression are spelled correctly.

## Main results

* `isBody_escapeQuotes`, `isBody_templateChars`, `isBody_flatMap_escapeChar`: what the three
  functions make.
* `strings_stay_quoted`: all strings in the lowering of a correctly spelled expression are bodies.
-/

namespace ExprLowering.StringBody

/-- Whether a text may stand between two quotes: it has no quote and no line break that is not
escaped, and it does not end in the middle of an escape. A backslash escapes the next character, and
a carriage return and a line feed together. -/
def isBody (quote : Char) : List Char → Bool
  | '\\' :: '\r' :: '\n' :: rest => isBody quote rest
  | '\\' :: _ :: rest => isBody quote rest
  | ['\\'] => false
  | c :: rest => c != quote && c != '\r' && c != '\n' && isBody quote rest
  | [] => true

/-- Whether a text does not end in the middle of an escape. -/
def isComplete : List Char → Bool
  | '\\' :: _ :: rest => isComplete rest
  | ['\\'] => false
  | _ :: rest => isComplete rest
  | [] => true

variable {quote c : Char} {rest : List Char}

theorem isBody_cons (h : c ≠ '\\') :
    isBody quote (c :: rest) = (c != quote && c != '\r' && c != '\n' && isBody quote rest) := by
  rw [isBody]
  · exact fun _ hc _ => h hc
  · exact fun _ _ hc _ => h hc
  · exact fun hc _ => h hc

/-- A character that is neither the quote nor a line break nor a backslash stands for itself. -/
theorem isBody_plain (hc : c ≠ '\\' ∧ c ≠ quote ∧ c ≠ '\r' ∧ c ≠ '\n')
    (h : isBody quote rest = true) : isBody quote (c :: rest) = true := by
  obtain ⟨hescape, hquote, hreturn, hfeed⟩ := hc
  simp [isBody_cons hescape, hquote, hreturn, hfeed, h]

/-- A character can be escaped before any body: the body does not start with a line feed, so the
escape takes that character only. -/
theorem isBody_escape (c : Char) (h : isBody quote rest = true) :
    isBody quote ('\\' :: c :: rest) = true := by
  rw [isBody]
  · exact h
  · rintro tail - rfl
    simp [isBody_cons] at h

theorem isComplete_cons (h : c ≠ '\\') : isComplete (c :: rest) = isComplete rest := by
  rw [isComplete]
  · exact fun _ _ hc _ => h hc
  · exact fun hc _ => h hc

-- ════════════════════════════════════════════════════════════════════════
-- Quoted strings
-- ════════════════════════════════════════════════════════════════════════

theorem escapeQuotes_cons (hescape : c ≠ '\\') (hquote : c ≠ '"') :
    escapeQuotes (c :: rest) = c :: escapeQuotes rest := by
  rw [escapeQuotes]
  · exact fun _ _ hc _ => hescape hc
  · exact hquote

/-- With its double quotes escaped, what stands between single quotes may stand between double
quotes. -/
theorem isBody_escapeQuotes {body : List Char} (h : isBody '\'' body = true) :
    isBody '"' (escapeQuotes body) = true := by
  fun_induction isBody '\'' body with
  | case1 rest ih =>
    have hfeed : escapeQuotes ('\n' :: rest) = '\n' :: escapeQuotes rest :=
      escapeQuotes_cons (by decide) (by decide)
    rw [escapeQuotes, hfeed, isBody]
    exact ih h
  | case2 c rest _ ih =>
    rw [escapeQuotes]
    exact isBody_escape c (ih h)
  | case3 => cases h
  | case4 c rest _ hpair hend ih =>
    have hescape : c ≠ '\\' := by
      rintro rfl
      cases rest with
      | nil => exact hend rfl rfl
      | cons d tail => exact hpair d tail rfl rfl
    obtain ⟨⟨⟨-, hreturn⟩, hfeed⟩, hrest⟩ : ((c ≠ '\'' ∧ c ≠ '\r') ∧ c ≠ '\n') ∧ _ := by
      simpa using h
    by_cases hquote : c = '"'
    · subst hquote
      rw [escapeQuotes]
      exact isBody_escape '"' (ih hrest)
    · rw [escapeQuotes_cons hescape hquote]
      exact isBody_plain ⟨hescape, hquote, hreturn, hfeed⟩ (ih hrest)
  | case5 => rfl

-- ════════════════════════════════════════════════════════════════════════
-- Template texts
-- ════════════════════════════════════════════════════════════════════════

/-- The body for a text that does not end in the middle of an escape. -/
theorem isBody_templateChars {text : List Char} (h : isComplete text = true) :
    isBody '"' (templateChars text) = true := by
  fun_induction templateChars text with
  | case1 rest ih => exact isBody_plain (by decide) (ih h)
  | case2 rest ih => exact isBody_plain (by decide) (ih h)
  | case3 rest ih => exact ih h
  | case4 rest ih =>
    rw [isComplete, isComplete_cons (by decide)] at h
    exact ih h
  | case5 rest _ ih => exact ih h
  | case6 c rest _ _ _ _ _ ih => exact isBody_escape c (ih h)
  | case7 rest ih =>
    rw [isComplete_cons (by decide)] at h
    exact isBody_escape '"' (ih h)
  | case8 rest ih =>
    rw [isComplete_cons (by decide), isComplete_cons (by decide)] at h
    exact ih h
  | case9 rest _ ih =>
    rw [isComplete_cons (by decide)] at h
    exact isBody_escape '\r' (ih h)
  | case10 rest ih =>
    rw [isComplete_cons (by decide)] at h
    exact isBody_escape '\n' (ih h)
  | case11 c rest _ _ _ _ _ hpair hquote _ hreturn hfeed ih =>
    -- A backslash would have to be the last character, where the text is not complete.
    have hescape : c ≠ '\\' := by
      rintro rfl
      cases rest with
      | nil => cases h
      | cons d tail => exact hpair d tail rfl rfl
    rw [isComplete_cons hescape] at h
    exact isBody_plain ⟨hescape, hquote, hreturn, hfeed⟩ (ih h)
  | case12 => rfl

-- ════════════════════════════════════════════════════════════════════════
-- Decoded texts
-- ════════════════════════════════════════════════════════════════════════

theorem isBody_digit {d : Nat} (hd : d < 10) (h : isBody '"' rest = true) :
    isBody '"' (Nat.digitChar d :: rest) = true := by
  have hplain : ∀ d < 10, Nat.digitChar d ≠ '\\' ∧ Nat.digitChar d ≠ '"' ∧
      Nat.digitChar d ≠ '\r' ∧ Nat.digitChar d ≠ '\n' := by decide
  exact isBody_plain (hplain d hd) h

theorem isBody_byteEscape (b : UInt8) (h : isBody '"' rest = true) :
    isBody '"' (byteEscape b ++ rest) = true :=
  isBody_escape _ (isBody_digit (Nat.mod_lt _ (by decide))
    (isBody_digit (Nat.mod_lt _ (by decide)) h))

theorem isBody_flatMap_byteEscape (bytes : List UInt8) (h : isBody '"' rest = true) :
    isBody '"' (bytes.flatMap byteEscape ++ rest) = true := by
  induction bytes with
  | nil => exact h
  | cons b bytes ih =>
    rw [List.flatMap_cons, List.append_assoc]
    exact isBody_byteEscape b ih

theorem isBody_escapeChar (c : Char) (h : isBody '"' rest = true) :
    isBody '"' (escapeChar c ++ rest) = true := by
  rw [escapeChar.eq_def]
  split
  · exact isBody_escape _ h
  · exact isBody_escape _ h
  · exact isBody_escape _ h
  · exact isBody_escape _ h
  · exact isBody_escape _ h
  · rename_i hescape hquote hfeed hreturn _
    split
    · exact isBody_flatMap_byteEscape _ h
    · exact isBody_plain ⟨hescape, hquote, hreturn, hfeed⟩ h

/-- Every text has a body. -/
theorem isBody_flatMap_escapeChar (text : List Char) :
    isBody '"' (text.flatMap escapeChar) = true := by
  induction text with
  | nil => rfl
  | cons c text ih => exact isBody_escapeChar c ih

-- ════════════════════════════════════════════════════════════════════════
-- Bodies of source strings
-- ════════════════════════════════════════════════════════════════════════

theorem withoutEnds_delimited (opening closing : Char) (text : List Char) :
    withoutEnds (opening :: (text ++ [closing])) = text := by
  simp [withoutEnds]

/-- The text is a body between two equal quotes. -/
def IsQuoted (raw : String) : Prop :=
  ∃ quote body, (quote = '\'' ∨ quote = '"') ∧ raw.toList = quote :: (body ++ [quote]) ∧
    isBody quote body = true

/-- The text stands between backquotes and does not end in the middle of an escape. -/
def IsQuotedTemplate (raw : String) : Prop :=
  ∃ text, raw.toList = '\x60' :: (text ++ ['\x60']) ∧ isComplete text = true

theorem isBody_ofQuoted {raw : String} (h : IsQuoted raw) :
    isBody '"' (ofQuoted raw).toList = true := by
  obtain ⟨quote, body, hquote, hraw, hbody⟩ := h
  rw [ofQuoted, String.toList_ofList, hraw, withoutEnds_delimited]
  obtain rfl | rfl := hquote
  · exact isBody_escapeQuotes hbody
  · exact hbody

theorem isBody_ofQuotedTemplate {raw : String} (h : IsQuotedTemplate raw) :
    isBody '"' (ofQuotedTemplate raw).toList = true := by
  obtain ⟨text, hraw, htext⟩ := h
  rw [ofQuotedTemplate, String.toList_ofList, hraw, withoutEnds_delimited]
  exact isBody_templateChars htext

theorem isBody_ofTemplate {text : String} (h : isComplete text.toList = true) :
    isBody '"' (ofTemplate text).toList = true := by
  rw [ofTemplate, String.toList_ofList]
  exact isBody_templateChars h

theorem isBody_ofText (value : String) : isBody '"' (ofText value).toList = true := by
  rw [ofText, String.toList_ofList]
  exact isBody_flatMap_escapeChar _

end ExprLowering.StringBody

namespace ExprLowering.Lowering

open StringBody Target

/-- The strings and template texts that the expression itself consists of are spelled correctly. -/
def WellQuoted : Source.Expr → Prop
  | .literal (.string raw) _ => IsQuoted raw
  | .literal (.template raw) _ => IsQuotedTemplate raw
  | .template head parts _ =>
    isComplete head.toList = true ∧ ∀ part ∈ parts, isComplete part.text.toList = true
  | _ => True

/-- If the expression is a string, then it may stand between double quotes. -/
def Quotable : Expr → Prop
  | .string body => isBody '"' body.toList = true
  | _ => True

/-- The ingredients of a correctly spelled expression: of the strings among them each has its
spelling from the source or from a decoded text. -/
theorem quotable_of_ingredient {facts : Facts} {nodes : List Source.Expr}
    {reports : List Diagnostic} (hsource : ∀ d ∈ nodes, WellQuoted d) :
    Admits Quotable facts nodes reports := by
  intro m hm
  cases hm with
  | noText => exact (rfl : isBody '"' [] = true)
  | quoted hmem => exact isBody_ofQuoted (hsource _ hmem)
  | quotedTemplate hmem => exact isBody_ofQuotedTemplate (hsource _ hmem)
  | headText hmem => exact isBody_ofTemplate (hsource _ hmem).1
  | partText hmem hpart => exact isBody_ofTemplate ((hsource _ hmem).2 _ hpart)
  | constant => exact isBody_ofText _
  | _ => trivial

/-- No string breaks out of its quotes: all strings in the statements and the value for a correctly
spelled expression may stand between double quotes, whatever constants are known. -/
theorem strings_stay_quoted {ctx : Context} {e : Source.Expr} {out : Output}
    (hsource : ∀ d ∈ e.nodes, WellQuoted d) (hout : lowerAlone ctx e = .ok out) {body : String}
    (hbody : .string body ∈ out.nodes) : isBody '"' body.toList = true :=
  every_node_of_lowerAlone hout (quotable_of_ingredient hsource) _ hbody

/-- A template with a double quote and a line break in its text. Its first value is a double quote
between single quotes, and its second one assigns a constant with a control character. -/
theorem template_strings_stay_quoted :
    let ctx : Context := ⟨Facts.empty.withConstant (.point 1 4) (.text "\x01\"9"), ⟨true, true⟩⟩
    let member : Source.Expr :=
      .property (.name "o" (.point 1 3)) "k" (.point 1 5) false (.point 1 4)
    let e : Source.Expr := .template "say \"\r\n"
      [⟨.literal (.string "'\"'") (.point 1 1), "\\\x60", .point 1 8⟩,
        ⟨.binary (.name "x" (.point 1 2)) .assign member (.point 1 6), "\\\r", .point 1 9⟩]
      (.point 1 7)
    let head := ofTemplate "say \"\r\n"
    let constant := ofText "\x01\"9"
    let out : Output := ⟨[.assign (.name "x") .set (.string constant)],
      concatenation [.string head, .call (.name "tostring") [.string (ofQuoted "'\"'")],
        .string (ofTemplate "\\\x60"), .call (.name "tostring") [.string constant],
        .string (ofTemplate "\\\r")], [], 0, 0⟩
    lowerAlone ctx e = .ok out ∧
      (.string head ∈ out.nodes ∧ head = "say \\\"\\\r\n" ∧ isBody '"' head.toList = true) ∧
      (.string constant ∈ out.nodes ∧ constant = "\\001\\\"9" ∧
        isBody '"' constant.toList = true) := by
  intro ctx member e head constant out
  have hout : lowerAlone ctx e = .ok out := by
    simp only [ctx, e, member, out, head, constant]
    rfl
  have hsource : ∀ d ∈ e.nodes, WellQuoted d := by
    suffices h : (isComplete ['s', 'a', 'y', ' ', '"', '\r', '\n'] = true ∧
        isComplete ['\\', '\x60'] = true ∧ isComplete ['\\', '\r'] = true) ∧
        ∃ body, ['"', '\''] = body ++ ['\''] ∧ isBody '\'' body = true by
      simpa [e, member, Source.Expr.nodes, Source.partNodes, WellQuoted, IsQuoted] using h
    exact ⟨by decide, ['"'], by decide⟩
  have hhead : .string head ∈ out.nodes := by
    simp [out, Output.nodes, concatenation, Expr.nodes]
  have hconstant : .string constant ∈ out.nodes := by
    simp [out, Output.nodes, Stmt.nodes, Expr.nodes]
  exact ⟨hout, ⟨hhead, by decide, strings_stay_quoted hsource hout hhead⟩, hconstant, by decide,
    strings_stay_quoted hsource hout hconstant⟩

end ExprLowering.Lowering
