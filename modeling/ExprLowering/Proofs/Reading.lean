import ExprLowering.Lowering.Literal
import ExprLowering.Proofs.Quoting

/-!
# What strings stand for

Source strings, template texts and target strings are read character by character, and a backslash
gives the next character another meaning. Both languages have the same escapes, with two exceptions:
an escaped line break stands for nothing in the source and for a line feed in the target, and only
templates have escapes for backquotes and dollar signs. Besides, raw line breaks may stand in
templates, where each of them is read as a line feed.

The body for a template text stands for what the text stands for. The body for a quoted string does
so as well, except that escaped line breaks are copied and become line feeds.

## Main definitions

* `escapeMeaning`, `templateEscapeMeaning`: what a backslash and a character stand for.
* `read`: what a text between quotes stands for.
* `readTemplate`: what a template text stands for.

## Main results

* `readTarget_templateChars`, `read_escapeQuotes`: how the bodies that are made are read.
* `template_text_keeps_meaning`: template texts and their bodies.
* `quoted_text_keeps_meaning_iff`: quoted strings and their bodies.
-/

namespace ExprLowering.StringBody

-- ════════════════════════════════════════════════════════════════════════
-- Readings
-- ════════════════════════════════════════════════════════════════════════

/-- What a backslash and a character stand for in quoted strings. An escaped line break stands for
`joint`. -/
def escapeMeaning (joint : List Char) : Char → Option (List Char)
  | 'n' => some ['\n']
  | 'r' => some ['\r']
  | 't' => some ['\t']
  | 'b' => some ['\x08']
  | 'f' => some ['\x0c']
  | 'v' => some ['\x0b']
  | '\\' => some ['\\']
  | '"' => some ['"']
  | '\'' => some ['\'']
  | '\n' | '\r' => some joint
  | _ => none

/-- What a backslash and a character stand for in templates. -/
def templateEscapeMeaning (c : Char) : Option (List Char) :=
  if c = '\x60' ∨ c = '$' then some [c] else escapeMeaning [] c

/-- What a text between two quotes stands for, if it can stand there and all its escapes have a
meaning. A carriage return and a line feed after a backslash are one line break, and an escaped line
break stands for `joint`. -/
def read (quote : Char) (joint : List Char) : List Char → Option (List Char)
  | '\\' :: '\r' :: '\n' :: rest => (read quote joint rest).map (joint ++ ·)
  | '\\' :: c :: rest =>
    (escapeMeaning joint c).bind fun meaning => (read quote joint rest).map (meaning ++ ·)
  | ['\\'] => none
  | c :: rest =>
    if c = quote ∨ c = '\r' ∨ c = '\n' then none else (read quote joint rest).map (c :: ·)
  | [] => some []

/-- What a source string between the given quotes stands for: an escaped line break continues the
line. -/
abbrev readSource (quote : Char) : List Char → Option (List Char) := read quote []

/-- What the body of a target string stands for: an escaped line break is a line feed. -/
abbrev readTarget : List Char → Option (List Char) := read '"' ['\n']

/-- What a template text stands for, if all its escapes have a meaning. A raw line break stands for
a line feed, and an escaped one for nothing. -/
def readTemplate : List Char → Option (List Char)
  | '\\' :: '\r' :: '\n' :: rest => readTemplate rest
  | '\\' :: c :: rest =>
    (templateEscapeMeaning c).bind fun meaning => (readTemplate rest).map (meaning ++ ·)
  | ['\\'] => none
  | '\r' :: '\n' :: rest => (readTemplate rest).map ('\n' :: ·)
  | '\r' :: rest => (readTemplate rest).map ('\n' :: ·)
  | c :: rest => (readTemplate rest).map (c :: ·)
  | [] => some []

/-- Whether each backslash in a text starts an escape that has a meaning. -/
def escapesKnown (meaning : Char → Option (List Char)) : List Char → Bool
  | '\\' :: c :: rest => (meaning c).isSome && escapesKnown meaning rest
  | ['\\'] => false
  | _ :: rest => escapesKnown meaning rest
  | [] => true

/-- How many line breaks in a text are escaped. -/
def continuations : List Char → Nat
  | '\\' :: '\r' :: '\n' :: rest => continuations rest + 1
  | '\\' :: c :: rest => continuations rest + if c = '\r' ∨ c = '\n' then 1 else 0
  | _ :: rest => continuations rest
  | [] => 0

variable {quote c : Char} {joint rest : List Char}

theorem escapeMeaning_lineBreak (h : c = '\r' ∨ c = '\n') : escapeMeaning joint c = some joint := by
  rcases h with rfl | rfl
  · rfl
  · rfl

/-- Only line breaks have an escape that depends on the language. -/
theorem escapeMeaning_other (h : ¬(c = '\r' ∨ c = '\n')) (joint' : List Char) :
    escapeMeaning joint c = escapeMeaning joint' c := by
  unfold escapeMeaning
  split <;> simp_all

/-- A backslash would start an escape or stand at the end. -/
theorem ne_backslash (hpair : ∀ d tail, c = '\\' → rest = d :: tail → False)
    (hend : c = '\\' → rest = [] → False) : c ≠ '\\' := by
  intro hc
  cases rest with
  | nil => exact hend hc rfl
  | cons d tail => exact hpair d tail hc rfl

theorem read_cons (h : c ≠ '\\') :
    read quote joint (c :: rest) =
      if c = quote ∨ c = '\r' ∨ c = '\n' then none else (read quote joint rest).map (c :: ·) := by
  rw [read]
  · exact fun _ hc _ => h hc
  · exact fun _ _ hc _ => h hc
  · exact fun hc _ => h hc

/-- A character that is neither the quote nor a line break nor a backslash stands for itself. -/
theorem read_plain (h : c ≠ '\\' ∧ c ≠ quote ∧ c ≠ '\r' ∧ c ≠ '\n') :
    read quote joint (c :: rest) = (read quote joint rest).map (c :: ·) := by
  rw [read_cons h.1, if_neg (by simp [h])]

/-- An escape takes one character, unless this and the next one are one line break. -/
theorem read_escape (h : ∀ tail, c = '\r' → rest ≠ '\n' :: tail) :
    read quote joint ('\\' :: c :: rest) =
      (escapeMeaning joint c).bind fun meaning => (read quote joint rest).map (meaning ++ ·) := by
  rw [read]
  exact h

theorem readTemplate_plain (hescape : c ≠ '\\') (hreturn : c ≠ '\r') :
    readTemplate (c :: rest) = (readTemplate rest).map (c :: ·) := by
  rw [readTemplate]
  · exact fun _ hc _ => hescape hc
  · exact fun _ _ hc _ => hescape hc
  · exact fun hc _ => hescape hc
  · exact fun _ hc _ => hreturn hc
  · exact hreturn

theorem readTemplate_escape (h : ∀ tail, c = '\r' → rest ≠ '\n' :: tail) :
    readTemplate ('\\' :: c :: rest) =
      (templateEscapeMeaning c).bind fun meaning => (readTemplate rest).map (meaning ++ ·) := by
  rw [readTemplate]
  exact h

theorem escapesKnown_cons {meaning : Char → Option (List Char)} (h : c ≠ '\\') :
    escapesKnown meaning (c :: rest) = escapesKnown meaning rest := by
  rw [escapesKnown]
  · exact fun _ _ hc _ => h hc
  · exact fun hc _ => h hc

theorem continuations_cons (h : c ≠ '\\') : continuations (c :: rest) = continuations rest := by
  rw [continuations]
  · exact fun _ hc _ => h hc
  · exact fun _ _ hc _ => h hc

-- ════════════════════════════════════════════════════════════════════════
-- Template texts
-- ════════════════════════════════════════════════════════════════════════

/-- A line feed never comes first in the body for a template text: it has a backslash before it. -/
theorem templateChars_ne_lineFeed (text tail : List Char) : templateChars text ≠ '\n' :: tail := by
  fun_induction templateChars text with
  | case3 rest ih => exact ih
  | case4 rest ih => exact ih
  | case5 rest _ ih => exact ih
  | case11 c rest _ _ _ _ _ _ _ _ _ hfeed _ => exact fun h => hfeed (List.cons.inj h).1
  | _ => simp

/-- The body for a template text is read like the text itself. -/
theorem readTarget_templateChars (text : List Char) :
    readTarget (templateChars text) = readTemplate text := by
  unfold readTarget
  fun_induction templateChars text with
  | case1 rest ih =>
    rw [read_plain (by decide), readTemplate_escape (by simp), ih]
    rfl
  | case2 rest ih =>
    rw [read_plain (by decide), readTemplate_escape (by simp), ih]
    rfl
  | case3 rest ih =>
    rw [readTemplate_escape (by simp), ih]
    exact Option.map_id'.symm
  | case4 rest ih => rw [readTemplate, ih]
  | case5 rest hpair ih =>
    rw [readTemplate_escape fun tail _ => hpair tail, ih]
    exact Option.map_id'.symm
  | case6 c rest hquote hdollar hfeed _ hreturn ih =>
    have hmeaning : templateEscapeMeaning c = escapeMeaning ['\n'] c := by
      rw [templateEscapeMeaning, if_neg fun h => h.elim hquote hdollar]
      exact escapeMeaning_other (fun h => h.elim hreturn hfeed) _
    rw [read_escape fun tail hc => absurd hc hreturn,
      readTemplate_escape fun tail hc => absurd hc hreturn, ih, hmeaning]
  | case7 rest ih =>
    rw [read_escape (by simp), readTemplate_plain (by decide) (by decide), ih]
    rfl
  | case8 rest ih =>
    rw [read, readTemplate, ih]
    rfl
  | case9 rest hpair ih =>
    -- Without a line feed after it in the text, the carriage return has none in the body either.
    rw [read_escape fun tail _ => templateChars_ne_lineFeed rest tail, readTemplate, ih]
    · rfl
    · exact hpair
  | case10 rest ih =>
    rw [read_escape (by simp), readTemplate_plain (by decide) (by decide), ih]
    rfl
  | case11 c rest _ _ _ _ _ hpair hquote _ hreturn hfeed ih =>
    by_cases hescape : c = '\\'
    · subst hescape
      cases rest with
      | nil => rfl
      | cons d tail => exact absurd rfl (hpair d tail rfl)
    · rw [read_plain ⟨hescape, hquote, hreturn, hfeed⟩, readTemplate_plain hescape hreturn, ih]
  | case12 => rfl

/-- A template text can be read exactly if all its escapes have a meaning. -/
theorem isSome_readTemplate (text : List Char) :
    (readTemplate text).isSome = escapesKnown templateEscapeMeaning text := by
  fun_induction readTemplate text with
  | case1 rest ih =>
    rw [escapesKnown, escapesKnown_cons (by decide), ih]
    rfl
  | case2 c rest _ ih =>
    rw [escapesKnown]
    cases templateEscapeMeaning c with
    | none => rfl
    | some meaning => simp [ih]
  | case3 => rfl
  | case4 rest ih => simp [escapesKnown_cons, ih]
  | case5 rest _ ih => simp [escapesKnown_cons, ih]
  | case6 c rest _ hpair hend _ _ ih => simp [escapesKnown_cons (ne_backslash hpair hend), ih]
  | case7 => rfl

-- ════════════════════════════════════════════════════════════════════════
-- Quoted strings
-- ════════════════════════════════════════════════════════════════════════

theorem ne_lineFeed_of_isBody (h : isBody quote rest = true) (tail : List Char) :
    rest ≠ '\n' :: tail := by
  rintro rfl
  simp [isBody_cons] at h

/-- With its double quotes escaped, what stands between single quotes is read the same between
double quotes. -/
theorem read_escapeQuotes {body : List Char} (h : isBody '\'' body = true) :
    read '"' joint (escapeQuotes body) = read '\'' joint body := by
  fun_induction isBody '\'' body with
  | case1 rest ih =>
    have hfeed : escapeQuotes ('\n' :: rest) = '\n' :: escapeQuotes rest :=
      escapeQuotes_cons (by decide) (by decide)
    rw [escapeQuotes, hfeed, read, read, ih h]
  | case2 c rest _ ih =>
    have hquoted := ne_lineFeed_of_isBody (isBody_escapeQuotes h)
    rw [escapeQuotes, read_escape fun tail _ => hquoted tail,
      read_escape fun tail _ => ne_lineFeed_of_isBody h tail, ih h]
  | case3 => cases h
  | case4 c rest _ hpair hend ih =>
    have hescape := ne_backslash hpair hend
    obtain ⟨⟨⟨hsingle, hreturn⟩, hfeed⟩, hrest⟩ : ((c ≠ '\'' ∧ c ≠ '\r') ∧ c ≠ '\n') ∧ _ := by
      simpa using h
    rw [read_plain ⟨hescape, hsingle, hreturn, hfeed⟩, ← ih hrest]
    by_cases hquote : c = '"'
    · subst hquote
      rw [escapeQuotes, read_escape (by simp)]
      rfl
    · rw [escapeQuotes_cons hescape hquote, read_plain ⟨hescape, hquote, hreturn, hfeed⟩]
  | case5 => rfl

/-- A text between quotes can be read exactly if it may stand there and all its escapes have a
meaning. -/
theorem isSome_read (quote : Char) (joint text : List Char) :
    (read quote joint text).isSome =
      (isBody quote text && escapesKnown (escapeMeaning joint) text) := by
  fun_induction read quote joint text with
  | case1 rest ih =>
    rw [isBody, escapesKnown, escapesKnown_cons (by decide)]
    simp [ih, escapeMeaning]
  | case2 c rest hpair ih =>
    rw [escapesKnown, isBody]
    · cases escapeMeaning joint c with
      | none => simp
      | some meaning => simp [ih]
    · exact hpair
  | case3 => rfl
  | case4 c rest _ hpair hend hc =>
    rw [isBody_cons (ne_backslash hpair hend)]
    rcases hc with rfl | rfl | rfl <;> simp
  | case5 c rest _ hpair hend hc ih =>
    have hescape := ne_backslash hpair hend
    have hplain : (c != quote && c != '\r' && c != '\n') = true := by
      simpa [and_assoc] using hc
    rw [isBody_cons hescape, escapesKnown_cons hescape, hplain, Option.isSome_map, ih,
      Bool.true_and]
  | case6 => rfl

theorem length_map_append (as bs : List Char) {x y : Option (List Char)} {k l : Nat}
    (h : x.map List.length = y.map (·.length + k)) (hadd : as.length + k = bs.length + l) :
    (x.map (as ++ ·)).map List.length = (y.map (bs ++ ·)).map (·.length + l) := by
  cases x with
  | none =>
    cases y with
    | none => rfl
    | some y => cases h
  | some x =>
    cases y with
    | none => cases h
    | some y =>
      have hlength : x.length = y.length + k := Option.some.inj h
      simp
      omega

/-- What is read gets longer by the joint for each escaped line break. -/
theorem length_read (quote : Char) (joint text : List Char) :
    (read quote joint text).map List.length =
      (read quote [] text).map (·.length + joint.length * continuations text) := by
  fun_induction read quote joint text with
  | case1 rest ih =>
    rw [read, continuations]
    exact length_map_append joint [] ih (by simp [Nat.mul_add, Nat.add_comm])
  | case2 c rest hpair ih =>
    rw [continuations, read_escape hpair]
    · by_cases hc : c = '\r' ∨ c = '\n'
      · rw [escapeMeaning_lineBreak hc, escapeMeaning_lineBreak hc, if_pos hc]
        exact length_map_append joint [] ih (by simp [Nat.mul_add, Nat.add_comm])
      · rw [escapeMeaning_other hc [], if_neg hc]
        cases escapeMeaning [] c with
        | none => rfl
        | some meaning => exact length_map_append meaning meaning ih rfl
    · exact hpair
  | case3 => rfl
  | case4 c rest _ hpair hend hc =>
    rw [read_cons (ne_backslash hpair hend), if_pos hc]
    rfl
  | case5 c rest _ hpair hend hc ih =>
    have hescape := ne_backslash hpair hend
    rw [read_cons hescape, if_neg hc, continuations_cons hescape]
    exact length_map_append [c] [c] ih rfl
  | case6 => rfl

/-- Without escaped line breaks it does not matter what these would stand for. -/
theorem read_of_continuations_eq_zero {text : List Char} (h : continuations text = 0)
    (joint' : List Char) : read quote joint text = read quote joint' text := by
  fun_induction read quote joint text with
  | case1 rest _ =>
    rw [continuations] at h
    cases h
  | case2 c rest hpair ih =>
    rw [continuations] at h
    · have hc : ¬(c = '\r' ∨ c = '\n') := by
        intro hbreak
        rw [if_pos hbreak] at h
        cases h
      rw [if_neg hc] at h
      rw [read_escape hpair, escapeMeaning_other hc joint', ih h]
    · exact hpair
  | case3 => rfl
  | case4 c rest _ hpair hend hc => rw [read_cons (ne_backslash hpair hend), if_pos hc]
  | case5 c rest _ hpair hend hc ih =>
    have hescape := ne_backslash hpair hend
    rw [continuations_cons hescape] at h
    rw [read_cons hescape, if_neg hc, ih h]
  | case6 => rfl

/-- The body for a quoted string is read like what stands between the quotes. -/
theorem read_ofQuoted {body : List Char} {raw : String} (hquote : quote = '\'' ∨ quote = '"')
    (hraw : raw.toList = quote :: (body ++ [quote])) (hbody : isBody quote body = true) :
    read '"' joint (ofQuoted raw).toList = read quote joint body := by
  rw [ofQuoted, String.toList_ofList, hraw, withoutEnds_delimited]
  rcases hquote with rfl | rfl
  · exact read_escapeQuotes hbody
  · rfl

end ExprLowering.StringBody

namespace ExprLowering.Lowering

open StringBody

-- ════════════════════════════════════════════════════════════════════════
-- Meanings that are kept
-- ════════════════════════════════════════════════════════════════════════

/-- Template text keeps its meaning: the body that is made for a text stands for the same characters
as the text. Both have a meaning exactly if all escapes in the text have one. -/
theorem template_text_keeps_meaning (text : String) :
    readTarget (ofTemplate text).toList = readTemplate text.toList ∧
      ((∃ value, readTemplate text.toList = some value) ↔
        escapesKnown templateEscapeMeaning text.toList = true) := by
  constructor
  · rw [ofTemplate, String.toList_ofList]
    exact readTarget_templateChars text.toList
  · rw [← isSome_readTemplate, Option.isSome_iff_exists]

example : readTemplate "\r\\\n\n\\\\\r\n\"\\$\\\r\\\"".toList =
    some ['\n', '\n', '\\', '\n', '"', '$', '"'] := by decide

/-- A quoted string keeps its meaning exactly if no line break in it is escaped. In general its body
stands for what the string would stand for if each escaped line break were a line feed, so that it
is longer than the string by the number of these line breaks. -/
theorem quoted_text_keeps_meaning_iff {quote : Char} {body : List Char} {raw : String}
    (hquote : quote = '\'' ∨ quote = '"') (hraw : raw.toList = quote :: (body ++ [quote]))
    (hbody : isBody quote body = true) (hknown : escapesKnown (escapeMeaning []) body = true) :
    ∃ target value lowered, literalValue (.string raw) = .string target ∧
      readSource quote body = some value ∧ readTarget target.toList = some lowered ∧
      read quote ['\n'] body = some lowered ∧
      lowered.length = value.length + continuations body ∧
      (lowered = value ↔ continuations body = 0) := by
  obtain ⟨value, hvalue⟩ : ∃ value, read quote [] body = some value := by
    rw [← Option.isSome_iff_exists, isSome_read, hbody, hknown]
    rfl
  have hlengths := length_read quote ['\n'] body
  rw [hvalue] at hlengths
  obtain ⟨lowered, hlowered, hlength⟩ := Option.map_eq_some_iff.1 hlengths
  replace hlength : lowered.length = value.length + continuations body := by simpa using hlength
  refine ⟨ofQuoted raw, value, lowered, rfl, hvalue, ?_, hlowered, hlength, ?_, ?_⟩
  · rw [readTarget, read_ofQuoted hquote hraw hbody, hlowered]
  · rintro rfl
    omega
  · intro hnone
    rw [read_of_continuations_eq_zero hnone [], hvalue] at hlowered
    exact (Option.some.inj hlowered).symm

/-- Between single quotes, double quotes and escapes keep their meaning. Between double quotes, an
escaped line break of two characters adds one line feed. -/
theorem quotes_and_line_breaks_read :
    let plain := ['"', '\\', '\'', '\\', '\\', 'n', '\\', 'n']
    let broken := ['a', '\\', '\r', '\n', 'b']
    (∃ target value lowered, literalValue (.string "'\"\\'\\\\n\\n'") = .string target ∧
        readSource '\'' plain = some value ∧ readTarget target.toList = some lowered ∧
        value = ['"', '\'', '\\', 'n', '\n'] ∧ lowered = value) ∧
      ∃ target value lowered, literalValue (.string "\"a\\\r\nb\"") = .string target ∧
        readSource '"' broken = some value ∧ readTarget target.toList = some lowered ∧
        value = ['a', 'b'] ∧ lowered.length = value.length + 1 ∧ lowered ≠ value := by
  intro plain broken
  obtain ⟨target, value, lowered, htarget, hvalue, hlowered, -, -, hkept⟩ :=
    @quoted_text_keeps_meaning_iff '\'' plain "'\"\\'\\\\n\\n'" (.inl rfl) (by decide) (by decide)
      (by decide)
  obtain ⟨target', value', lowered', htarget', hvalue', hlowered', -, hlength, hkept'⟩ :=
    @quoted_text_keeps_meaning_iff '"' broken "\"a\\\r\nb\"" (.inr rfl) (by decide) (by decide)
      (by decide)
  refine ⟨⟨target, value, lowered, htarget, hvalue, hlowered, ?_, hkept.2 (by decide)⟩,
    target', value', lowered', htarget', hvalue', hlowered', ?_, hlength, ?_⟩
  · exact (Option.some.inj hvalue).symm
  · exact (Option.some.inj hvalue').symm
  · exact fun hsame => absurd (hkept'.1 hsame) (by decide)

/-- A string that is continued on the next line: in the source it stands for `ab`, and its body for
`a` and `b` with a line feed between them. The body for the same text in a template has none. -/
theorem continued_line_gets_line_feed :
    "'a\\\nb'".toList = '\'' :: (['a', '\\', '\n', 'b'] ++ ['\'']) ∧
      isBody '\'' ['a', '\\', '\n', 'b'] = true ∧
      escapesKnown (escapeMeaning []) ['a', '\\', '\n', 'b'] = true ∧
      readSource '\'' ['a', '\\', '\n', 'b'] = some ['a', 'b'] ∧
      literalValue (.string "'a\\\nb'") = .string "a\\\nb" ∧
      readTarget "a\\\nb".toList = some ['a', '\n', 'b'] ∧
      literalValue (.template "\x60a\\\nb\x60") = .string "ab" := by
  refine ⟨by decide, by decide, by decide, by decide, ?_, by decide, ?_⟩
  · exact congrArg Target.Expr.string (by decide)
  · exact congrArg Target.Expr.string (by decide)

end ExprLowering.Lowering
