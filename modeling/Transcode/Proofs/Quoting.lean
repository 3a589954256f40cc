import Transcode.Proofs.Breaks
import Transcode.Target.Naming

/-!
# Strings in double quotes

A string literal of a script gets double quotes in Python.  What it stands for are its glyphs:
characters and escapes, where the escape of a quote is that quote.  The new literal should have the
same glyphs (`denotes`), and it should end where it ends and not before (`IsLiteral`).

A literal in double quotes stays as it is.  In one in single quotes, every double quote gets a
backslash, also one that has a backslash already.  That backslash then escapes the new one, and the
quote ends the literal (`escaped_quote_ends_literal`).  This is the only thing that goes wrong:
literals without an escaped double quote are kept (`doubleQuoted_faithful_iff`).
-/

namespace Transcode.Target

open Text Script

/-! ### What literals stand for -/

/-- A part of a string: a character that stands for itself, or an escape. -/
inductive Glyph
  | char (c : Char)
  | escape (c : Char)
  deriving DecidableEq, Repr

/-- The glyphs of what stands between two quotes.  A backslash before a quote makes that quote, and
    every other escape is kept as it is. -/
def glyphs : List Char → List Glyph
  | '\\' :: c :: cs => (if c = '"' ∨ c = '\x27' then .char c else .escape c) :: glyphs cs
  | c :: cs => .char c :: glyphs cs
  | [] => []

/-- The characters that are escaped in what stands between two quotes. -/
def escaped : List Char → List Char
  | '\\' :: c :: cs => c :: escaped cs
  | _ :: cs => escaped cs
  | [] => []

/-- What stands between the quotes of a literal. -/
def interior (literal : String) : List Char :=
  literal.toList.tail.dropLast

/-- The glyphs that a literal stands for. -/
def denotes (literal : String) : List Glyph :=
  glyphs (interior literal)

/-- The text is a string literal in these quotes, from its first character to its last. -/
def IsLiteral (quote : Char) (text : String) : Prop :=
  ∃ cs, text.toList = quote :: cs ∧ scanToken quote cs = .token .string cs.length

/-! ### Between two quotes -/

/-- What can stand between two quotes. -/
inductive Quotable (quote : Char) : List Char → Prop
  | nil : Quotable quote []
  | escape {c : Char} {cs : List Char} : c ≠ '\n' → Quotable quote cs →
      Quotable quote ('\\' :: c :: cs)
  | char {c : Char} {cs : List Char} : c ≠ quote → c ≠ '\\' → isLineBreak c = false →
      Quotable quote cs → Quotable quote (c :: cs)

variable {quote c : Char} {cs rest : List Char} {k : Nat} {text source : String}

theorem Quotable.closes (h : Quotable quote cs) (rest : List Char) :
    Closes quote (cs ++ quote :: rest) (cs.length + 1) := by
  induction h with
  | nil => exact .last
  | escape hc _ ih => exact .escape hc ih
  | char hquote hback hbreak _ ih => exact .char hquote hback hbreak ih

/-- Up to its closing quote, a string is what can stand between quotes. -/
theorem quotable_of_closes (h : Closes quote cs k) :
    ∃ body rest, cs = body ++ quote :: rest ∧ k = body.length + 1 ∧ Quotable quote body := by
  induction h with
  | @last cs => exact ⟨[], cs, rfl, rfl, .nil⟩
  | @escape c cs k hc _ ih =>
    obtain ⟨body, rest, rfl, rfl, hbody⟩ := ih
    exact ⟨'\\' :: c :: body, rest, rfl, rfl, .escape hc hbody⟩
  | @char c cs k hquote hback hbreak _ ih =>
    obtain ⟨body, rest, rfl, rfl, hbody⟩ := ih
    exact ⟨c :: body, rest, rfl, rfl, .char hquote hback hbreak hbody⟩

theorem scanToken_quote (hquote : quote = '"' ∨ quote = '\x27') (cs : List Char) :
    scanToken quote cs = stringWidth quote cs := by
  rcases hquote with rfl | rfl <;> rfl

/-- A literal is something between two quotes. -/
theorem isLiteral_iff (hquote : quote = '"' ∨ quote = '\x27') :
    IsLiteral quote text ↔ ∃ cs, text.toList = quote :: (cs ++ [quote]) ∧ Quotable quote cs := by
  have hback : quote ≠ '\\' := by rcases hquote with rfl | rfl <;> decide
  simp only [IsLiteral, scanToken_quote hquote]
  constructor
  · rintro ⟨cs, htext, hwidth⟩
    obtain ⟨body, rest, rfl, hlength, hbody⟩ := quotable_of_closes (closes_of_stringWidth hwidth).2
    -- The closing quote is the last character, so that nothing is left after it.
    have hrest : rest = [] := by simpa using hlength
    exact ⟨body, by rw [htext, hrest], hbody⟩
  · rintro ⟨cs, htext, hcs⟩
    refine ⟨cs ++ [quote], htext, ?_⟩
    rw [(hcs.closes []).stringWidth hback]
    simp

/-- The lexer makes strings of what stands between quotes only. -/
theorem stringWidth_of_scanToken {c : Char} (h : scanToken c cs = .token .string k) :
    (c = '"' ∨ c = '\x27') ∧ stringWidth c cs = .token .string k := by
  generalize ht : Token.string = t at h
  cases scans_of_scanToken h with
  | string hc hwidth => exact ⟨hc, hwidth⟩
  | word =>
    have hkeywords : ∀ p ∈ Token.keywords, p.2 ≠ .string := by decide
    unfold wordToken at ht
    cases hlookup : Token.keywords.lookup (c :: cs.takeWhile isNameChar) with
    | none => simp [hlookup] at ht
    | some u =>
      obtain ⟨front, back, hsplit, -⟩ := List.lookup_eq_some_iff.mp hlookup
      simp only [hlookup, Option.getD_some] at ht
      exact absurd ht.symm (hkeywords _ (hsplit ▸ List.mem_append_right _ List.mem_cons_self))
  | number | lineComment | blockComment => cases ht
  | punctuator hpunctuator =>
    have hpunctuators : ∀ p ∈ Token.punctuators, p.2 ≠ .string := by decide
    exact absurd ht.symm (hpunctuators _ (punctuator?_eq_some hpunctuator).1)

/-- What the lexer takes for a string is a literal, in double quotes or in single ones. -/
theorem isLiteral_of_tokens {all : List Lexeme} {l : Lexeme} (h : tokens source = .ok all)
    (hl : l ∈ all) (hstring : l.token = .string) :
    IsLiteral '"' l.text ∨ IsLiteral '\x27' l.text := by
  obtain ⟨front, back, rfl⟩ := List.append_of_mem hl
  obtain ⟨before, c, more, after, -, -, htext, hscan, -⟩ := (lexes_of_tokensFrom h).split
  rw [hstring] at hscan
  obtain ⟨hc, hwidth⟩ := stringWidth_of_scanToken hscan
  obtain ⟨body, rest, hsplit, hlength, hbody⟩ :=
    quotable_of_closes (closes_of_stringWidth hwidth).2
  -- The token ends with its closing quote.
  have hmore : more = body ++ [c] := by
    have hall : more ++ after = body ++ [c] ++ rest := by simp [hsplit]
    exact (List.append_inj hall (by simp [hlength])).1
  have hliteral : IsLiteral c l.text :=
    (isLiteral_iff hc).mpr ⟨body, by simp [htext, hmore], hbody⟩
  rcases hc with rfl | rfl
  · exact .inl hliteral
  · exact .inr hliteral

/-! ### Quotes replaced -/

/-- A character stays unless it is a double quote or takes the escape from a single one. -/
theorem requote_cons (hdouble : c ≠ '"') (hsingle : c = '\\' → cs.head? ≠ some '\x27') :
    requote (c :: cs) = c :: requote cs := by
  cases cs with
  | nil => simp [requote]
  | cons d cs =>
    by_cases hback : c = '\\'
    · have hd : d ≠ '\x27' := by simpa using hsingle hback
      simp [requote, hback, hd]
    · simp [requote, hback]

theorem Quotable.head?_ne (h : Quotable quote cs) (hquote : quote ≠ '\\') :
    cs.head? ≠ some quote := by
  cases h with
  | nil => simp
  | escape => simpa using hquote.symm
  | char hc => simpa using hc

/-- An escape other than that of a quote stays. -/
theorem requote_escape (h : Quotable '\x27' cs) (hsingle : c ≠ '\x27') (hdouble : c ≠ '"') :
    requote ('\\' :: c :: cs) = '\\' :: c :: requote cs := by
  rw [requote_cons (by decide) (by simpa using hsingle), requote_cons hdouble]
  intro _
  exact h.head?_ne (by decide)

/-- Without an escaped double quote, what stood between single quotes can stand between double ones
    and stands for the same. -/
theorem requote_faithful (h : Quotable '\x27' cs) (hfree : '"' ∉ escaped cs) :
    Quotable '"' (requote cs) ∧ glyphs (requote cs) = glyphs cs := by
  induction h with
  | nil => exact ⟨.nil, rfl⟩
  | @escape c cs hc hcs ih =>
    simp only [escaped, List.mem_cons, not_or] at hfree
    obtain ⟨hquotable, hglyphs⟩ := ih hfree.2
    by_cases hsingle : c = '\x27'
    · subst hsingle
      refine ⟨.char (by decide) (by decide) (by decide) hquotable, ?_⟩
      simp [requote, glyphs, hglyphs]
    · rw [requote_escape hcs hsingle (Ne.symm hfree.1)]
      exact ⟨.escape hc hquotable, by simp [glyphs, hglyphs]⟩
  | @char c cs hsingle hback hbreak hcs ih =>
    have hrest : escaped (c :: cs) = escaped cs := by simp [escaped, hback]
    obtain ⟨hquotable, hglyphs⟩ := ih (hrest ▸ hfree)
    by_cases hdouble : c = '"'
    · -- The new backslash and the quote make that quote.
      subst hdouble
      exact ⟨.escape (by decide) hquotable, by simp [requote, glyphs, hglyphs]⟩
    · rw [requote_cons hdouble (fun heq => absurd heq hback)]
      exact ⟨.char hdouble hback hbreak hquotable, by simp [glyphs, hback, hglyphs]⟩

/-- With an escaped double quote, the literal ends at that quote. -/
theorem requote_ends_early (h : Quotable '\x27' cs) (hescaped : '"' ∈ escaped cs)
    (rest : List Char) :
    ∃ k ≤ (requote cs).length, Closes '"' (requote cs ++ rest) k := by
  induction h with
  | nil => simp [escaped] at hescaped
  | @escape c cs hc hcs ih =>
    by_cases hdouble : c = '"'
    · -- The old backslash escapes the new one, and the quote closes.
      subst hdouble
      exact ⟨3, by simp [requote], .escape (by decide) .last⟩
    · have hmem : '"' ∈ escaped cs := by simpa [escaped, Ne.symm hdouble] using hescaped
      obtain ⟨k, hle, hcloses⟩ := ih hmem
      by_cases hsingle : c = '\x27'
      · subst hsingle
        exact ⟨k + 1, by simpa [requote] using hle,
          .char (by decide) (by decide) (by decide) hcloses⟩
      · rw [requote_escape hcs hsingle hdouble]
        exact ⟨k + 2, by simpa using hle, .escape hc hcloses⟩
  | @char c cs hsingle hback hbreak hcs ih =>
    have hmem : '"' ∈ escaped cs := by simpa [escaped, hback] using hescaped
    obtain ⟨k, hle, hcloses⟩ := ih hmem
    by_cases hdouble : c = '"'
    · subst hdouble
      exact ⟨k + 2, by simpa [requote] using hle, .escape (by decide) hcloses⟩
    · rw [requote_cons hdouble (fun heq => absurd heq hback)]
      exact ⟨k + 1, by simpa using hle, .char hdouble hback hbreak hcloses⟩

/-! ### Literals -/

/-- Between the quotes of a literal stands all but its first and its last character. -/
theorem interior_eq (hquote : quote = '"' ∨ quote = '\x27')
    (h : text.toList = quote :: (cs ++ [quote])) :
    interior text = cs ∧ (unquote text).toList = cs := by
  have hwidth : quote.utf8Size = 1 := by rcases hquote with rfl | rfl <;> decide
  refine ⟨by simp [interior, h], ?_⟩
  have hslice := slice_append [quote] cs [quote]
  rw [List.append_assoc, List.singleton_append, ← h, String.ofList_toList] at hslice
  have hsize : text.utf8ByteSize - 1 = byteLength [quote] + byteLength cs := by
    simp only [utf8ByteSize_eq_byteLength, h, byteLength_cons, byteLength_append, byteLength_nil,
      hwidth]
    omega
  have hfirst : byteLength [quote] = 1 := by simp [hwidth]
  rw [unquote, hsize, ← hfirst, hslice, String.toList_ofList]

/-- **Requoting.**  A string of a source becomes a literal in double quotes that stands for the same,
    exactly if it is one already or no double quote is escaped in it. -/
theorem doubleQuoted_faithful_iff {all : List Lexeme} {l : Lexeme} (h : tokens source = .ok all)
    (hl : l ∈ all) (hstring : l.token = .string) :
    (IsLiteral '"' (doubleQuoted l.text) ∧ denotes (doubleQuoted l.text) = denotes l.text)
      ↔ (IsLiteral '"' l.text ∨ '"' ∉ escaped (interior l.text)) := by
  rcases isLiteral_of_tokens h hl hstring with hliteral | hliteral
  · obtain ⟨cs, htext, -⟩ := (isLiteral_iff (.inl rfl)).mp hliteral
    have hsame : doubleQuoted l.text = l.text := by simp [doubleQuoted, htext]
    simp [hsame, hliteral]
  · obtain ⟨cs, htext, hcs⟩ := (isLiteral_iff (.inr rfl)).mp hliteral
    obtain ⟨hinterior, hunquote⟩ := interior_eq (.inr rfl) htext
    have hnot : ¬ IsLiteral '"' l.text := by
      rintro ⟨cs', htext', -⟩
      simp [htext] at htext'
    have hnew : (doubleQuoted l.text).toList = '"' :: (requote cs ++ ['"']) := by
      simp [doubleQuoted, htext, hunquote]
    simp only [hnot, false_or, denotes, hinterior, (interior_eq (.inl rfl) hnew).1]
    constructor
    · rintro ⟨⟨cs', htext', hscan⟩, -⟩ hescaped
      -- It would have to end at its last character, and it ends before that.
      obtain ⟨k, hle, hcloses⟩ := requote_ends_early hcs hescaped ['"']
      rw [hnew, List.cons.injEq] at htext'
      rw [← htext'.2, scanToken_quote (.inl rfl), hcloses.stringWidth (by decide)] at hscan
      simp at hscan
      omega
    · intro hfree
      obtain ⟨hquotable, hglyphs⟩ := requote_faithful hcs hfree
      exact ⟨(isLiteral_iff (.inl rfl)).mpr ⟨_, hnew, hquotable⟩, hglyphs⟩

/-- A double quote that was escaped ends the literal. -/
theorem escaped_quote_ends_literal :
    ¬ ∀ (source : String) (all : List Lexeme) (l : Lexeme), tokens source = .ok all → l ∈ all →
      l.token = .string →
      IsLiteral '"' (doubleQuoted l.text) ∧ denotes (doubleQuoted l.text) = denotes l.text := by
  intro hclaim
  have htokens : tokens "'\\\"';" = .ok [⟨.string, 0, "'\\\"'"⟩, ⟨.semicolon, 4, ";"⟩] := by
    decide +kernel
  obtain ⟨⟨cs, htext, hscan⟩, -⟩ := hclaim _ _ _ htokens List.mem_cons_self rfl
  have hcode : (doubleQuoted "'\\\"'").toList = ['"', '\\', '\\', '"', '"'] := by decide +kernel
  obtain rfl : cs = ['\\', '\\', '"', '"'] := by
    rw [hcode] at htext
    exact (List.cons.inj htext).2.symm
  exact absurd hscan (by decide)

end Transcode.Target
