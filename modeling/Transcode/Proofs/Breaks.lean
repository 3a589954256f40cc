import Transcode.Proofs.Relexing

namespace Transcode.Script

/-!
# Tokens within lines

Only block comments go on over the end of a line.  What the lexer takes for any other token
depends on the characters up to the next line break alone (`scanToken_broken`), save that a slash
with a star after it is a slash only if no comment ends further down.
-/

/-- The characters begin with a line break, unless there are none. -/
def Broken (cs : List Char) : Prop :=
  ∀ c ∈ cs.head?, isLineBreak c = true

/-- The characters begin with a line feed, unless there are none. -/
def Fed (cs : List Char) : Prop :=
  ∀ c ∈ cs.head?, c = '\n'

/-- The first so many characters are the rest of a string after its opening quote. -/
inductive Closes (quote : Char) : List Char → Nat → Prop
  | last {cs} : Closes quote (quote :: cs) 1
  | escape {c cs k} : c ≠ '\n' → Closes quote cs k → Closes quote ('\\' :: c :: cs) (k + 2)
  | char {c cs k} : c ≠ quote → c ≠ '\\' → isLineBreak c = false → Closes quote cs k →
      Closes quote (c :: cs) (k + 1)

variable {c : Char} {cs rest rest' : List Char} {t : Token} {k : Nat} {p : Char → Bool}

theorem Fed.broken (h : Fed cs) : Broken cs := fun c hc => by
  rw [h c hc]
  rfl

/-- A stretch of characters of a class without line breaks ends at a line break. -/
theorem takeWhile_broken (hp : ∀ c, isLineBreak c = true → p c = false) (h : Broken rest) :
    (cs ++ rest).takeWhile p = cs.takeWhile p
      ∧ (cs ++ rest).dropWhile p = cs.dropWhile p ++ rest := by
  induction cs with
  | nil =>
    cases rest with
    | nil => exact ⟨rfl, rfl⟩
    | cons c rest =>
      have hc := hp c (h c rfl)
      rw [List.nil_append, List.takeWhile_cons, List.dropWhile_cons, hc]
      exact ⟨rfl, rfl⟩
  | cons c cs ih =>
    rw [List.cons_append, List.takeWhile_cons, List.dropWhile_cons, List.takeWhile_cons,
      List.dropWhile_cons, ih.1, ih.2]
    cases p c <;> exact ⟨rfl, rfl⟩

theorem isDigit_of_isLineBreak (hc : isLineBreak c = true) : c.isDigit = false := by
  simp only [isLineBreak, Bool.or_eq_true, beq_iff_eq] at hc
  rcases hc with rfl | rfl <;> rfl

theorem isNameChar_of_isLineBreak (hc : isLineBreak c = true) : isNameChar c = false := by
  simp only [isLineBreak, Bool.or_eq_true, beq_iff_eq] at hc
  rcases hc with rfl | rfl <;> rfl

/-- A number ends before a line break. -/
theorem numberWidth_broken (h : Broken rest) : numberWidth (cs ++ rest) = numberWidth cs := by
  have hdigits : ∀ cs, (cs ++ rest).takeWhile Char.isDigit = cs.takeWhile Char.isDigit
      ∧ (cs ++ rest).dropWhile Char.isDigit = cs.dropWhile Char.isDigit ++ rest :=
    fun cs => takeWhile_broken (fun c => isDigit_of_isLineBreak) h
  rw [numberWidth, numberWidth, (hdigits cs).1, (hdigits cs).2]
  cases cs.dropWhile Char.isDigit with
  | nil =>
    cases rest with
    | nil => rfl
    | cons c rest =>
      have hc : c ≠ '.' := by
        rintro rfl
        exact absurd (h _ rfl) (by decide)
      rw [List.nil_append]
      split
      · rename_i heq
        exact absurd (List.cons.inj heq).1 hc
      · rfl
  | cons d ds =>
    by_cases hd : d = '.'
    · subst hd
      simp only [List.cons_append, (hdigits ds).1]
    · rw [List.cons_append]
      split
      · rename_i heq
        exact absurd (List.cons.inj heq).1 hd
      · split
        · rename_i heq
          exact absurd (List.cons.inj heq).1 hd
        · rfl

theorem closes_of_stringWidth {quote : Char} (h : stringWidth quote cs = .token t k) :
    t = .string ∧ Closes quote cs k := by
  fun_induction stringWidth quote cs generalizing t k with
  | case1 => cases h
  | case2 => cases h
  | case3 c rest hc t' n hrest ih =>
    cases h
    obtain ⟨rfl, hclose⟩ := ih hrest
    exact ⟨rfl, .escape hc hclose⟩
  | case4 => cases h
  | case5 =>
    cases h
    exact ⟨rfl, .last⟩
  | case6 => cases h
  | case7 => cases h
  | case8 c rest _ hquote hback hbreak t' n hrest ih =>
    cases h
    obtain ⟨rfl, hclose⟩ := ih hrest
    exact ⟨rfl, .char hquote hback (Bool.eq_false_iff.mpr hbreak) hclose⟩
  | case9 => cases h

theorem Closes.stringWidth {quote : Char} (hquote : quote ≠ '\\') (h : Closes quote cs k) :
    stringWidth quote cs = .token .string k := by
  induction h with
  | last =>
    rw [Script.stringWidth, if_pos rfl]
    exact fun _ _ hback => absurd hback hquote
  | escape hc _ ih => rw [Script.stringWidth, if_neg hc, ih]
  | char hc hback hbreak _ ih =>
    rw [Script.stringWidth, if_neg hc, if_neg hback, if_neg (Bool.eq_false_iff.mp hbreak), ih]
    exact fun _ _ hback' => absurd hback' hback

/-- A string ends before the next line feed, whatever comes then. -/
theorem Closes.broken {quote : Char} (hquote : quote ≠ '\n') (h : Closes quote (cs ++ rest) k)
    (hrest : Fed rest) (rest' : List Char) : k ≤ cs.length ∧ Closes quote (cs ++ rest') k := by
  generalize hchars : cs ++ rest = chars at h
  induction h generalizing cs with
  | last =>
    -- Had `cs` run out before the quote, the next character read would be the line feed.
    cases cs with
    | nil =>
      rw [List.nil_append] at hchars
      exact absurd (hrest quote (by rw [hchars]; rfl)) hquote
    | cons d cs =>
      obtain ⟨rfl, -⟩ := List.cons.inj hchars
      exact ⟨Nat.le_add_left _ _, .last⟩
  | @escape c chars k hc _ ih =>
    cases cs with
    | nil =>
      rw [List.nil_append] at hchars
      exact absurd (hrest '\\' (by rw [hchars]; rfl)) (by decide)
    | cons d cs =>
      injection hchars with hd hchars
      subst hd
      cases cs with
      | nil =>
        change rest = c :: chars at hchars
        exact absurd (hrest c (by rw [hchars]; rfl)) hc
      | cons e cs =>
        injection hchars with he hchars
        subst he
        obtain ⟨hle, hclose⟩ := ih hchars
        exact ⟨Nat.add_le_add_right hle 2, .escape hc hclose⟩
  | @char c chars k hc hback hbreak _ ih =>
    cases cs with
    | nil =>
      rw [List.nil_append] at hchars
      rw [hrest c (by rw [hchars]; rfl)] at hbreak
      cases hbreak
    | cons d cs =>
      injection hchars with hd hchars
      subst hd
      obtain ⟨hle, hclose⟩ := ih hchars
      exact ⟨Nat.add_le_add_right hle 1, .char hc hback hbreak hclose⟩

/-- No punctuation goes on over a line break. -/
theorem isPrefixOf_broken {spelling : List Char} (hspelling : ∀ c ∈ spelling, isLineBreak c = false)
    (h : Broken rest) : spelling.isPrefixOf (cs ++ rest) = spelling.isPrefixOf cs := by
  induction spelling generalizing cs with
  | nil => rfl
  | cons d spelling ih =>
    obtain ⟨hd, hspelling⟩ := List.forall_mem_cons.mp hspelling
    cases cs with
    | nil =>
      cases rest with
      | nil => rfl
      | cons c rest =>
        have hne : (d == c) = false := beq_eq_false_iff_ne.mpr fun heq => by
          rw [heq, h c rfl] at hd
          cases hd
        show (d == c && _) = false
        rw [hne, Bool.false_and]
    | cons c cs => exact congrArg (d == c && ·) (ih hspelling)

theorem punctuator?_broken (h : Broken rest) : punctuator? (cs ++ rest) = punctuator? cs := by
  have hbreak : ∀ p ∈ Token.punctuators, p.1.all (!isLineBreak ·) = true := by decide
  refine List.find?_congr fun p hp => isPrefixOf_broken (fun c hc => ?_) h
  simpa using List.all_eq_true.mp (hbreak p hp) c hc

theorem scanToken_lineComment (cs : List Char) :
    scanToken '/' ('/' :: cs)
      = .token .lineComment (1 + (cs.takeWhile (!isLineBreak ·)).length) := by
  rw [scanToken, if_neg (by decide), if_neg (by decide), if_neg (by decide)]
  rfl

theorem scanToken_blockComment (h : blockWidth? cs = some k) :
    scanToken '/' ('*' :: cs) = .token .blockComment (1 + k) := by
  rw [scanToken, if_neg (by decide), if_neg (by decide), if_neg (by decide)]
  simp only [h]

/-- **Tokens within lines.** A token that is no comment ends before the next line feed, and is the
    same token whatever comes after the end of its line. -/
theorem scanToken_broken (h : scanToken c (cs ++ rest) = .token t k) (ht : t.isComment = false)
    (hrest : Fed rest) (hrest' : Broken rest')
    (hblock : c = '/' → ∀ inner, cs ++ rest' = '*' :: inner → blockWidth? inner = none) :
    k ≤ cs.length ∧ scanToken c (cs ++ rest') = .token t k := by
  generalize hchars : cs ++ rest = chars at h
  cases scans_of_scanToken h with
  -- Names and numbers end at the first character that cannot go on, which a line break is.
  | word hc =>
    subst hchars
    rw [scanToken, if_pos hc, (takeWhile_broken (fun c => isNameChar_of_isLineBreak) hrest').1,
      (takeWhile_broken (fun c => isNameChar_of_isLineBreak) hrest.broken).1]
    exact ⟨(List.takeWhile_prefix _).length_le, rfl⟩
  | number hname hc =>
    subst hchars
    rw [scanToken, if_neg (by rw [hname]; decide), if_pos hc, numberWidth_broken hrest',
      numberWidth_broken hrest.broken]
    exact ⟨numberWidth_le cs, rfl⟩
  | string hc hwidth =>
    subst hchars
    obtain ⟨rfl, hclose⟩ := closes_of_stringWidth hwidth
    have hquote : c ≠ '\\' ∧ c ≠ '\n' ∧ isNameStart c = false ∧ c.isDigit = false := by
      rcases hc with rfl | rfl <;> decide
    obtain ⟨hback, hfeed, hname, hdigit⟩ := hquote
    -- A string has no line feed inside, so its closing quote stands before `rest`.
    obtain ⟨hle, hclose'⟩ := hclose.broken hfeed hrest rest'
    rw [scanToken, if_neg (by rw [hname]; decide), if_neg (by rw [hdigit]; decide),
      if_pos (by simpa using hc)]
    exact ⟨hle, hclose'.stringWidth hback⟩
  | lineComment => cases ht
  | blockComment => cases ht
  | @punctuator _ _ spelling _ hpunctuator hline _ =>
    subst hchars
    rw [← List.cons_append, punctuator?_broken hrest.broken] at hpunctuator
    obtain ⟨hmem, hprefix⟩ := punctuator?_eq_some hpunctuator
    -- No punctuator begins as one of the other tokens does, so the scanner reaches its table
    -- for `rest'` as well; that the longest entry is the same is `punctuator?_broken`.
    have hall : ∀ p ∈ Token.punctuators, (p.1.head?.any fun c => !isNameStart c && !c.isDigit
        && c != '"' && c != '\x27') = true := by decide
    obtain ⟨d, hd, hfirst⟩ := (Option.any_eq_true _ _).mp (hall _ hmem)
    obtain ⟨more, rfl⟩ := List.head?_eq_some_iff.mp hd
    obtain ⟨rfl, hmore⟩ := List.cons_prefix_cons.mp hprefix
    simp only [Bool.and_eq_true, Bool.not_eq_true', bne_iff_ne] at hfirst
    obtain ⟨⟨⟨hname, hdigit⟩, hdouble⟩, hsingle⟩ := hfirst
    refine ⟨hmore.length_le, scanToken_punctuator ⟨hname, hdigit, hdouble, hsingle⟩ ?_ ?_⟩
    · intro hslash
      refine ⟨?_, hblock hslash⟩
      cases cs with
      | nil => exact fun hhead => absurd (hrest' _ hhead) (by decide)
      | cons e cs => exact hline hslash
    · rw [← List.cons_append, punctuator?_broken hrest']
      exact hpunctuator

end Transcode.Script
