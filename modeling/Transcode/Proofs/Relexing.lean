import Mathlib.Data.List.Find
import Mathlib.Tactic.ByContra
import Transcode.Proofs.Lexing
import Transcode.Script.Canonical

namespace Transcode.Script

open Text

/-!
# Reading words back

A word is *readable* if the lexer takes it for its token wherever a space or the end of the text
comes after it.  Marks are readable, and so is every token that the lexer ever took
(`readable_of_lexes`): a longest match stays one when the text after it goes.  Readable words with
spaces in between are therefore read back one by one (`exists_lexes`).
-/

/-- Nothing, or something that begins with a space. -/
def Spaced (cs : List Char) : Prop :=
  ∀ c ∈ cs.head?, c = ' '

/-- The lexer takes the word for its token if it is spaced off from what follows. -/
def Readable (w : Word) : Prop :=
  w.token.isComment = false ∧ ∃ c more, w.text = String.ofList (c :: more) ∧ isLayout c = false
    ∧ ∀ rest, Spaced rest → scanToken c (more ++ rest) = .token w.token more.length

variable {c : Char} {cs rest : List Char} {t : Token} {k o : Nat} {p : Char → Bool}

/-! ### Tokens that are spaced off -/

theorem spaced_cases (h : Spaced rest) : rest = [] ∨ ∃ rest', rest = ' ' :: rest' := by
  cases rest with
  | nil => exact .inl rfl
  | cons c rest =>
    obtain rfl := h c rfl
    exact .inr ⟨rest, rfl⟩

/-- A stretch of characters of a class ends at a space. -/
theorem takeWhile_spaced (hp : p ' ' = false) (h : Spaced rest) (hcs : ∀ c ∈ cs, p c = true) :
    (cs ++ rest).takeWhile p = cs ∧ (cs ++ rest).dropWhile p = rest := by
  rw [List.takeWhile_append_of_pos hcs, List.dropWhile_append_of_pos hcs]
  rcases spaced_cases h with rfl | ⟨rest', rfl⟩
  · exact ⟨List.append_nil _, rfl⟩
  · rw [List.takeWhile_cons, List.dropWhile_cons, hp]
    exact ⟨List.append_nil _, rfl⟩

theorem take_takeWhile (cs : List Char) : cs.take (cs.takeWhile p).length = cs.takeWhile p :=
  (List.prefix_iff_eq_take.mp (List.takeWhile_prefix p)).symm

theorem numberWidth_digits {digits : List Char} (hdigits : ∀ c ∈ digits, c.isDigit = true)
    (h : Spaced rest) : numberWidth (digits ++ rest) = digits.length := by
  obtain ⟨htake, hdrop⟩ := takeWhile_spaced (by decide) h hdigits
  rw [numberWidth, htake, hdrop]
  rcases spaced_cases h with rfl | ⟨rest', rfl⟩ <;> rfl

theorem numberWidth_fraction {digits fraction : List Char}
    (hdigits : ∀ c ∈ digits, c.isDigit = true) (hfraction : ∀ c ∈ fraction, c.isDigit = true)
    (hne : fraction ≠ []) (h : Spaced rest) :
    numberWidth (digits ++ '.' :: (fraction ++ rest)) = digits.length + 1 + fraction.length := by
  have hpoint : Char.isDigit '.' = false := by decide
  rw [numberWidth, List.takeWhile_append_of_pos hdigits, List.dropWhile_append_of_pos hdigits,
    List.takeWhile_cons, List.dropWhile_cons, hpoint]
  simp only [Bool.false_eq_true, if_false, (takeWhile_spaced (by decide) h hfraction).1,
    List.isEmpty_iff, hne, List.append_nil]

/-- A number is its digits, and a fraction if a digit follows the point. -/
theorem take_numberWidth (cs : List Char) :
    ∃ digits, (∀ c ∈ digits, c.isDigit = true) ∧ (cs.take (numberWidth cs) = digits
      ∨ ∃ fraction, fraction ≠ [] ∧ (∀ c ∈ fraction, c.isDigit = true)
        ∧ cs.take (numberWidth cs) = digits ++ '.' :: fraction) := by
  have hdigits : ∀ cs : List Char, ∀ c ∈ cs.takeWhile Char.isDigit, c.isDigit = true :=
    fun cs => List.all_eq_true.mp List.all_takeWhile
  refine ⟨cs.takeWhile Char.isDigit, hdigits cs, ?_⟩
  by_cases hfraction : ∃ cs', cs.dropWhile Char.isDigit = '.' :: cs'
      ∧ cs'.takeWhile Char.isDigit ≠ []
  · obtain ⟨cs', hdrop, hne⟩ := hfraction
    refine .inr ⟨cs'.takeWhile Char.isDigit, hne, hdigits cs', ?_⟩
    have hparts : cs = cs.takeWhile Char.isDigit ++ '.' :: cs'.takeWhile Char.isDigit
        ++ cs'.dropWhile Char.isDigit := by
      rw [List.append_assoc, List.cons_append, List.takeWhile_append_dropWhile, ← hdrop,
        List.takeWhile_append_dropWhile]
    have hlength : numberWidth cs
        = (cs.takeWhile Char.isDigit ++ '.' :: cs'.takeWhile Char.isDigit).length := by
      rw [numberWidth, hdrop]
      simp only [List.isEmpty_iff, hne, if_false, List.length_append, List.length_cons]
      omega
    rw [hlength]
    exact (List.prefix_iff_eq_take.mp ⟨_, hparts.symm⟩).symm
  · -- Without a fraction the number is its digits, also where a point follows them.
    have hwidth : numberWidth cs = (cs.takeWhile Char.isDigit).length := by
      unfold numberWidth
      dsimp only
      split
      · rename_i cs' hdrop
        rw [if_pos]
        rw [List.isEmpty_iff]
        by_contra hne
        exact hfraction ⟨cs', hdrop, hne⟩
      · rfl
    exact .inl (by rw [hwidth, take_takeWhile])

/-- A number is read back. -/
theorem numberWidth_take (h : Spaced rest) :
    numberWidth (cs.take (numberWidth cs) ++ rest) = numberWidth cs := by
  have hlength : (cs.take (numberWidth cs)).length = numberWidth cs :=
    List.length_take_of_le (numberWidth_le cs)
  obtain ⟨digits, hdigits, htake | ⟨fraction, hne, hfraction, htake⟩⟩ := take_numberWidth cs
  · rw [htake] at hlength ⊢
    rw [numberWidth_digits hdigits h, hlength]
  · rw [htake, List.length_append, List.length_cons] at hlength
    rw [htake, List.append_assoc, List.cons_append, numberWidth_fraction hdigits hfraction hne h]
    omega

/-- A string is read back: its closing quote is part of it. -/
theorem stringWidth_take {quote : Char} (hquote : quote ≠ '\\')
    (h : stringWidth quote cs = .token t k) :
    stringWidth quote (cs.take k ++ rest) = .token t k := by
  fun_induction stringWidth quote cs generalizing t k with
  | case1 => cases h
  | case2 => cases h
  | case3 c rest' hc t' n hrest ih =>
    cases h
    rw [List.take_succ_cons, List.take_succ_cons, List.cons_append, List.cons_append, stringWidth,
      if_neg hc, ih hrest]
  | case4 => cases h
  | case5 rest' hpair =>
    cases h
    show stringWidth quote (quote :: ([] ++ rest)) = _
    rw [stringWidth, if_pos rfl]
    exact fun _ _ hback => absurd hback hquote
  | case6 => cases h
  | case7 => cases h
  | case8 c rest' hpair hquote' hback hbreak t' n hrest ih =>
    cases h
    rw [List.take_succ_cons, List.cons_append, stringWidth, if_neg hquote', if_neg hback,
      if_neg hbreak, ih hrest]
    exact fun _ _ hback' => absurd hback' hback
  | case9 => cases h

/-! ### Keywords and punctuation -/

theorem scanToken_word (hc : isNameStart c = true) (hcs : ∀ c ∈ cs, isNameChar c = true)
    (h : Spaced rest) : scanToken c (cs ++ rest) = .token (wordToken (c :: cs)) cs.length := by
  rw [scanToken, if_pos hc, (takeWhile_spaced (by decide) h hcs).1]

/-- What is no word, no number, no string and no comment is punctuation. -/
theorem scanToken_punctuator {spelling : List Char}
    (hc : isNameStart c = false ∧ c.isDigit = false ∧ c ≠ '"' ∧ c ≠ '\x27')
    (hslash : c = '/' → cs.head? ≠ some '/' ∧ ∀ rest, cs = '*' :: rest → blockWidth? rest = none)
    (h : punctuator? (c :: cs) = some (spelling, t)) :
    scanToken c cs = .token t (spelling.length - 1) := by
  obtain ⟨hname, hdigit, hdouble, hsingle⟩ := hc
  unfold scanToken
  rw [if_neg (by rw [hname]; decide), if_neg (by rw [hdigit]; decide),
    if_neg (by simp [hdouble, hsingle]), h]
  dsimp only
  split
  · exact absurd rfl (hslash rfl).1
  · rw [(hslash rfl).2 _ rfl]
  · rfl

/-- A space ends every punctuation. -/
theorem isPrefixOf_spaced {spelling : List Char} (hspace : ' ' ∉ spelling) (h : Spaced rest) :
    spelling.isPrefixOf (cs ++ rest) = spelling.isPrefixOf cs := by
  induction spelling generalizing cs with
  | nil => rfl
  | cons d spelling ih =>
    rw [List.mem_cons, not_or] at hspace
    cases cs with
    | nil =>
      rcases spaced_cases h with rfl | ⟨rest', rfl⟩
      · rfl
      · have hd : (d == ' ') = false := beq_eq_false_iff_ne.mpr (Ne.symm hspace.1)
        show (d == ' ' && _) = false
        rw [hd, Bool.false_and]
    | cons c cs =>
      exact congrArg (d == c && ·) (ih hspace.2)

theorem punctuator?_spaced (h : Spaced rest) : punctuator? (cs ++ rest) = punctuator? cs := by
  have hspace : ∀ p ∈ Token.punctuators, ' ' ∉ p.1 := by decide
  refine List.find?_congr fun p hp => ?_
  exact isPrefixOf_spaced (hspace p hp) h

/-- Keywords and punctuation are read back. -/
theorem scanToken_spelling : ∀ p ∈ Token.keywords ++ Token.punctuators, ∃ c more,
    p.1 = c :: more ∧ isLayout c = false
      ∧ ∀ rest, Spaced rest → scanToken c (more ++ rest) = .token p.2 more.length := by
  intro p hp
  rcases List.mem_append.mp hp with hp | hp
  · have hall : ∀ p ∈ Token.keywords, (p.1.head?.any fun c => isNameStart c && !isLayout c) = true
        ∧ p.1.tail.all isNameChar = true ∧ wordToken p.1 = p.2 := by decide
    obtain ⟨hhead, htail, hword⟩ := hall p hp
    obtain ⟨c, hc, hkind⟩ := (Option.any_eq_true _ _).mp hhead
    simp only [Bool.and_eq_true, Bool.not_eq_true'] at hkind
    obtain ⟨more, hmore⟩ := List.head?_eq_some_iff.mp hc
    rw [hmore] at htail hword
    have hmoreChars : ∀ d ∈ more, isNameChar d = true := List.all_eq_true.mp htail
    refine ⟨c, more, hmore, hkind.2, fun rest hrest => ?_⟩
    rw [← hword]
    exact scanToken_word hkind.1 hmoreChars hrest
  · have hall : ∀ p ∈ Token.punctuators, (p.1.head?.any fun c => !isNameStart c && !c.isDigit
        && c != '"' && c != '\x27' && !isLayout c && (c != '/' || p.1.tail.isEmpty)) = true
        ∧ punctuator? p.1 = some p := by decide
    obtain ⟨hhead, hpunctuator⟩ := hall p hp
    obtain ⟨c, hc, hfirst⟩ := (Option.any_eq_true _ _).mp hhead
    simp only [Bool.and_eq_true, Bool.or_eq_true, Bool.not_eq_true', bne_iff_ne,
      List.isEmpty_iff] at hfirst
    obtain ⟨⟨⟨⟨⟨hname, hdigit⟩, hquote⟩, hquote'⟩, hlayout⟩, hslash⟩ := hfirst
    obtain ⟨more, hmore⟩ := List.head?_eq_some_iff.mp hc
    rw [hmore] at hslash
    refine ⟨c, more, hmore, hlayout, fun rest hrest => ?_⟩
    have hlength : more.length = p.1.length - 1 := by rw [hmore]; rfl
    rw [hlength]
    refine scanToken_punctuator ⟨hname, hdigit, hquote, hquote'⟩ ?_ ?_
    · intro h
      have hnil : more = [] := hslash.resolve_left (fun hne => hne h)
      rw [hnil, List.nil_append]
      rcases spaced_cases hrest with rfl | ⟨rest', rfl⟩ <;> simp
    · rw [← List.cons_append, ← hmore, punctuator?_spaced hrest]
      exact hpunctuator

/-! ### Words -/

/-- The mark of a keyword or of punctuation is read back. -/
theorem readable_mark (ht : t.spelling?.isSome = true) : Readable (mark t) := by
  obtain ⟨spelling, hspelling⟩ := Option.isSome_iff_exists.mp ht
  have hfind := hspelling
  unfold Token.spelling? at hfind
  obtain ⟨p, hp, rfl⟩ := Option.map_eq_some_iff.mp hfind
  have hmem := List.mem_of_find?_eq_some hp
  have htoken : (p.2 == t) = true := by
    have hfound := List.find?_some hp
    exact hfound
  obtain ⟨c, more, hmore, hlayout, hscan⟩ := scanToken_spelling p hmem
  have hcomment : ∀ p ∈ Token.keywords ++ Token.punctuators, p.2.isComment = false := by decide
  obtain rfl := eq_of_beq htoken
  refine ⟨hcomment p hmem, c, more, ?_, hlayout, hscan⟩
  rw [mark, hspelling, ← hmore]
  rfl

/-- A token that was taken once is read back. -/
theorem scanToken_take (h : scanToken c cs = .token t k) (ht : t.isComment = false)
    (hrest : Spaced rest) : scanToken c (cs.take k ++ rest) = .token t k := by
  cases scans_of_scanToken h with
  | word hc =>
    rw [take_takeWhile]
    exact scanToken_word hc (List.all_eq_true.mp List.all_takeWhile) hrest
  | number hname hc =>
    rw [scanToken, if_neg (by rw [hname]; decide), if_pos hc, numberWidth_take hrest]
  | string hc hwidth =>
    rcases hc with rfl | rfl
    · rw [scanToken, if_neg (by decide), if_neg (by decide), if_pos (by decide)]
      exact stringWidth_take (by decide) hwidth
    · rw [scanToken, if_neg (by decide), if_neg (by decide), if_pos (by decide)]
      exact stringWidth_take (by decide) hwidth
  | lineComment => cases ht
  | blockComment => cases ht
  | punctuator hpunctuator =>
    obtain ⟨hmem, hprefix⟩ := punctuator?_eq_some hpunctuator
    obtain ⟨d, more, rfl, -, hscan⟩ := scanToken_spelling _ (List.mem_append_right _ hmem)
    obtain ⟨rfl, hmore⟩ := List.cons_prefix_cons.mp hprefix
    have htake : cs.take ((d :: more).length - 1) = more :=
      (List.prefix_iff_eq_take.mp hmore).symm
    rw [htake]
    exact hscan rest hrest

/-- A token with only one spelling is spelled that way. -/
theorem spelled_of_scanToken {more : List Char}
    (h : scanToken c (more ++ rest) = .token t more.length) (ht : t.spelling? = some cs) :
    c :: more = cs := by
  have hspelling : ∀ p ∈ Token.keywords ++ Token.punctuators, p.2.spelling? = some p.1 := by decide
  have hspelled : (c :: more, t) ∈ Token.keywords ++ Token.punctuators := by
    generalize hcs : more ++ rest = chars at h
    generalize hlength : more.length = k at h
    have htake : chars.take k = more := by rw [← hcs, ← hlength, List.take_left]
    cases scans_of_scanToken h with
    | word =>
      rw [take_takeWhile] at htake
      rw [wordToken, htake] at ht ⊢
      cases hfound : Token.keywords.lookup (c :: more) with
      | none =>
        rw [hfound] at ht
        cases ht
      | some k =>
        obtain ⟨front, back, hkeywords, -⟩ := List.lookup_eq_some_iff.mp hfound
        rw [hkeywords]
        exact List.mem_append_left _ (List.mem_append_right _ List.mem_cons_self)
    | number => cases ht
    | string _ hwidth =>
      rw [(stringWidth_eq_token hwidth).1] at ht
      cases ht
    | lineComment | blockComment => cases ht
    | punctuator hpunctuator =>
      obtain ⟨hmem, hprefix⟩ := punctuator?_eq_some hpunctuator
      obtain ⟨d, more', rfl, -, -⟩ := scanToken_spelling _ (List.mem_append_right _ hmem)
      obtain ⟨rfl, hmore⟩ := List.cons_prefix_cons.mp hprefix
      rw [List.length_cons, Nat.add_sub_cancel, ← List.prefix_iff_eq_take.mp hmore] at htake
      exact List.mem_append_right _ (htake ▸ hmem)
  exact Option.some.inj ((hspelling _ hspelled).symm.trans ht)

/-- The text of a token is what stands in its place. -/
theorem slice_of_lexes {source : String} {ls : List Lexeme} {l : Lexeme}
    (h : Lexes 0 source.toList ls) (hl : l ∈ ls) : slice source l.start l.stop = l.text := by
  obtain ⟨front, back, rfl⟩ := List.append_of_mem hl
  obtain ⟨before, c, more, after, hsource, hstart, htext, -, -⟩ := h.split
  have hslice := slice_append before (c :: more) after
  rw [List.append_assoc, ← hsource, String.ofList_toList] at hslice
  rw [stop_eq, hstart, htext, String.toList_ofList, Nat.zero_add]
  exact hslice

/-- Every token of a source that is no comment is a readable word. -/
theorem readable_of_lexes {source : String} {ls : List Lexeme} {l : Lexeme}
    (h : Lexes 0 source.toList ls) (hl : l ∈ ls) (ht : l.token.isComment = false) :
    Readable ⟨l.token, l.text⟩ := by
  obtain ⟨front, back, rfl⟩ := List.append_of_mem hl
  obtain ⟨before, c, more, after, -, -, htext, hscan, -⟩ := h.split
  have hlayout := isLayout_of_isGraphic (scans_of_scanToken hscan).isGraphic
  refine ⟨ht, c, more, htext, hlayout, fun rest hrest => ?_⟩
  have htake := scanToken_take hscan ht hrest
  rwa [List.take_left] at htake

/-- Readable words with spaces in between are read back one by one. -/
theorem exists_lexes {ws : List Word} (h : ∀ w ∈ ws, Readable w) (o : Nat) :
    ∃ ls, Lexes o ([' '].intercalate (ws.map (·.text.toList))) ls
      ∧ ls.map (fun l => (⟨l.token, l.text⟩ : Word)) = ws := by
  induction ws generalizing o with
  | nil => exact ⟨[], .nil, rfl⟩
  | cons w ws ih =>
    obtain ⟨-, c, more, htext, hlayout, hscan⟩ := h w List.mem_cons_self
    -- What follows the word is read after the space before it.
    obtain ⟨rest, ls, hspaced, hchars, hls, hwords⟩ : ∃ rest ls, Spaced rest
        ∧ [' '].intercalate ((w :: ws).map (·.text.toList)) = c :: (more ++ rest)
        ∧ Lexes (Lexeme.stop ⟨w.token, o, String.ofList (c :: more)⟩) rest ls
        ∧ ls.map (fun l => (⟨l.token, l.text⟩ : Word)) = ws := by
      cases ws with
      | nil =>
        refine ⟨[], [], nofun, ?_, .nil, rfl⟩
        rw [List.map_singleton, List.intercalate_singleton, htext, String.toList_ofList,
          List.append_nil]
      | cons w' ws =>
        obtain ⟨ls, hls, hwords⟩ := ih (fun w hw => h w (List.mem_cons_of_mem _ hw))
          (Lexeme.stop ⟨w.token, o, String.ofList (c :: more)⟩ + 1)
        refine ⟨_, ls, ?_, ?_, .layout (c := ' ') rfl hls, hwords⟩
        · rintro d ⟨⟩
          rfl
        · rw [List.map_cons, List.map_cons, List.intercalate_cons_cons, htext,
            String.toList_ofList]
          simp
    refine ⟨⟨w.token, o, String.ofList (c :: more)⟩ :: ls, ?_, ?_⟩
    · rw [hchars]
      exact .token hlayout (hscan rest hspaced) hls
    · rw [List.map_cons, hwords, ← htext]

end Transcode.Script
