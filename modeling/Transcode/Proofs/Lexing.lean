import Transcode.Script.Lexer
import Transcode.Text.Slice

namespace Transcode.Script

open Text

/-!
# What the lexer reads

`Lexes o cs ls` says that the characters `cs`, the first of which stands at offset `o`, are the
tokens `ls` with layout in between.  It is the lexer as three rules (`lexes_of_tokensFrom`,
`tokensFrom_of_lexes`), and the lemmas about single tokens say which characters a token can begin
with and when it is a comment.
-/

/-- The characters, the first of which stands at an offset, are the tokens. -/
inductive Lexes : Nat → List Char → List Lexeme → Prop
  | nil {o} : Lexes o [] []
  | layout {o c cs ls} : isLayout c = true → Lexes (o + c.utf8Size) cs ls → Lexes o (c :: cs) ls
  | token {o c more cs t ls} : isLayout c = false →
      scanToken c (more ++ cs) = .token t more.length →
      Lexes (Lexeme.stop ⟨t, o, String.ofList (c :: more)⟩) cs ls →
      Lexes o (c :: (more ++ cs)) (⟨t, o, String.ofList (c :: more)⟩ :: ls)

/-! ### Single tokens -/

/-- The ways to begin a token: a word, a number, a string, a comment, or else punctuation. -/
inductive Scans : Char → List Char → Token → Nat → Prop
  | word {c cs} : isNameStart c = true →
      Scans c cs (wordToken (c :: cs.takeWhile isNameChar)) (cs.takeWhile isNameChar).length
  | number {c cs} : isNameStart c = false → c.isDigit = true →
      Scans c cs .number (numberWidth cs)
  | string {c cs t k} : c = '"' ∨ c = '\x27' → stringWidth c cs = .token t k → Scans c cs t k
  | lineComment {cs} :
      Scans '/' ('/' :: cs) .lineComment (1 + (cs.takeWhile (!isLineBreak ·)).length)
  | blockComment {cs n} : blockWidth? cs = some n → Scans '/' ('*' :: cs) .blockComment (1 + n)
  | punctuator {c cs spelling t} : punctuator? (c :: cs) = some (spelling, t) →
      (c = '/' → cs.head? ≠ some '/') →
      (∀ cs', c = '/' → cs = '*' :: cs' → blockWidth? cs' = none) →
      Scans c cs t (spelling.length - 1)

variable {c : Char} {cs more rest : List Char} {t : Token} {k o : Nat} {ls : List Lexeme}

theorem stringWidth_eq_token {quote : Char} (h : stringWidth quote cs = .token t k) :
    t = .string ∧ k ≤ cs.length := by
  fun_induction stringWidth quote cs generalizing t k with
  | case1 => cases h
  | case2 => cases h
  | case3 c rest hc t' n hrest ih =>
    cases h
    obtain ⟨rfl, hn⟩ := ih hrest
    exact ⟨rfl, Nat.add_le_add_right hn 2⟩
  | case4 => cases h
  | case5 =>
    cases h
    exact ⟨rfl, Nat.le_add_left _ _⟩
  | case6 => cases h
  | case7 => cases h
  | case8 c rest _ _ _ _ t' n hrest ih =>
    cases h
    obtain ⟨rfl, hn⟩ := ih hrest
    exact ⟨rfl, Nat.add_le_add_right hn 1⟩
  | case9 => cases h

theorem numberWidth_le (cs : List Char) : numberWidth cs ≤ cs.length := by
  have hsplit : (cs.takeWhile Char.isDigit ++ cs.dropWhile Char.isDigit).length = cs.length :=
    congrArg List.length List.takeWhile_append_dropWhile
  rw [List.length_append] at hsplit
  unfold numberWidth
  split
  · rename_i rest hrest
    have hfraction := (List.takeWhile_prefix (l := rest) Char.isDigit).length_le
    rw [hrest, List.length_cons] at hsplit
    dsimp only
    split <;> omega
  · dsimp only
    omega

theorem blockWidth?_le {n : Nat} (h : blockWidth? cs = some n) : n ≤ cs.length := by
  fun_induction blockWidth? cs generalizing n with
  | case1 => cases h
  | case2 =>
    cases h
    exact Nat.le_add_left _ _
  | case3 c rest _ ih =>
    obtain ⟨m, hm, rfl⟩ := Option.map_eq_some_iff.mp h
    exact Nat.succ_le_succ (ih hm)

/-- A comment that ends does so whatever comes after it. -/
theorem blockWidth?_append (h : blockWidth? cs = some k) (rest : List Char) :
    blockWidth? (cs ++ rest) = some k := by
  fun_induction blockWidth? cs generalizing k with
  | case1 => cases h
  | case2 => exact h
  | case3 c cs hpair ih =>
    obtain ⟨n, hn, rfl⟩ := Option.map_eq_some_iff.mp h
    rw [List.cons_append, blockWidth?, ih hn]
    · rfl
    · intro cs' hstar hslash
      cases cs with
      | nil => cases hn
      | cons d cs =>
        obtain ⟨rfl, -⟩ := List.cons.inj hslash
        exact hpair cs hstar rfl

/-- Some punctuation or operator at the beginning of some characters. -/
theorem punctuator?_eq_some {spelling : List Char} (h : punctuator? cs = some (spelling, t)) :
    (spelling, t) ∈ Token.punctuators ∧ spelling <+: cs := by
  unfold punctuator? at h
  refine ⟨List.mem_of_find?_eq_some h, ?_⟩
  have hfound := List.find?_some h
  exact List.isPrefixOf_iff_prefix.mp hfound

theorem scans_of_scanToken (h : scanToken c cs = .token t k) : Scans c cs t k := by
  unfold scanToken at h
  split at h
  -- The splits follow the lexer: words, numbers, strings, what begins with a slash, the rest.
  · rename_i hc
    cases h
    exact .word hc
  · rename_i hname
    split at h
    · rename_i hc
      cases h
      exact .number (by simpa using hname) hc
    · split at h
      · rename_i hc
        exact .string (by simpa using hc) h
      · dsimp only at h
        split at h
        · cases h
          exact .lineComment
        · split at h
          · rename_i n hn
            cases h
            exact .blockComment hn
          · rename_i hn
            split at h
            · rename_i spelling t' hpunctuator
              cases h
              refine .punctuator hpunctuator (fun _ => nofun) ?_
              rintro cs' - ⟨⟩
              exact hn
            · cases h
        · rename_i hline hblock
          split at h
          · rename_i spelling t' hpunctuator
            cases h
            refine .punctuator hpunctuator ?_ ?_
            · rintro rfl hhead
              obtain ⟨rest, rfl⟩ := List.head?_eq_some_iff.mp hhead
              exact hline rest rfl rfl
            · rintro cs' rfl rfl
              exact absurd rfl (hblock cs' rfl)
          · cases h

theorem Scans.le (h : Scans c cs t k) : k ≤ cs.length := by
  cases h with
  | word => exact (List.takeWhile_prefix _).length_le
  | number => exact numberWidth_le cs
  | string _ h => exact (stringWidth_eq_token h).2
  | @lineComment cs =>
    have hle := (List.takeWhile_prefix (l := cs) (!isLineBreak ·)).length_le
    rw [List.length_cons]
    omega
  | @blockComment cs n h =>
    have hle := blockWidth?_le h
    rw [List.length_cons]
    omega
  | punctuator h =>
    have hle := (punctuator?_eq_some h).2.length_le
    rw [List.length_cons] at hle
    omega

/-- The characters of ASCII that show. -/
def IsGraphic (c : Char) : Prop :=
  0x21 ≤ c.toNat ∧ c.toNat < 0x7F

instance (c : Char) : Decidable (IsGraphic c) := inferInstanceAs (Decidable (_ ∧ _))

theorem isGraphic_of_isNameStart (h : isNameStart c = true) : IsGraphic c := by
  change (decide ('A'.val ≤ c.val ∧ c.val ≤ 'Z'.val)
    || (decide ('a'.val ≤ c.val) && decide (c.val ≤ 'z'.val)) || c == '_' || c == '$') = true at h
  simp only [Bool.or_eq_true, Bool.and_eq_true, decide_eq_true_eq, beq_iff_eq,
    UInt32.le_iff_toNat_le] at h
  rcases h with ((⟨hlow, hhigh⟩ | ⟨hlow, hhigh⟩) | rfl) | rfl
  · exact ⟨Nat.le_trans (by decide) hlow, Nat.lt_of_le_of_lt hhigh (by decide)⟩
  · exact ⟨Nat.le_trans (by decide) hlow, Nat.lt_of_le_of_lt hhigh (by decide)⟩
  · decide
  · decide

theorem isGraphic_of_isDigit (h : c.isDigit = true) : IsGraphic c := by
  change (decide ('0'.val ≤ c.val) && decide (c.val ≤ '9'.val)) = true at h
  simp only [Bool.and_eq_true, decide_eq_true_eq, UInt32.le_iff_toNat_le] at h
  exact ⟨Nat.le_trans (by decide) h.1, Nat.lt_of_le_of_lt h.2 (by decide)⟩

theorem isLayout_of_isGraphic (h : IsGraphic c) : isLayout c = false := by
  rw [← Bool.not_eq_true]
  intro hc
  simp only [isLayout, Bool.or_eq_true, beq_iff_eq] at hc
  rcases hc with (((rfl | rfl) | rfl) | rfl) | rfl <;> exact absurd h (by decide)

/-- A token begins with a graphic character. -/
theorem Scans.isGraphic (h : Scans c cs t k) : IsGraphic c := by
  cases h with
  | word hc => exact isGraphic_of_isNameStart hc
  | number _ hc => exact isGraphic_of_isDigit hc
  | string hc _ => rcases hc with rfl | rfl <;> decide
  | lineComment => decide
  | blockComment => decide
  | @punctuator _ _ spelling _ h =>
    -- The first character is that of the spelling, and there are only so many spellings.
    obtain ⟨hmem, hprefix⟩ := punctuator?_eq_some h
    have hall : ∀ p ∈ Token.punctuators, p.1.head?.any (decide <| IsGraphic ·) = true := by decide
    obtain ⟨d, hd, hgraphic⟩ := (Option.any_eq_true _ _).mp (hall _ hmem)
    replace hgraphic := of_decide_eq_true hgraphic
    obtain ⟨spelling, rfl⟩ := List.head?_eq_some_iff.mp hd
    rw [List.cons_prefix_cons] at hprefix
    rwa [← hprefix.1]

theorem isComment_wordToken (cs : List Char) : (wordToken cs).isComment = false := by
  unfold wordToken
  cases hlookup : Token.keywords.lookup cs with
  | none => rfl
  | some t =>
    obtain ⟨before, after, hkeywords, -⟩ := List.lookup_eq_some_iff.mp hlookup
    have hmem : (cs, t) ∈ Token.keywords := by
      rw [hkeywords]
      exact List.mem_append_right _ List.mem_cons_self
    have hall : ∀ p ∈ Token.keywords, p.2.isComment = false := by decide
    exact hall _ hmem

/-- What a comment looks like. -/
theorem Scans.comment (h : Scans c cs t k) (ht : t.isComment = true) :
    c = '/' ∧ ((∃ rest, cs = '/' :: rest ∧ t = .lineComment
        ∧ k = 1 + (rest.takeWhile (!isLineBreak ·)).length)
      ∨ ∃ rest n, cs = '*' :: rest ∧ t = .blockComment ∧ blockWidth? rest = some n
        ∧ k = 1 + n) := by
  cases h with
  | word =>
    rw [isComment_wordToken] at ht
    cases ht
  | number => cases ht
  | string _ h =>
    rw [(stringWidth_eq_token h).1] at ht
    cases ht
  | lineComment => exact ⟨rfl, .inl ⟨_, rfl, rfl, rfl⟩⟩
  | blockComment hn => exact ⟨rfl, .inr ⟨_, _, rfl, rfl, hn, rfl⟩⟩
  | punctuator h =>
    have hall : ∀ p ∈ Token.punctuators, p.2.isComment = false := by decide
    rw [hall _ (punctuator?_eq_some h).1] at ht
    cases ht

/-- A slash that is no comment is no line comment, and what it might open is never closed. -/
theorem Scans.slash (h : Scans '/' cs t k) (ht : t.isComment = false) :
    t = .slash ∧ k = 0 ∧ cs.head? ≠ some '/'
      ∧ ∀ rest, cs = '*' :: rest → blockWidth? rest = none := by
  cases h with
  | word hc => exact absurd hc (by decide)
  | number _ hc => exact absurd hc (by decide)
  | string hc => exact absurd hc (by decide)
  | lineComment => cases ht
  | blockComment => cases ht
  | @punctuator _ _ spelling _ h hline hblock =>
    have hslash : punctuator? ('/' :: cs) = some (['/'], .slash) := rfl
    rw [hslash] at h
    cases h
    exact ⟨rfl, rfl, hline rfl, fun rest => hblock rest rfl⟩

/-! ### All tokens -/

/-- What the lexer returns follows the rules. -/
theorem lexes_of_tokensFrom (h : tokensFrom o cs = .ok ls) : Lexes o cs ls := by
  fun_induction tokensFrom o cs generalizing ls with
  | case1 =>
    cases h
    exact .nil
  | case2 o c rest hc ih => exact .layout hc (ih h)
  | case3 o c rest hc t k hscan lexeme =>
    rename_i ih
    cases hrest : tokensFrom lexeme.stop (rest.drop k) with
    | error e =>
      rw [hrest] at h
      cases h
    | ok ls' =>
      rw [hrest] at h
      cases h
      have hlength : (rest.take k).length = k :=
        List.length_take_of_le (scans_of_scanToken hscan).le
      have hword : scanToken c (rest.take k ++ rest.drop k) = .token t (rest.take k).length := by
        rw [List.take_append_drop, hlength]
        exact hscan
      have htoken := Lexes.token (by simpa using hc) hword (ih hrest)
      rwa [List.take_append_drop] at htoken
  | case4 => cases h

/-- What follows the rules is what the lexer returns. -/
theorem tokensFrom_of_lexes (h : Lexes o cs ls) : tokensFrom o cs = .ok ls := by
  induction h with
  | nil => rw [tokensFrom]
  | layout hc _ ih => rw [tokensFrom, if_pos hc, ih]
  | token hc hscan _ ih =>
    rw [tokensFrom, if_neg (by rw [hc]; decide)]
    simp only [hscan, List.take_left', List.drop_left']
    rw [ih]
    rfl

theorem stop_eq (l : Lexeme) : l.stop = l.start + byteLength l.text.toList := by
  rw [Lexeme.stop, utf8ByteSize_eq_byteLength]

/-- Of the tokens of a source the comments do not count. -/
theorem lex_eq_ok {source : String} {lexemes : List Lexeme} :
    lex source = .ok lexemes
      ↔ ∃ all, tokens source = .ok all ∧ lexemes = all.filter (!·.token.isComment) := by
  rw [lex]
  cases tokens source with
  | error e =>
    constructor
    · intro h
      cases h
    · rintro ⟨all, h, -⟩
      cases h
  | ok all =>
    constructor
    · intro h
      cases h
      exact ⟨all, rfl, rfl⟩
    · rintro ⟨all', h, rfl⟩
      cases h
      rfl

/-- The lexer reads what comes after one of its tokens as it would by itself. -/
theorem Lexes.split {front back : List Lexeme} {l : Lexeme} (h : Lexes o cs (front ++ l :: back)) :
    ∃ before c more after, cs = before ++ (c :: more ++ after) ∧ l.start = o + byteLength before
      ∧ l.text = String.ofList (c :: more)
      ∧ scanToken c (more ++ after) = .token l.token more.length
      ∧ Lexes l.stop after back := by
  generalize hls : front ++ l :: back = ls at h
  induction h generalizing front with
  | nil => cases front <;> cases hls
  | @layout o c cs ls _ _ ih =>
    obtain ⟨before, d, more, after, rfl, hstart, hrest⟩ := ih hls
    refine ⟨c :: before, d, more, after, rfl, ?_, hrest⟩
    rw [hstart, byteLength_cons, Nat.add_assoc]
  | @token o c more cs t ls _ hscan hls' ih =>
    cases front with
    | nil =>
      cases hls
      exact ⟨[], c, more, cs, rfl, rfl, rfl, hscan, hls'⟩
    | cons l' front =>
      injection hls with hhead htail
      obtain ⟨before, d, more', after, rfl, hstart, hrest⟩ := ih htail
      refine ⟨c :: more ++ before, d, more', after, by simp, ?_, hrest⟩
      rw [hstart, stop_eq, String.toList_ofList, byteLength_append, Nat.add_assoc]

end Transcode.Script
