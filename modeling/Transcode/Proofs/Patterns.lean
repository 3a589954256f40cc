import Mathlib.Computability.Language
import Transcode.Proofs.Breaks

/-!
# Token patterns

Each kind of token has a pattern, which is a regular language: keywords and punctuation have their
spelling, and words, numbers, strings and comments have a shape (`Token.pattern`).  A token is the
longest beginning of the characters that any pattern matches, and a keyword before it is a name
(`LongestMatch`).

`scanToken` finds just that (`scanToken_eq_token_iff`), and it finds nothing only where no pattern
matches (`scanToken_eq_invalid_iff`).
-/

namespace Transcode.Script

open Computability

/-! ### The patterns -/

namespace Pattern

/-- A character of a class. -/
def char (p : Char → Bool) : Language Char :=
  {w | ∃ c, p c = true ∧ w = [c]}

/-- One character or more of a class. -/
def chars (p : Char → Bool) : Language Char :=
  char p * (char p)∗

/-- Keywords and names: `[A-Za-z_$][A-Za-z0-9_$]*` -/
def word : Language Char :=
  char isNameStart * (char isNameChar)∗

/-- Numbers: `[0-9]+(\.[0-9]+)?` -/
def number : Language Char :=
  chars Char.isDigit * (1 + char (· == '.') * chars Char.isDigit)

/-- What a string is made of, for double quotes `[^"\\\r\n]|\\.`. -/
def stringItem (quote : Char) : Language Char :=
  char (fun c => c != quote && c != '\\' && !isLineBreak c)
    + char (· == '\\') * char (· != '\n')

/-- A string once it is open, for double quotes `([^"\\\r\n]|\\.)*"`. -/
def stringRest (quote : Char) : Language Char :=
  (stringItem quote)∗ * char (· == quote)

/-- Strings, for double quotes `"([^"\\\r\n]|\\.)*"`. -/
def string (quote : Char) : Language Char :=
  char (· == quote) * stringRest quote

/-- Line comments: `//[^\r\n]*` -/
def lineComment : Language Char :=
  char (· == '/') * (char (· == '/') * (char (!isLineBreak ·))∗)

/-- What a block comment is made of: `[^*]|\*+[^*/]` -/
def commentItem : Language Char :=
  char (· != '*') + chars (· == '*') * char (fun c => c != '*' && c != '/')

/-- A block comment once it is open: `([^*]|\*+[^*/])*\*+/` -/
def commentRest : Language Char :=
  commentItem∗ * (chars (· == '*') * char (· == '/'))

/-- Block comments: `/\*([^*]|\*+[^*/])*\*+/` -/
def blockComment : Language Char :=
  char (· == '/') * (char (· == '*') * commentRest)

end Pattern

namespace Token

/-- The pattern of the tokens that may be spelled in many ways. -/
def shape : Token → Language Char
  | ident => Pattern.word
  | number => Pattern.number
  | string => Pattern.string '"' + Pattern.string '\x27'
  | lineComment => Pattern.lineComment
  | blockComment => Pattern.blockComment
  | _ => 0

/-- The pattern of the tokens that are keywords or punctuation. -/
def spellings (t : Token) : Language Char :=
  {w | (w, t) ∈ keywords ++ punctuators}

/-- The pattern of a kind of token. -/
def pattern (t : Token) : Language Char :=
  t.spellings + t.shape

end Token

/-- Characters begin with a token and its text: no pattern matches a longer beginning, and no other
    one the same, save that a keyword could be a name as well. -/
structure LongestMatch (cs : List Char) (t : Token) (w : List Char) : Prop where
  begins : w <+: cs
  mem : w ∈ t.pattern
  longest : ∀ (t' : Token) w', w' <+: cs → w' ∈ t'.pattern → w'.length ≤ w.length
  first : ∀ t' : Token, w ∈ t'.pattern → t' = t ∨ t' = .ident

/-! ### Regular languages -/

section

variable {p : Char → Bool} {l m : Language Char} {a b w : List Char}

/-- A character and then a word of a language. -/
theorem mem_char_mul :
    w ∈ Pattern.char p * m ↔ ∃ c rest, w = c :: rest ∧ p c = true ∧ rest ∈ m := by
  rw [Language.mem_mul]
  constructor
  · rintro ⟨_, ⟨c, hc, rfl⟩, rest, hrest, rfl⟩
    exact ⟨c, rest, rfl, hc, hrest⟩
  · rintro ⟨c, rest, rfl, hc, hrest⟩
    exact ⟨[c], ⟨c, hc, rfl⟩, rest, hrest, rfl⟩

/-- A word before some others makes one more of them. -/
theorem append_mem_kstar (ha : a ∈ l) (hb : b ∈ l∗) : a ++ b ∈ l∗ := by
  obtain ⟨pieces, rfl, hpieces⟩ := Language.mem_kstar.mp hb
  exact Language.mem_kstar.mpr ⟨a :: pieces, rfl, List.forall_mem_cons.mpr ⟨ha, hpieces⟩⟩

/-- Another item may stand in front of what begins with items. -/
theorem append_mem_kstar_mul (ha : a ∈ l) (hw : w ∈ l∗ * m) : a ++ w ∈ l∗ * m := by
  obtain ⟨items, hitems, rest, hrest, rfl⟩ := Language.mem_mul.mp hw
  exact Language.mem_mul.mpr
    ⟨a ++ items, append_mem_kstar ha hitems, rest, hrest, List.append_assoc ..⟩

/-- There may be none of the words that are repeated. -/
theorem mem_kstar_mul (hw : w ∈ m) : w ∈ l∗ * m :=
  Language.mem_mul.mpr ⟨[], Language.nil_mem_kstar l, w, hw, rfl⟩

/-- What holds of the end and stays with each item in front holds of items before the end. -/
theorem kstar_mul_induction {P : List Char → Prop} (last : ∀ w ∈ m, P w)
    (item : ∀ a ∈ l, ∀ w, P w → P (a ++ w)) (h : w ∈ l∗ * m) : P w := by
  obtain ⟨_, hitems, rest, hrest, rfl⟩ := Language.mem_mul.mp h
  obtain ⟨pieces, rfl, hpieces⟩ := Language.mem_kstar.mp hitems
  clear h hitems
  induction pieces with
  | nil => exact last rest hrest
  | cons a pieces ih =>
    obtain ⟨ha, hpieces⟩ := List.forall_mem_cons.mp hpieces
    rw [List.flatten_cons, List.append_assoc]
    exact item a ha _ (ih hpieces)

/-- Characters of a sort, any number of them. -/
theorem mem_kstar_char : w ∈ (Pattern.char p)∗ ↔ ∀ c ∈ w, p c = true := by
  constructor
  · intro h
    obtain ⟨pieces, rfl, hpieces⟩ := Language.mem_kstar.mp h
    intro c hc
    obtain ⟨piece, hpiece, hc⟩ := List.mem_flatten.mp hc
    obtain ⟨d, hd, rfl⟩ := hpieces piece hpiece
    rwa [List.mem_singleton.mp hc]
  · intro h
    induction w with
    | nil => exact Language.nil_mem_kstar _
    | cons c w ih =>
      obtain ⟨hc, hw⟩ := List.forall_mem_cons.mp h
      have hmem : [c] ∈ Pattern.char p := ⟨c, hc, rfl⟩
      exact append_mem_kstar hmem (ih hw)

/-- Characters of a sort, at least one. -/
theorem mem_chars : w ∈ Pattern.chars p ↔ w ≠ [] ∧ ∀ c ∈ w, p c = true := by
  rw [Pattern.chars, mem_char_mul]
  constructor
  · rintro ⟨c, rest, rfl, hc, hrest⟩
    exact ⟨List.cons_ne_nil _ _, List.forall_mem_cons.mpr ⟨hc, mem_kstar_char.mp hrest⟩⟩
  · rintro ⟨hne, h⟩
    obtain ⟨c, rest, rfl⟩ := List.exists_cons_of_ne_nil hne
    obtain ⟨hc, hrest⟩ := List.forall_mem_cons.mp h
    exact ⟨c, rest, rfl, hc, mem_kstar_char.mpr hrest⟩

end

variable {c quote : Char} {cs more rest w : List Char} {t : Token} {k : Nat}

/-! ### Strings -/

/-- A string that the lexer closes has the shape of one. -/
theorem Closes.mem (h : Closes quote cs k) :
    cs.take k ∈ Pattern.stringRest quote := by
  induction h with
  | last => exact mem_kstar_mul ⟨quote, beq_self_eq_true quote, rfl⟩
  | @escape c cs k hc _ ih =>
    have hitem : ['\\', c] ∈ Pattern.stringItem quote :=
      .inr (mem_char_mul.mpr ⟨'\\', [c], rfl, rfl, c, bne_iff_ne.mpr hc, rfl⟩)
    exact append_mem_kstar_mul hitem ih
  | @char c cs k hquote hback hbreak _ ih =>
    have hitem : [c] ∈ Pattern.stringItem quote := .inl ⟨c, by simp [hquote, hback, hbreak], rfl⟩
    exact append_mem_kstar_mul hitem ih

/-- What has the shape of a string is closed by the lexer where it ends. -/
theorem closes_of_mem (h : w ∈ Pattern.stringRest quote) (rest : List Char) :
    Closes quote (w ++ rest) w.length := by
  refine kstar_mul_induction (P := fun w => Closes quote (w ++ rest) w.length) ?_ ?_ h
  · rintro _ ⟨c, hc, rfl⟩
    obtain rfl := eq_of_beq hc
    exact .last
  · rintro a (⟨c, hc, rfl⟩ | ha) w ih
    · simp only [Bool.and_eq_true, bne_iff_ne, Bool.not_eq_true'] at hc
      exact .char hc.1.1 hc.1.2 hc.2 ih
    · obtain ⟨_, _, rfl, hback, c, hc, rfl⟩ := mem_char_mul.mp ha
      obtain rfl := eq_of_beq hback
      exact .escape (bne_iff_ne.mp hc) ih

/-! ### Block comments -/

/-- Without a star there is no end. -/
theorem blockWidth?_cons (hc : c ≠ '*' ∨ cs.head? ≠ some '/') :
    blockWidth? (c :: cs) = (blockWidth? cs).map (· + 1) := by
  rw [blockWidth?]
  rintro cs' rfl rfl
  rcases hc with hc | hc
  · exact hc rfl
  · exact hc rfl

/-- Stars are passed over up to a character that is none. -/
theorem blockWidth?_stars (hw : ∀ d ∈ w, (d == '*') = true) (hc : c ≠ '*') (hslash : c ≠ '/') :
    blockWidth? (w ++ c :: rest) = (blockWidth? rest).map (· + (w.length + 1)) := by
  induction w with
  | nil => exact blockWidth?_cons (.inl hc)
  | cons d w ih =>
    obtain ⟨-, hw⟩ := List.forall_mem_cons.mp hw
    have hhead : (w ++ c :: rest).head? ≠ some '/' := by
      cases w with
      | nil => simpa using hslash
      | cons d w =>
        obtain rfl := eq_of_beq (hw d List.mem_cons_self)
        exact fun h => absurd (Option.some.inj h) (by decide)
    rw [List.cons_append, blockWidth?_cons (.inr hhead), ih hw, Option.map_map]
    rfl

/-- Stars and a slash are the end. -/
theorem blockWidth?_end (hne : w ≠ []) (hw : ∀ d ∈ w, (d == '*') = true) :
    blockWidth? (w ++ '/' :: rest) = some (w.length + 1) := by
  induction w with
  | nil => exact absurd rfl hne
  | cons d w ih =>
    obtain ⟨hd, hrest⟩ := List.forall_mem_cons.mp hw
    obtain rfl : d = '*' := eq_of_beq hd
    cases w with
    | nil => rfl
    | cons e w =>
      obtain rfl : e = '*' := eq_of_beq (List.forall_mem_cons.mp hrest).1
      have hhead : ('*' :: w ++ '/' :: rest).head? ≠ some '/' :=
        fun h => absurd (Option.some.inj h) (by decide)
      rw [List.cons_append, blockWidth?_cons (.inr hhead), ih (List.cons_ne_nil _ _) hrest]
      rfl

/-- What has the shape of a comment ends where the lexer ends it. -/
theorem blockWidth?_of_mem (h : w ∈ Pattern.commentRest) (rest : List Char) :
    blockWidth? (w ++ rest) = some w.length := by
  refine kstar_mul_induction (P := fun w => blockWidth? (w ++ rest) = some w.length) ?_ ?_ h
  · rintro w hw
    obtain ⟨stars, hstars, _, ⟨c, hc, rfl⟩, rfl⟩ := Language.mem_mul.mp hw
    obtain rfl := eq_of_beq hc
    obtain ⟨hne, hall⟩ := mem_chars.mp hstars
    rw [List.append_assoc, List.length_append]
    exact blockWidth?_end hne hall
  · rintro a (⟨c, hc, rfl⟩ | ha) w ih
    · rw [List.append_assoc, List.singleton_append, blockWidth?_cons (.inl (bne_iff_ne.mp hc)), ih]
      simp
    · obtain ⟨stars, hstars, _, ⟨c, hc, rfl⟩, rfl⟩ := Language.mem_mul.mp ha
      simp only [Bool.and_eq_true, bne_iff_ne] at hc
      rw [List.append_assoc, List.append_assoc, List.singleton_append,
        blockWidth?_stars (mem_chars.mp hstars).2 hc.1 hc.2, ih]
      rw [Option.map_some, List.length_append, List.length_append, List.length_singleton]
      exact congrArg some (by omega)

/-- A star before what has the shape of a comment belongs to it, if no slash comes after it. -/
theorem star_cons_mem (h : w ∈ Pattern.commentRest) (hslash : w.head? ≠ some '/') :
    '*' :: w ∈ Pattern.commentRest := by
  have hcons : ∀ stars, stars ∈ Pattern.chars (· == '*') → '*' :: stars ∈ Pattern.chars (· == '*') :=
    fun stars hstars => mem_chars.mpr
      ⟨List.cons_ne_nil _ _, List.forall_mem_cons.mpr ⟨rfl, (mem_chars.mp hstars).2⟩⟩
  obtain ⟨_, hitems, last, hlast, rfl⟩ := Language.mem_mul.mp h
  obtain ⟨pieces, rfl, hpieces⟩ := Language.mem_kstar.mp hitems
  cases pieces with
  | nil =>
    -- The star is one more before the slash at the end.
    obtain ⟨stars, hstars, slash, hmem, rfl⟩ := Language.mem_mul.mp hlast
    exact mem_kstar_mul (Language.append_mem_mul (hcons stars hstars) hmem)
  | cons a pieces =>
    obtain ⟨ha, hpieces⟩ := List.forall_mem_cons.mp hpieces
    have hrest : pieces.flatten ++ last ∈ Pattern.commentRest :=
      Language.append_mem_mul (Language.join_mem_kstar hpieces) hlast
    rw [List.flatten_cons, List.append_assoc] at hslash ⊢
    refine append_mem_kstar_mul (a := '*' :: a) ?_ hrest
    rcases ha with ⟨c, hc, rfl⟩ | ha
    · have hne : c ≠ '/' := fun heq => hslash (congrArg some heq)
      exact .inr (Language.append_mem_mul (mem_chars.mpr ⟨List.cons_ne_nil '*' [], by simp⟩)
        ⟨c, by simp [bne_iff_ne.mp hc, hne], rfl⟩)
    · obtain ⟨stars, hstars, last, hlast, rfl⟩ := Language.mem_mul.mp ha
      exact .inr (Language.append_mem_mul (hcons stars hstars) hlast)

/-- A comment that the lexer ends has the shape of one. -/
theorem mem_of_blockWidth? (h : blockWidth? cs = some k) :
    cs.take k ∈ Pattern.commentRest := by
  fun_induction blockWidth? cs generalizing k with
  | case1 => cases h
  | case2 =>
    cases h
    exact mem_kstar_mul (Language.append_mem_mul (mem_chars.mpr ⟨List.cons_ne_nil '*' [], by simp⟩)
      ⟨'/', rfl, rfl⟩)
  | case3 c cs hpair ih =>
    obtain ⟨n, hn, rfl⟩ := Option.map_eq_some_iff.mp h
    rw [List.take_succ_cons]
    by_cases hc : c = '*'
    · subst hc
      refine star_cons_mem (ih hn) fun hhead => ?_
      rw [List.head?_take] at hhead
      split at hhead
      · cases hhead
      · obtain ⟨cs', rfl⟩ := List.head?_eq_some_iff.mp hhead
        exact hpair cs' rfl rfl
    · exact append_mem_kstar_mul (.inl ⟨c, bne_iff_ne.mpr hc, rfl⟩) (ih hn)

/-! ### Punctuation -/

/-- The lexer finds the longest punctuation. -/
theorem exists_punctuator? {p : List Char × Token} (hp : p ∈ Token.punctuators) (h : p.1 <+: cs) :
    ∃ q, punctuator? cs = some q ∧ p.1.length ≤ q.1.length := by
  have hisPrefix : p.1.isPrefixOf cs = true := List.isPrefixOf_iff_prefix.mpr h
  have hsome : (punctuator? cs).isSome = true := List.find?_isSome.mpr ⟨p, hp, hisPrefix⟩
  obtain ⟨q, hq⟩ := Option.isSome_iff_exists.mp hsome
  refine ⟨q, hq, ?_⟩
  obtain ⟨-, front, back, hall, hfront⟩ := List.find?_eq_some_iff_append.mp hq
  rw [hall, List.mem_append, List.mem_cons] at hp
  -- The table has longer spellings first, so what comes after the one found is no longer.
  have hsorted : Token.punctuators.Pairwise fun p q => q.1.length ≤ p.1.length := by decide
  rw [hall, List.pairwise_append, List.pairwise_cons] at hsorted
  rcases hp with hp | rfl | hp
  · simpa [hisPrefix] using hfront p hp
  · exact Nat.le_refl _
  · exact hsorted.2.1.1 p hp

/-- No two kinds of tokens share a spelling. -/
theorem eq_of_spelling {p q : List Char × Token} (hp : p ∈ Token.keywords ++ Token.punctuators)
    (hq : q ∈ Token.keywords ++ Token.punctuators) (h : p.1 = q.1) : p.2 = q.2 := by
  have hall : ∀ p ∈ Token.keywords ++ Token.punctuators,
      ∀ q ∈ Token.keywords ++ Token.punctuators, p.1 = q.1 → p.2 = q.2 := by decide
  exact hall p hp q hq h

/-! ### Scanning -/

/-- The lexer scans some text, `c` and `more`, at least as far as the text goes, and if it goes no
    further then it finds the token `t`. -/
def Scanned (c : Char) (more rest : List Char) (t : Token) : Prop :=
  ∃ t' k, scanToken c (more ++ rest) = .token t' k ∧ more.length ≤ k ∧ (k = more.length → t' = t)

/-- A name or a keyword is scanned as far as its characters go on. -/
theorem scanned_word (hc : isNameStart c = true) (hmore : ∀ d ∈ more, isNameChar d = true)
    (rest : List Char) : Scanned c more rest (wordToken (c :: more)) := by
  have htake : (more ++ rest).takeWhile isNameChar = more ++ rest.takeWhile isNameChar :=
    List.takeWhile_append_of_pos hmore
  refine ⟨_, _, by rw [scanToken, if_pos hc], ?_, fun hk => ?_⟩
  · rw [htake, List.length_append]
    exact Nat.le_add_right _ _
  · rw [htake, List.length_append, Nat.add_eq_left, List.length_eq_zero_iff] at hk
    rw [htake, hk, List.append_nil]

/-- No digit begins a name. -/
theorem isNameStart_of_isDigit (h : c.isDigit = true) : isNameStart c = false := by
  have hrange : '0'.val ≤ c.val ∧ c.val ≤ '9'.val := by simpa [Char.isDigit] using h
  simp only [UInt32.le_iff_toNat_le] at hrange
  rw [← Bool.not_eq_true]
  intro hc
  change (decide ('A'.val ≤ c.val ∧ c.val ≤ 'Z'.val)
    || (decide ('a'.val ≤ c.val) && decide (c.val ≤ 'z'.val)) || c == '_' || c == '$') = true at hc
  simp only [Bool.or_eq_true, Bool.and_eq_true, decide_eq_true_eq, beq_iff_eq,
    UInt32.le_iff_toNat_le] at hc
  have hcodes : '9'.val.toNat < 'A'.val.toNat ∧ '9'.val.toNat < 'a'.val.toNat := by decide
  rcases hc with ((hupper | hlower) | rfl) | rfl
  · omega
  · omega
  · exact absurd h (by decide)
  · exact absurd h (by decide)

/-- A number goes at least as far as its digits, -/
theorem length_le_numberWidth (cs : List Char) :
    (cs.takeWhile Char.isDigit).length ≤ numberWidth cs := by
  unfold numberWidth
  dsimp only
  split
  · split <;> omega
  · exact Nat.le_refl _

/-- and if there are some after a point then as far as these. -/
theorem length_le_numberWidth_fraction {digits fraction : List Char}
    (hdigits : ∀ d ∈ digits, d.isDigit = true) (hfraction : ∀ d ∈ fraction, d.isDigit = true)
    (hne : fraction ≠ []) (rest : List Char) :
    digits.length + 1 + fraction.length ≤ numberWidth (digits ++ '.' :: (fraction ++ rest)) := by
  have hpoint : Char.isDigit '.' = false := by decide
  rw [numberWidth, List.takeWhile_append_of_pos hdigits, List.dropWhile_append_of_pos hdigits,
    List.takeWhile_cons, List.dropWhile_cons, hpoint]
  simp [List.takeWhile_append_of_pos hfraction, hne]

/-- A number is scanned as far as it goes on. -/
theorem scanned_number (h : c :: more ∈ Pattern.number) (rest : List Char) :
    Scanned c more rest .number := by
  obtain ⟨digits, hdigits, last, hlast, hall⟩ := Language.mem_mul.mp h
  obtain ⟨hne, hdigits⟩ := mem_chars.mp hdigits
  obtain ⟨d, digits, rfl⟩ := List.exists_cons_of_ne_nil hne
  rw [List.cons_append] at hall
  obtain ⟨rfl, rfl⟩ := List.cons.inj hall
  obtain ⟨hd, hdigits⟩ := List.forall_mem_cons.mp hdigits
  have hname : ¬ isNameStart d = true := by
    rw [Bool.not_eq_true]
    exact isNameStart_of_isDigit hd
  refine ⟨_, _, by rw [scanToken, if_neg hname, if_pos hd], ?_, fun _ => rfl⟩
  rcases hlast with rfl | hlast
  · rw [List.append_nil]
    refine Nat.le_trans ?_ (length_le_numberWidth _)
    rw [List.takeWhile_append_of_pos hdigits, List.length_append]
    exact Nat.le_add_right _ _
  · obtain ⟨point, fraction, rfl, hpoint, hfraction⟩ := mem_char_mul.mp hlast
    obtain rfl := eq_of_beq hpoint
    obtain ⟨hne, hfraction⟩ := mem_chars.mp hfraction
    have hle := length_le_numberWidth_fraction hdigits hfraction hne rest
    rw [List.append_assoc, List.cons_append, List.length_append, List.length_cons]
    omega

/-- A string is scanned with the quote at its end. -/
theorem scanned_string (hquote : quote = '"' ∨ quote = '\x27') (h : more ∈ Pattern.stringRest quote)
    (rest : List Char) : Scanned quote more rest .string := by
  have hclass : isNameStart quote = false ∧ quote.isDigit = false ∧ quote ≠ '\\' := by
    rcases hquote with rfl | rfl <;> decide
  obtain ⟨hname, hdigit, hback⟩ := hclass
  refine ⟨.string, more.length, ?_, Nat.le_refl _, fun _ => rfl⟩
  rw [scanToken, if_neg (by rw [hname]; decide), if_neg (by rw [hdigit]; decide),
    if_pos (by simpa using hquote)]
  exact (closes_of_mem h rest).stringWidth hback

/-- A line comment is scanned as far as its line goes, -/
theorem scanned_lineComment (h : ∀ d ∈ more, (!isLineBreak d) = true) (rest : List Char) :
    Scanned '/' ('/' :: more) rest .lineComment := by
  refine ⟨_, _, scanToken_lineComment (more ++ rest), ?_, fun _ => rfl⟩
  rw [List.takeWhile_append_of_pos h, List.length_append, List.length_cons]
  omega

/-- and a block comment up to its end. -/
theorem scanned_blockComment (h : more ∈ Pattern.commentRest) (rest : List Char) :
    Scanned '/' ('*' :: more) rest .blockComment :=
  ⟨_, _, scanToken_blockComment (blockWidth?_of_mem h rest),
    by rw [List.length_cons, Nat.add_comm], fun _ => rfl⟩

/-- What is scanned further than some text is scanned as far as that. -/
theorem scanned_of_lt {rest : List Char} {u : Token} (h : scanToken c (more ++ rest) = .token u k)
    (hk : more.length < k) : Scanned c more rest t :=
  ⟨u, k, h, Nat.le_of_lt hk, fun heq => absurd heq (Nat.ne_of_gt hk)⟩

/-- A sign begins with a character that begins no name, no number and no string, and a slash that
    may begin a comment is a sign by itself. -/
theorem head_of_punctuator {p : List Char × Token} (hp : p ∈ Token.punctuators)
    (hspelling : p.1 = c :: more) :
    (isNameStart c = false ∧ c.isDigit = false ∧ c ≠ '"' ∧ c ≠ '\x27') ∧ (c = '/' → more = []) := by
  have hall : ∀ p ∈ Token.punctuators, (p.1.head?.any fun c => !isNameStart c && !c.isDigit
      && c != '"' && c != '\x27' && (c != '/' || p.1.tail.isEmpty)) = true := by decide
  obtain ⟨d, hd, hfirst⟩ := (Option.any_eq_true _ _).mp (hall p hp)
  rw [hspelling] at hd hfirst
  obtain rfl := Option.some.inj hd
  simp only [Bool.and_eq_true, Bool.or_eq_true, Bool.not_eq_true', bne_iff_ne, List.tail_cons,
    List.isEmpty_iff] at hfirst
  obtain ⟨⟨⟨⟨hname, hdigit⟩, hdouble⟩, hsingle⟩, hslash⟩ := hfirst
  exact ⟨⟨hname, hdigit, hdouble, hsingle⟩, fun hc => hslash.resolve_left fun hne => hne hc⟩

/-- A sign is scanned, or a longer one that begins with it. -/
theorem scanned_punctuator {p : List Char × Token} (hp : p ∈ Token.punctuators)
    (hspelling : p.1 = c :: more) (rest : List Char) : Scanned c more rest p.2 := by
  obtain ⟨hplain, hslash⟩ := head_of_punctuator hp hspelling
  by_cases hline : c = '/' ∧ (more ++ rest).head? = some '/'
  · -- A second slash makes a comment, which is longer than a slash.
    obtain ⟨rfl, hhead⟩ := hline
    obtain ⟨inner, hinner⟩ := List.head?_eq_some_iff.mp hhead
    have hscan := scanToken_lineComment inner
    rw [← hinner] at hscan
    exact scanned_of_lt hscan (by rw [hslash rfl, List.length_nil]; omega)
  by_cases hblock : ∃ inner n, c = '/' ∧ more ++ rest = '*' :: inner ∧ blockWidth? inner = some n
  · obtain ⟨inner, n, rfl, hinner, hn⟩ := hblock
    have hscan := scanToken_blockComment hn
    rw [← hinner] at hscan
    exact scanned_of_lt hscan (by rw [hslash rfl, List.length_nil]; omega)
  · have hprefix : p.1 <+: c :: (more ++ rest) := hspelling ▸ ⟨rest, rfl⟩
    obtain ⟨q, hq, hle⟩ := exists_punctuator? hp hprefix
    have hscan : scanToken c (more ++ rest) = .token q.2 (q.1.length - 1) := by
      refine scanToken_punctuator hplain (fun hc => ?_) hq
      refine ⟨fun hhead => hline ⟨hc, hhead⟩, fun inner hinner => ?_⟩
      by_contra hn
      obtain ⟨n, hn⟩ := Option.ne_none_iff_exists'.mp hn
      exact hblock ⟨inner, n, hc, hinner, hn⟩
    refine ⟨_, _, hscan, ?_, fun hk => ?_⟩
    · rw [hspelling, List.length_cons] at hle
      omega
    · -- Two spellings of one length that the characters begin with are one.
      obtain ⟨hmem, hprefix'⟩ := punctuator?_eq_some hq
      have hlength : q.1.length = p.1.length := by
        rw [hspelling, List.length_cons] at hle ⊢
        omega
      have heq : q.1 = p.1 :=
        (List.prefix_of_prefix_length_le hprefix' hprefix hlength.le).eq_of_length hlength
      exact eq_of_spelling (List.mem_append_right _ hmem) (List.mem_append_right _ hp) heq

/-- What a pattern matches begins a token that is at least as long.  If it is no longer, then it is
    of the kind of the pattern, or the pattern is that of names. -/
theorem exists_scanToken (h : w ∈ t.pattern) (rest : List Char) :
    ∃ c more, w = c :: more ∧ ∃ t', Scanned c more rest t' ∧ (t' = t ∨ t = .ident) := by
  rcases h with h | h
  · rcases List.mem_append.mp h with hp | hp
    · have hall : ∀ p ∈ Token.keywords, (p.1.head?.any isNameStart) = true
          ∧ p.1.tail.all isNameChar = true ∧ wordToken p.1 = p.2 := by decide
      obtain ⟨hhead, htail, hword⟩ := hall _ hp
      obtain ⟨c, hc, hstart⟩ := (Option.any_eq_true _ _).mp hhead
      obtain ⟨more, rfl⟩ := List.head?_eq_some_iff.mp hc
      exact ⟨c, more, rfl, _, scanned_word hstart (List.all_eq_true.mp htail) rest, .inl hword⟩
    · obtain ⟨c, more, hspelling, -⟩ := scanToken_spelling _ (List.mem_append_right _ hp)
      exact ⟨c, more, hspelling, t, scanned_punctuator hp hspelling rest, .inl rfl⟩
  · cases t with
    | ident =>
      obtain ⟨c, more, rfl, hc, hmore⟩ := mem_char_mul.mp h
      exact ⟨c, more, rfl, _, scanned_word hc (mem_kstar_char.mp hmore) rest, .inr rfl⟩
    | number =>
      obtain ⟨c, more, rfl⟩ : ∃ c more, w = c :: more := by
        obtain ⟨digits, hdigits, last, -, rfl⟩ := Language.mem_mul.mp h
        obtain ⟨d, digits, rfl⟩ := List.exists_cons_of_ne_nil (mem_chars.mp hdigits).1
        exact ⟨d, digits ++ last, rfl⟩
      exact ⟨c, more, rfl, _, scanned_number h rest, .inl rfl⟩
    | string =>
      rcases h with h | h
      · obtain ⟨_, more, rfl, hquote, hmore⟩ := mem_char_mul.mp h
        exact ⟨_, more, rfl, _, scanned_string (.inl (eq_of_beq hquote))
          (eq_of_beq hquote ▸ hmore) rest, .inl rfl⟩
      · obtain ⟨_, more, rfl, hquote, hmore⟩ := mem_char_mul.mp h
        exact ⟨_, more, rfl, _, scanned_string (.inr (eq_of_beq hquote))
          (eq_of_beq hquote ▸ hmore) rest, .inl rfl⟩
    | lineComment =>
      obtain ⟨_, _, rfl, hslash, h⟩ := mem_char_mul.mp h
      obtain ⟨_, body, rfl, hslash', hbody⟩ := mem_char_mul.mp h
      obtain rfl := eq_of_beq hslash
      obtain rfl := eq_of_beq hslash'
      exact ⟨_, _, rfl, _, scanned_lineComment (mem_kstar_char.mp hbody) rest, .inl rfl⟩
    | blockComment =>
      obtain ⟨_, _, rfl, hslash, h⟩ := mem_char_mul.mp h
      obtain ⟨_, body, rfl, hstar, hbody⟩ := mem_char_mul.mp h
      obtain rfl := eq_of_beq hslash
      obtain rfl := eq_of_beq hstar
      exact ⟨_, _, rfl, _, scanned_blockComment hbody rest, .inl rfl⟩
    | _ => exact absurd h (Language.notMem_zero w)

/-- The text of a token is matched by its pattern. -/
theorem mem_pattern_of_scanToken (h : scanToken c cs = .token t k) :
    c :: cs.take k ∈ t.pattern := by
  cases scans_of_scanToken h with
  | word hc =>
    rw [take_takeWhile]
    cases hfound : Token.keywords.lookup (c :: cs.takeWhile isNameChar) with
    | none =>
      rw [wordToken, hfound]
      exact .inr (mem_char_mul.mpr
        ⟨c, _, rfl, hc, mem_kstar_char.mpr (List.all_eq_true.mp List.all_takeWhile)⟩)
    | some t =>
      rw [wordToken, hfound]
      obtain ⟨front, back, hkeywords, -⟩ := List.lookup_eq_some_iff.mp hfound
      refine .inl (List.mem_append_left _ ?_)
      rw [hkeywords]
      exact List.mem_append_right _ List.mem_cons_self
  | number _ hc =>
    obtain ⟨digits, hdigits, htake⟩ := take_numberWidth cs
    have hchars : c :: digits ∈ Pattern.chars Char.isDigit :=
      mem_chars.mpr ⟨List.cons_ne_nil _ _, List.forall_mem_cons.mpr ⟨hc, hdigits⟩⟩
    refine .inr (Language.mem_mul.mpr ⟨_, hchars, ?_⟩)
    rcases htake with htake | ⟨fraction, hne, hfraction, htake⟩
    · exact ⟨[], .inl rfl, by rw [htake, List.append_nil]⟩
    · have hpoint : '.' :: fraction ∈ Pattern.char (· == '.') * Pattern.chars Char.isDigit :=
        mem_char_mul.mpr ⟨'.', fraction, rfl, rfl, mem_chars.mpr ⟨hne, hfraction⟩⟩
      exact ⟨_, .inr hpoint, by rw [htake, List.cons_append]⟩
  | string hc hwidth =>
    obtain ⟨rfl, hclose⟩ := closes_of_stringWidth hwidth
    have hmem : c :: cs.take k ∈ Pattern.string c :=
      mem_char_mul.mpr ⟨c, _, rfl, beq_self_eq_true c, hclose.mem⟩
    rcases hc with rfl | rfl
    · exact .inr (.inl hmem)
    · exact .inr (.inr hmem)
  | @lineComment cs =>
    refine .inr (mem_char_mul.mpr ⟨'/', _, rfl, rfl, mem_char_mul.mpr
      ⟨'/', cs.takeWhile (!isLineBreak ·), ?_, rfl, mem_kstar_char.mpr ?_⟩⟩)
    · rw [Nat.add_comm, List.take_succ_cons, take_takeWhile]
    · exact List.all_eq_true.mp List.all_takeWhile
  | @blockComment cs n hn =>
    refine .inr (mem_char_mul.mpr ⟨'/', _, rfl, rfl, mem_char_mul.mpr
      ⟨'*', cs.take n, ?_, rfl, mem_of_blockWidth? hn⟩⟩)
    rw [Nat.add_comm, List.take_succ_cons]
  | punctuator hpunctuator =>
    obtain ⟨hmem, hprefix⟩ := punctuator?_eq_some hpunctuator
    obtain ⟨d, more, rfl, -⟩ := scanToken_spelling _ (List.mem_append_right _ hmem)
    obtain ⟨rfl, hmore⟩ := List.cons_prefix_cons.mp hprefix
    have htake : cs.take ((d :: more).length - 1) = more :=
      (List.prefix_iff_eq_take.mp hmore).symm
    rw [htake]
    exact .inl (List.mem_append_right _ hmem)

/-- What the lexer finds is a longest match. -/
theorem longestMatch_of_scanToken (h : scanToken c cs = .token t k) :
    LongestMatch (c :: cs) t (c :: cs.take k) where
  begins := List.cons_prefix_cons.mpr ⟨rfl, List.take_prefix k cs⟩
  mem := mem_pattern_of_scanToken h
  longest := by
    intro t' w' hw' hmem
    obtain ⟨rest, hrest⟩ := hw'
    obtain ⟨d, more, rfl, t'', ⟨u, n, hscan, hle, -⟩, -⟩ := exists_scanToken hmem rest
    obtain ⟨rfl, rfl⟩ := List.cons.inj hrest
    cases h.symm.trans hscan
    have hk := (scans_of_scanToken h).le
    rw [List.length_cons, List.length_cons, List.length_take_of_le hk]
    omega
  first := by
    intro t' hmem
    obtain ⟨d, more, hcons, t'', ⟨u, n, hscan, -, heq⟩, ht⟩ := exists_scanToken hmem (cs.drop k)
    obtain ⟨rfl, rfl⟩ := List.cons.inj hcons
    rw [List.take_append_drop] at hscan
    cases h.symm.trans hscan
    obtain rfl := heq (List.length_take_of_le (scans_of_scanToken h).le).symm
    exact ht.imp_left Eq.symm

/-- Some characters begin with one token only. -/
theorem LongestMatch.unique {t' : Token} {w' : List Char} (h : LongestMatch cs t w)
    (h' : LongestMatch cs t' w') : t = t' ∧ w = w' := by
  have hlength : w.length = w'.length :=
    Nat.le_antisymm (h'.longest t w h.begins h.mem) (h.longest t' w' h'.begins h'.mem)
  have hw : w = w' :=
    (List.prefix_of_prefix_length_le h.begins h'.begins hlength.le).eq_of_length hlength
  subst hw
  rcases h.first t' h'.mem with rfl | rfl
  · exact ⟨rfl, rfl⟩
  · exact ⟨(h'.first t h.mem).elim id id, rfl⟩

/-- **Longest match.**  The lexer finds the token that the patterns give. -/
theorem scanToken_eq_token_iff :
    scanToken c cs = .token t k ↔ k ≤ cs.length ∧ LongestMatch (c :: cs) t (c :: cs.take k) := by
  constructor
  · exact fun h => ⟨(scans_of_scanToken h).le, longestMatch_of_scanToken h⟩
  · rintro ⟨hk, hmatch⟩
    obtain ⟨rest, hrest⟩ := hmatch.begins
    obtain ⟨d, more, hcons, -, ⟨u, n, hscan, -⟩, -⟩ := exists_scanToken hmatch.mem rest
    obtain ⟨rfl, rfl⟩ := List.cons.inj hcons
    have hsplit : cs.take k ++ rest = cs := (List.cons.inj hrest).2
    rw [hsplit] at hscan
    obtain ⟨rfl, htake⟩ := (longestMatch_of_scanToken hscan).unique hmatch
    have hlength := congrArg List.length (List.cons.inj htake).2
    rw [List.length_take_of_le (scans_of_scanToken hscan).le, List.length_take_of_le hk] at hlength
    rw [hscan, hlength]

/-- It finds no token where no pattern matches, and nowhere else. -/
theorem scanToken_eq_invalid_iff :
    (∃ further, scanToken c cs = .invalid further)
      ↔ ∀ (t : Token) w, w <+: c :: cs → w ∉ t.pattern := by
  constructor
  · rintro ⟨further, h⟩ t w ⟨rest, hrest⟩ hmem
    obtain ⟨d, more, rfl, -, ⟨u, n, hscan, -⟩, -⟩ := exists_scanToken hmem rest
    obtain ⟨rfl, rfl⟩ := List.cons.inj hrest
    cases h.symm.trans hscan
  · intro h
    cases hscan : scanToken c cs with
    | invalid further => exact ⟨further, rfl⟩
    | token t k =>
      have hmatch := longestMatch_of_scanToken hscan
      exact absurd hmatch.mem (h t _ hmatch.begins)

end Transcode.Script
