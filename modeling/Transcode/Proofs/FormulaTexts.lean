import Transcode.Proofs.Formulas

namespace Transcode.Target

/-!
# Formulas as text

A text is cut into the tokens of a formula (`signsOf`), and `readText` reads these.  The text of a
formula, with spaces around binary operators, is cut into the tokens of the formula, provided that
its names and numbers are such in Python (`signsOf_text`).
-/

variable {f : Formula} {o : Operator}

/-! ### Names and numbers -/

/-- The characters of names and numbers. -/
def isWordChar (c : Char) : Bool :=
  c.isAlphanum || c == '_' || c == '.'

/-- The words that are no names. -/
def reserved : List String :=
  ["False", "None", "True", "and", "as", "assert", "async", "await", "break", "class", "continue",
   "def", "del", "elif", "else", "except", "finally", "for", "from", "global", "if", "import", "in",
   "is", "lambda", "nonlocal", "not", "or", "pass", "raise", "return", "try", "while", "with",
   "yield"]

/-- A name begins with no digit. -/
def isName (word : List Char) : Bool :=
  word.head?.any (!·.isDigit) && word.all (fun c => c.isAlphanum || c == '_')
    && !reserved.contains (String.ofList word)

/-- A number is made of digits, and may have a fraction.  Without one, it begins with a zero only if
    it is zero. -/
def isNumber (word : List Char) : Bool :=
  let digits := word.takeWhile Char.isDigit
  match word.dropWhile Char.isDigit with
  | [] => !digits.isEmpty && (digits.head? != some '0' || digits.all (· == '0'))
  | c :: fraction => !digits.isEmpty && c == '.' && !fraction.isEmpty && fraction.all Char.isDigit

/-- The token that a word is. -/
def wordSign? (word : List Char) : Option Sign :=
  if word = ['o', 'r'] then some (.operator .or)
  else if word = ['a', 'n', 'd'] then some (.operator .and)
  else if word = ['n', 'o', 't'] then some .not
  else if isName word || isNumber word then some (.word (String.ofList word))
  else none

/-- How an operator is written. -/
def Operator.symbol : Operator → String
  | or => "or"
  | and => "and"
  | equal => "=="
  | notEqual => "!="
  | less => "<"
  | greater => ">"
  | lessEqual => "<="
  | greaterEqual => ">="
  | plus => "+"
  | minus => "-"
  | times => "*"
  | divide => "/"
  | modulo => "%"

/-- The tokens that are no words, longer ones before shorter ones. -/
def symbols : List (List Char × Sign) :=
  [(['=', '='], .operator .equal), (['!', '='], .operator .notEqual),
   (['<', '='], .operator .lessEqual), (['>', '='], .operator .greaterEqual), (['('], .opening),
   ([')'], .closing), (['<'], .operator .less), (['>'], .operator .greater),
   (['+'], .operator .plus), (['-'], .operator .minus), (['*'], .operator .times),
   (['/'], .operator .divide), (['%'], .operator .modulo)]

/-- The token at the beginning of some characters that is no word. -/
def symbol? (cs : List Char) : Option (List Char × Sign) :=
  symbols.find? (·.1.isPrefixOf cs)

/-- The tokens of some characters. -/
def signsOf : List Char → Option (List Sign)
  | [] => some []
  | c :: cs =>
    if c = ' ' then signsOf cs
    else if isWordChar c then
      (wordSign? (c :: cs.takeWhile isWordChar)).bind fun t =>
        (signsOf (cs.dropWhile isWordChar)).map (t :: ·)
    else
      (symbol? (c :: cs)).bind fun found =>
        (signsOf (cs.drop (found.1.length - 1))).map (found.2 :: ·)
termination_by cs => cs.length
decreasing_by
  · exact Nat.lt_succ_self _
  · exact Nat.lt_succ_of_le (List.dropWhile_sublist _).length_le
  · exact Nat.lt_succ_of_le (List.drop_sublist _ _).length_le

/-- The formula that a text is. -/
def readText (text : String) : Option Formula :=
  (signsOf text.toList).bind readSigns

namespace Formula

/-- The text of a formula. -/
def text : Formula → String
  | word text => text
  | group f => "(" ++ f.text ++ ")"
  | not f => "not " ++ f.text
  | negative f => "-" ++ f.text
  | binary o l r | chained o l r => l.text ++ " " ++ o.symbol ++ " " ++ r.text

/-- The names and numbers of a formula. -/
def words : Formula → List String
  | word text => [text]
  | group f | not f | negative f => f.words
  | binary _ l r | chained _ l r => l.words ++ r.words

end Formula

/-- The text is a name or a number. -/
def IsWord (text : String) : Prop :=
  wordSign? text.toList = some (.word text)

instance (text : String) : Decidable (IsWord text) :=
  inferInstanceAs (Decidable (_ = _))

variable {c : Char} {cs rest : List Char} {t : Sign} {text : String}

theorem isWordChar_of_isDigit (h : c.isDigit = true) : isWordChar c = true := by
  simp [isWordChar, Char.isAlphanum, h]

/-- A name or a number has some characters, all of which may stand in one. -/
theorem IsWord.chars (h : IsWord text) :
    text.toList ≠ [] ∧ ∀ c ∈ text.toList, isWordChar c = true := by
  have hword : isName text.toList = true ∨ isNumber text.toList = true := by
    rw [IsWord, wordSign?] at h
    split_ifs at h
    · cases h
    · cases h
    · cases h
    · rename_i hword
      exact Bool.or_eq_true_iff.mp hword
  rcases hword with hname | hnumber
  · simp only [isName, Bool.and_eq_true, List.all_eq_true, Option.any_eq_true] at hname
    obtain ⟨⟨⟨c, hc, -⟩, hall⟩, -⟩ := hname
    refine ⟨List.ne_nil_of_mem (List.mem_of_mem_head? hc), fun c hc => ?_⟩
    rw [isWordChar, hall c hc]
    rfl
  · have hdigits : ∀ c ∈ text.toList.takeWhile Char.isDigit, isWordChar c = true := fun c hc =>
      isWordChar_of_isDigit (List.all_eq_true.mp List.all_takeWhile c hc)
    have hsplit := List.takeWhile_append_dropWhile (p := Char.isDigit) (l := text.toList)
    rw [isNumber] at hnumber
    rw [← hsplit]
    generalize text.toList.takeWhile Char.isDigit = digits at hdigits hnumber
    generalize text.toList.dropWhile Char.isDigit = after at hnumber
    cases after with
    | nil =>
      simp only [Bool.and_eq_true, Bool.not_eq_true', List.isEmpty_eq_false_iff] at hnumber
      rw [List.append_nil]
      exact ⟨hnumber.1, hdigits⟩
    | cons c fraction =>
      simp only [Bool.and_eq_true, beq_iff_eq, List.all_eq_true] at hnumber
      obtain ⟨⟨⟨-, rfl⟩, -⟩, hfraction⟩ := hnumber
      refine ⟨by simp, List.forall_mem_append.mpr ⟨hdigits, List.forall_mem_cons.mpr ⟨rfl, ?_⟩⟩⟩
      exact fun c hc => isWordChar_of_isDigit (hfraction c hc)

/-! ### Tokens -/

theorem signsOf_space : signsOf (' ' :: cs) = signsOf cs := by
  rw [signsOf, if_pos rfl]

/-- A word ends where a character follows that cannot stand in one. -/
theorem signsOf_word (word : List Char) (hne : word ≠ []) (hword : ∀ c ∈ word, isWordChar c = true)
    (hrest : ∀ c ∈ rest.head?, isWordChar c = false) (ht : wordSign? word = some t) :
    signsOf (word ++ rest) = (signsOf rest).map (t :: ·) := by
  have htake : rest.takeWhile isWordChar = [] ∧ rest.dropWhile isWordChar = rest := by
    cases rest with
    | nil => exact ⟨rfl, rfl⟩
    | cons c rest =>
      have hc : ¬ isWordChar c = true := by
        rw [hrest c rfl]
        exact Bool.false_ne_true
      exact ⟨List.takeWhile_cons_of_neg hc, List.dropWhile_cons_of_neg hc⟩
  obtain ⟨c, cs, rfl⟩ := List.exists_cons_of_ne_nil hne
  obtain ⟨hc, hcs⟩ := List.forall_mem_cons.mp hword
  have hspace : c ≠ ' ' := by
    rintro rfl
    cases hc
  rw [List.cons_append, signsOf, if_neg hspace, if_pos hc, List.takeWhile_append_of_pos hcs,
    List.dropWhile_append_of_pos hcs, htake.1, htake.2, List.append_nil, ht]
  rfl

/-- A token that is no word is found by its spelling. -/
theorem signsOf_symbol (c : Char) (more : List Char) (hc : c ≠ ' ' ∧ isWordChar c = false)
    (h : symbol? (c :: more ++ cs) = some (c :: more, t)) :
    signsOf (c :: more ++ cs) = (signsOf cs).map (t :: ·) := by
  have hword : ¬ isWordChar c = true := by
    rw [hc.2]
    exact Bool.false_ne_true
  rw [List.cons_append] at h ⊢
  rw [signsOf, if_neg hc.1, if_neg hword, h, Option.bind_some, List.length_cons,
    Nat.add_sub_cancel, List.drop_left]

theorem signsOf_opening : signsOf ('(' :: cs) = (signsOf cs).map (.opening :: ·) :=
  signsOf_symbol '(' [] (by decide) rfl

theorem signsOf_closing : signsOf (')' :: cs) = (signsOf cs).map (.closing :: ·) :=
  signsOf_symbol ')' [] (by decide) rfl

theorem signsOf_minus : signsOf ('-' :: cs) = (signsOf cs).map (.operator .minus :: ·) :=
  signsOf_symbol '-' [] (by decide) rfl

theorem signsOf_not : signsOf ('n' :: 'o' :: 't' :: ' ' :: cs) = (signsOf cs).map (.not :: ·) := by
  have hnot : signsOf (['n', 'o', 't'] ++ ' ' :: cs) = (signsOf (' ' :: cs)).map (.not :: ·) :=
    signsOf_word _ nofun (List.all_eq_true.mp rfl) (by rintro c ⟨⟩; rfl) rfl
  exact hnot.trans (congrArg _ signsOf_space)

/-- An operator between spaces. -/
theorem signsOf_operator (o : Operator) :
    signsOf (' ' :: (o.symbol.toList ++ ' ' :: cs)) = (signsOf cs).map (.operator o :: ·) := by
  -- The space after it is what keeps `<` from being read as `<=`, and a word from going on.
  have hspelled : signsOf (o.symbol.toList ++ ' ' :: cs)
      = (signsOf (' ' :: cs)).map (.operator o :: ·) := by
    cases o with
    | or =>
      exact signsOf_word ['o', 'r'] nofun (List.all_eq_true.mp rfl) (by rintro c ⟨⟩; rfl) rfl
    | and =>
      exact signsOf_word ['a', 'n', 'd'] nofun (List.all_eq_true.mp rfl) (by rintro c ⟨⟩; rfl) rfl
    | equal => exact signsOf_symbol '=' ['='] (by decide) rfl
    | notEqual => exact signsOf_symbol '!' ['='] (by decide) rfl
    | less => exact signsOf_symbol '<' [] (by decide) rfl
    | greater => exact signsOf_symbol '>' [] (by decide) rfl
    | lessEqual => exact signsOf_symbol '<' ['='] (by decide) rfl
    | greaterEqual => exact signsOf_symbol '>' ['='] (by decide) rfl
    | plus => exact signsOf_symbol '+' [] (by decide) rfl
    | minus => exact signsOf_symbol '-' [] (by decide) rfl
    | times => exact signsOf_symbol '*' [] (by decide) rfl
    | divide => exact signsOf_symbol '/' [] (by decide) rfl
    | modulo => exact signsOf_symbol '%' [] (by decide) rfl
  rw [signsOf_space, hspelled, signsOf_space]

/-! ### Texts of formulas -/

/-- The text of a formula has its tokens. -/
theorem signsOf_text (hwords : ∀ w ∈ f.words, IsWord w)
    (hrest : ∀ c ∈ rest.head?, isWordChar c = false) :
    signsOf (f.text.toList ++ rest) = (signsOf rest).map (f.signs ++ ·) := by
  induction f generalizing rest with
  -- What follows matters to words only, and a part of a formula is followed by `)`, by a blank or,
  -- like the whole, by `rest`.
  | word text =>
    have htext := hwords text List.mem_cons_self
    exact signsOf_word _ htext.chars.1 htext.chars.2 hrest htext
  | group f ih =>
    have hf : signsOf (f.text.toList ++ ')' :: rest)
        = (signsOf (')' :: rest)).map (f.signs ++ ·) := ih hwords (by rintro c ⟨⟩; rfl)
    have htext : (Formula.group f).text.toList ++ rest
        = '(' :: (f.text.toList ++ ')' :: rest) := by
      simp [Formula.text]
    rw [htext, signsOf_opening, hf, signsOf_closing, Option.map_map, Option.map_map]
    congr 1
    funext ts
    simp [Formula.signs]
  | not f ih =>
    have htext : (Formula.not f).text.toList ++ rest
        = 'n' :: 'o' :: 't' :: ' ' :: (f.text.toList ++ rest) := by
      simp [Formula.text]
    rw [htext, signsOf_not, ih hwords hrest, Option.map_map]
    rfl
  | negative f ih =>
    have htext : (Formula.negative f).text.toList ++ rest = '-' :: (f.text.toList ++ rest) := by
      simp [Formula.text]
    rw [htext, signsOf_minus, ih hwords hrest, Option.map_map]
    rfl
  | binary o l r ihl ihr | chained o l r ihl ihr =>
    obtain ⟨hl, hr⟩ := List.forall_mem_append.mp hwords
    have htext : (Formula.binary o l r).text.toList ++ rest
        = l.text.toList ++ ' ' :: (o.symbol.toList ++ ' ' :: (r.text.toList ++ rest)) := by
      simp [Formula.text]
    refine (congrArg signsOf htext).trans ?_
    rw [ihl hl (by rintro c ⟨⟩; rfl), signsOf_operator, ihr hr hrest, Option.map_map,
      Option.map_map]
    congr 1
    funext ts
    simp [Formula.signs]

/-- The text of a formula is read as its tokens are. -/
theorem readText_text (hwords : ∀ w ∈ f.words, IsWord w) : readText f.text = readSigns f.signs := by
  have hsigns : signsOf (f.text.toList ++ []) = (signsOf []).map (f.signs ++ ·) :=
    signsOf_text hwords nofun
  rw [List.append_nil] at hsigns
  rw [readText, hsigns]
  simp [signsOf]

end Transcode.Target
