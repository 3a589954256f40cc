namespace Transcode.Record

/-!
# JSON tokens

The lexical half of reading JSON: strings, numbers, the three words and the punctuation, with
spaces, tabs, line feeds and carriage returns in between.
-/

/-- A token of a JSON text.  A string holds the text it denotes, if any, and a number its
    value if it is written with digits alone. -/
inductive Token
  | openArray
  | closeArray
  | openObject
  | closeObject
  | comma
  | colon
  | null
  | bool (b : Bool)
  | natural (n : Nat)
  | otherNumber
  | string (text : Option String)
  deriving DecidableEq, Repr

/-! ### Strings -/

/-- The value of a hexadecimal digit. -/
def hexDigit? (c : Char) : Option Nat :=
  if c.isDigit then some (c.toNat - '0'.toNat)
  else if 'a' ≤ c && c ≤ 'f' then some (c.toNat - 'a'.toNat + 10)
  else if 'A' ≤ c && c ≤ 'F' then some (c.toNat - 'A'.toNat + 10)
  else none

/-- The character that a backslash and `c` denote. -/
def escaped? : Char → Option Char
  | '"' => some '"'
  | '\\' => some '\\'
  | '/' => some '/'
  | 'b' => some '\x08'
  | 'f' => some '\x0c'
  | 'n' => some '\n'
  | 'r' => some '\r'
  | 't' => some '\t'
  | _ => none

/-- The codes of a string up to its closing quote, and what follows the quote.  Control
    characters may not stand in a string. -/
def stringBody? : List Char → Option (List Nat × List Char)
  | [] => none
  | '"' :: rest => some ([], rest)
  | '\\' :: 'u' :: a :: b :: c :: d :: rest => do
    let code := (((← hexDigit? a) * 16 + (← hexDigit? b)) * 16 + (← hexDigit? c)) * 16
      + (← hexDigit? d)
    let (codes, after) ← stringBody? rest
    return (code :: codes, after)
  | '\\' :: c :: rest => do
    let char ← escaped? c
    let (codes, after) ← stringBody? rest
    return (char.toNat :: codes, after)
  | c :: rest =>
    if c.toNat < 0x20 then none
    else do
      let (codes, after) ← stringBody? rest
      return (c.toNat :: codes, after)

/-- The first half of a surrogate pair. -/
def isHighSurrogate (code : Nat) : Bool := 0xD800 ≤ code && code < 0xDC00

/-- The second half of a surrogate pair. -/
def isLowSurrogate (code : Nat) : Bool := 0xDC00 ≤ code && code < 0xE000

/-- The characters that codes denote, if every surrogate stands in a pair. -/
def charsOfCodes? : List Nat → Option (List Char)
  | [] => some []
  | high :: low :: rest =>
    if isHighSurrogate high then
      if isLowSurrogate low then do
        let code := 0x10000 + (high - 0xD800) * 0x400 + (low - 0xDC00)
        return Char.ofNat code :: (← charsOfCodes? rest)
      else none
    else if isLowSurrogate high then none
    else do return Char.ofNat high :: (← charsOfCodes? (low :: rest))
  | [code] =>
    if isHighSurrogate code || isLowSurrogate code then none else some [Char.ofNat code]

/-- What follows a string is shorter than what began inside it. -/
theorem length_of_stringBody? {cs after : List Char} {codes : List Nat}
    (h : stringBody? cs = some (codes, after)) : after.length < cs.length := by
  fun_induction stringBody? cs generalizing codes after <;>
    simp_all [Option.bind_eq_some_iff] <;> grind

/-! ### Numbers -/

/-- The characters that can stand in a number. -/
def isNumberChar (c : Char) : Bool :=
  c.isDigit || c == '-' || c == '+' || c == '.' || c == 'e' || c == 'E'

/-- What is left of a number after its exponent, if it has one. -/
def skipExponent? : List Char → Option (List Char)
  | 'e' :: rest | 'E' :: rest =>
    let digits := match rest with
      | '+' :: ds | '-' :: ds => ds
      | ds => ds
    if digits.head?.any Char.isDigit then some (digits.dropWhile Char.isDigit) else none
  | cs => some cs

/-- What is left of a number after its fraction, if it has one. -/
def skipFraction? : List Char → Option (List Char)
  | '.' :: rest =>
    if rest.head?.any Char.isDigit then some (rest.dropWhile Char.isDigit) else none
  | cs => some cs

/-- The token that a number is.  It has no zeros in front. -/
def numberToken? (cs : List Char) : Option Token := do
  let unsigned := match cs with
    | '-' :: rest => rest
    | _ => cs
  let digits := unsigned.takeWhile Char.isDigit
  let wellFormed := match digits with
    | [] => false
    | ['0'] => true
    | d :: _ => d != '0'
  if !wellFormed then none
  let rest := unsigned.dropWhile Char.isDigit
  let [] ← skipExponent? (← skipFraction? rest) | none
  if digits == cs then
    return .natural (digits.foldl (fun n d => n * 10 + (d.toNat - '0'.toNat)) 0)
  else return .otherNumber

/-! ### The tokens of a text -/

/-- Spaces, tabs, line feeds and carriage returns separate tokens. -/
def isSeparator (c : Char) : Bool :=
  c == ' ' || c == '\t' || c == '\n' || c == '\r'

/-- The tokens of a text, if all of it can be read. -/
def tokens? (cs : List Char) : Option (List Token) :=
  match cs with
  | [] => some []
  | '[' :: rest => (tokens? rest).map (.openArray :: ·)
  | ']' :: rest => (tokens? rest).map (.closeArray :: ·)
  | '\x7b' :: rest => (tokens? rest).map (.openObject :: ·)
  | '\x7d' :: rest => (tokens? rest).map (.closeObject :: ·)
  | ',' :: rest => (tokens? rest).map (.comma :: ·)
  | ':' :: rest => (tokens? rest).map (.colon :: ·)
  | 'n' :: 'u' :: 'l' :: 'l' :: rest => (tokens? rest).map (.null :: ·)
  | 't' :: 'r' :: 'u' :: 'e' :: rest => (tokens? rest).map (.bool true :: ·)
  | 'f' :: 'a' :: 'l' :: 's' :: 'e' :: rest => (tokens? rest).map (.bool false :: ·)
  | '"' :: rest =>
    match h : stringBody? rest with
    | some (codes, after) =>
      have := length_of_stringBody? h
      (tokens? after).map (.string ((charsOfCodes? codes).map String.ofList) :: ·)
    | none => none
  | c :: rest =>
    if isSeparator c then tokens? rest
    else if isNumberChar c then
      have := (List.dropWhile_sublist isNumberChar (l := rest)).length_le
      match numberToken? (c :: rest.takeWhile isNumberChar) with
      | some token => (tokens? (rest.dropWhile isNumberChar)).map (token :: ·)
      | none => none
    else none
termination_by cs.length

end Transcode.Record
