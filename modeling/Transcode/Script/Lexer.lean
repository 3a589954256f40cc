import Transcode.Script.Fault

namespace Transcode.Script

/-!
# From characters to tokens

At each place the lexer takes the longest token that the characters can make: a name as far as
it goes, then seen to be a keyword or not; the longest operator; a comment or string up to its
end.  Blanks between tokens are skipped.  What makes no token is an error whose range covers
the characters that could have begun one.
-/

/-! ### Character classes -/

/-- Spaces, tabs, line breaks and form feeds separate tokens. -/
def isLayout (c : Char) : Bool :=
  c == ' ' || c == '\t' || c == '\r' || c == '\n' || c == '\x0c'

/-- The characters that may begin a name. -/
def isNameStart (c : Char) : Bool :=
  c.isAlpha || c == '_' || c == '$'

/-- The characters that may stand in a name. -/
def isNameChar (c : Char) : Bool :=
  isNameStart c || c.isDigit

/-- The characters that end a line comment or cut a string short. -/
def isLineBreak (c : Char) : Bool :=
  c == '\r' || c == '\n'

/-! ### One token -/

/-- What stands at the beginning of some characters, besides the first one. -/
inductive Scan
  /-- A token that takes `further` characters after the first. -/
  | token (t : Token) (further : Nat)
  /-- No token; `further` characters after the first could still have belonged to one. -/
  | invalid (further : Nat)
  deriving DecidableEq, Repr

/-- The number of characters up to the end of a block comment, once it is open. -/
def blockWidth? : List Char → Option Nat
  | [] => none
  | '*' :: '/' :: _ => some 2
  | _ :: rest => (blockWidth? rest).map (· + 1)

/-- The rest of a string after its opening quote: its closing quote takes the last of so many
    characters, or it is cut short after so many.  A backslash goes with the character after
    it, unless that is a line feed. -/
def stringWidth (quote : Char) : List Char → Scan
  | [] => .invalid 0
  | '\\' :: c :: rest =>
    if c = '\n' then .invalid 1
    else match stringWidth quote rest with
      | .token t n => .token t (n + 2)
      | .invalid n => .invalid (n + 2)
  | c :: rest =>
    if c = quote then .token .string 1
    else if c = '\\' then .invalid 1
    else if isLineBreak c then .invalid 0
    else match stringWidth quote rest with
      | .token t n => .token t (n + 1)
      | .invalid n => .invalid (n + 1)

/-- The characters of a number after its first digit: more digits, and a fraction if a digit
    follows the point. -/
def numberWidth (cs : List Char) : Nat :=
  let digits := cs.takeWhile Char.isDigit
  match cs.dropWhile Char.isDigit with
  | '.' :: rest =>
    let fraction := rest.takeWhile Char.isDigit
    if fraction.isEmpty then digits.length else digits.length + 1 + fraction.length
  | _ => digits.length

/-- The token that a word is: a keyword, or else a name. -/
def wordToken (word : List Char) : Token :=
  (Token.keywords.lookup word).getD .ident

/-- The longest operator or punctuation at the beginning of some characters. -/
def punctuator? (cs : List Char) : Option (List Char × Token) :=
  Token.punctuators.find? (·.1.isPrefixOf cs)

/-- The token that begins with `c` and goes on in `cs`. -/
def scanToken (c : Char) (cs : List Char) : Scan :=
  if isNameStart c then
    let more := cs.takeWhile isNameChar
    .token (wordToken (c :: more)) more.length
  else if c.isDigit then .token .number (numberWidth cs)
  else if c = '"' || c = '\x27' then stringWidth c cs
  else
    let operator := match punctuator? (c :: cs) with
      | some (spelling, t) => Scan.token t (spelling.length - 1)
      | none => .invalid 0
    match c, cs with
    | '/', '/' :: rest =>
      .token .lineComment (1 + (rest.takeWhile (!isLineBreak ·)).length)
    | '/', '*' :: rest =>
      match blockWidth? rest with
      | some n => .token .blockComment (1 + n)
      | none => operator
    | _, _ => operator

/-! ### All tokens -/

/-- The tokens of some characters, the first of which stands at `offset`. -/
def tokensFrom (offset : Nat) (cs : List Char) : Except SourceError (List Lexeme) :=
  match cs with
  | [] => .ok []
  | c :: rest =>
    if isLayout c then tokensFrom (offset + c.utf8Size) rest
    else
      match scanToken c rest with
      | .token t further =>
        let lexeme : Lexeme := ⟨t, offset, String.ofList (c :: rest.take further)⟩
        (tokensFrom lexeme.stop (rest.drop further)).map (lexeme :: ·)
      | .invalid further =>
        .error (.invalidToken offset
          (offset + (String.ofList (c :: rest.take further)).utf8ByteSize))
termination_by cs.length

/-- All tokens of a source, the comments among them. -/
def tokens (source : String) : Except SourceError (List Lexeme) :=
  tokensFrom 0 source.toList

/-- The tokens of a source that count: all but the comments. -/
def lex (source : String) : Except SourceError (List Lexeme) :=
  (tokens source).map (·.filter (!·.token.isComment))

end Transcode.Script
