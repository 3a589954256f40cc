namespace Transcode.Script

/-!
# Tokens of the script language

The script language is a small part of TypeScript.  Its tokens are comments, keywords,
names, literals, punctuation and operators.  Keywords, punctuation and operators have one
spelling each; the binary operators have a precedence, a higher one binding tighter.
-/

/-- The kind of a token. -/
inductive Token
  | lineComment
  | blockComment
  | constKeyword
  | letKeyword
  | varKeyword
  | ifKeyword
  | elseKeyword
  | whileKeyword
  | returnKeyword
  | functionKeyword
  | newKeyword
  | thisKeyword
  | trueKeyword
  | falseKeyword
  | ident
  | number
  | string
  | leftParen
  | rightParen
  | leftBrace
  | rightBrace
  | leftBracket
  | rightBracket
  | comma
  | semicolon
  | colon
  | dot
  | assign
  | equal
  | strictEqual
  | notEqual
  | strictNotEqual
  | less
  | greater
  | lessEqual
  | greaterEqual
  | plus
  | minus
  | star
  | slash
  | percent
  | bang
  | andAnd
  | orOr
  deriving DecidableEq, Repr

namespace Token

/-- The keywords. -/
def keywords : List (List Char × Token) :=
  [("const".toList, constKeyword), ("let".toList, letKeyword), ("var".toList, varKeyword),
   ("if".toList, ifKeyword), ("else".toList, elseKeyword), ("while".toList, whileKeyword),
   ("return".toList, returnKeyword), ("function".toList, functionKeyword),
   ("new".toList, newKeyword), ("this".toList, thisKeyword), ("true".toList, trueKeyword),
   ("false".toList, falseKeyword)]

/-- The punctuation and operators, longer spellings before shorter ones. -/
def punctuators : List (List Char × Token) :=
  [(['=', '=', '='], strictEqual), (['!', '=', '='], strictNotEqual), (['=', '='], equal),
   (['!', '='], notEqual), (['<', '='], lessEqual), (['>', '='], greaterEqual),
   (['&', '&'], andAnd), (['|', '|'], orOr), (['('], leftParen), ([')'], rightParen),
   (['\x7b'], leftBrace), (['\x7d'], rightBrace), (['['], leftBracket), ([']'], rightBracket),
   ([','], comma), ([';'], semicolon), ([':'], colon), (['.'], dot), (['='], assign),
   (['<'], less), (['>'], greater), (['+'], plus), (['-'], minus), (['*'], star), (['/'], slash),
   (['%'], percent), (['!'], bang)]

/-- The spelling of a token that has only one. -/
def spelling? (t : Token) : Option (List Char) :=
  ((keywords ++ punctuators).find? (·.2 == t)).map (·.1)

/-- Whether a token is a comment. -/
def isComment : Token → Bool
  | lineComment | blockComment => true
  | _ => false

/-- How a token is named in messages: by its spelling if it has only one. -/
def describe (t : Token) : String :=
  match t.spelling? with
  | some cs => "`" ++ String.ofList cs ++ "`"
  | none =>
    match t with
    | ident => "identifier"
    | number => "number"
    | string => "string"
    | _ => "comment"

/-- How tight a binary operator binds. -/
def precedence? : Token → Option Nat
  | orOr => some 1
  | andAnd => some 2
  | equal | strictEqual | notEqual | strictNotEqual => some 3
  | less | greater | lessEqual | greaterEqual => some 4
  | plus | minus => some 5
  | star | slash | percent => some 6
  | _ => none

end Token

/-- A token in a source: its text and the offset at which it begins. -/
structure Lexeme where
  token : Token
  start : Nat
  text : String
  deriving DecidableEq, Repr

/-- The offset at which a token ends. -/
def Lexeme.stop (l : Lexeme) : Nat :=
  l.start + l.text.utf8ByteSize

end Transcode.Script
