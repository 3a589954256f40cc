import Transcode.Text.Slice

namespace Transcode.Trivia

open Text

/-!
# Trivia: the whitespace and comments between tokens

`scan` reads a text from an offset on and classifies what it finds: stretches of plain text,
comments `// …` up to the line break, and comments `/* … */`.  It stops at the first byte
that is neither whitespace nor the beginning of a comment; given a limit, it classifies
everything up to the limit instead.

The scanner is a machine with three modes, `inText`, `inLine` and `inBlock`, that reads one
step of bytes at a time.  It works on bytes because an offset may fall inside a character;
what it looks for is ASCII, so it never mistakes a part of a longer character for a marker.
A comment that is not closed extends to where the scan ends.
-/

/-- What a stretch of the scanned text is. -/
inductive Kind
  | text
  | lineComment
  | blockComment
  deriving DecidableEq, Repr

/-- A classified stretch of text.  A comment *ends its line* when a line break follows it
    directly; the break after a line comment belongs to the comment. -/
structure Span where
  kind : Kind
  start : Nat
  stop : Nat
  endsLine : Bool
  deriving DecidableEq, Repr

namespace Span

/-- Whether the span is a comment of either kind. -/
def isComment (s : Span) : Bool :=
  s.kind != .text

/-- The characters of a span, empty when it does not fit the source. -/
def textIn (s : Span) (source : String) : String :=
  slice source s.start s.stop

end Span

/-! ### Bytes that matter -/

@[match_pattern] abbrev slash : UInt8 := 0x2F
@[match_pattern] abbrev star : UInt8 := 0x2A
@[match_pattern] abbrev lineFeed : UInt8 := 0x0A
@[match_pattern] abbrev carriageReturn : UInt8 := 0x0D

/-- Line feed and carriage return break a line. -/
def isBreakByte (b : UInt8) : Bool :=
  b == lineFeed || b == carriageReturn

/-- Space, tab, line feed, vertical tab, form feed and carriage return separate tokens. -/
def isSpaceByte (b : UInt8) : Bool :=
  b == 0x20 || (0x09 ≤ b && b ≤ 0x0D)

/-- How many bytes the line break at the beginning takes: a carriage return and a line feed
    together are one break. -/
def breakWidth : List UInt8 → Nat
  | carriageReturn :: lineFeed :: _ => 2
  | b :: _ => if isBreakByte b then 1 else 0
  | [] => 0

/-- Whether the bytes begin with a line break. -/
def startsWithBreak (bs : List UInt8) : Bool :=
  bs.head?.any isBreakByte

/-! ### The scanner -/

/-- The text span from `opened` to `stop`, if there is anything in it. -/
def plainText (opened stop : Nat) : List Span :=
  if opened < stop then [⟨.text, opened, stop, false⟩] else []

mutual

/-- Outside comments, with the current text span begun at `opened` and the next byte at
    `pos`.  An unbounded scan ends at the first byte that separates nothing. -/
def inText (bounded : Bool) (opened pos : Nat) : List UInt8 → List Span
  | slash :: slash :: rest => plainText opened pos ++ inLine bounded pos (pos + 2) rest
  | slash :: star :: rest => plainText opened pos ++ inBlock bounded pos (pos + 2) rest
  | b :: rest =>
    if isSpaceByte b || bounded then inText bounded opened (pos + 1) rest
    else plainText opened pos
  | [] => plainText opened pos

/-- Inside the line comment that began at `start`. -/
def inLine (bounded : Bool) (start pos : Nat) : List UInt8 → List Span
  | carriageReturn :: lineFeed :: rest =>
    ⟨.lineComment, start, pos, true⟩ :: inText bounded (pos + 2) (pos + 2) rest
  | b :: rest =>
    if isBreakByte b then
      ⟨.lineComment, start, pos, true⟩ :: inText bounded (pos + 1) (pos + 1) rest
    else inLine bounded start (pos + 1) rest
  | [] => [⟨.lineComment, start, pos, false⟩]

/-- Inside the block comment that began at `start`. -/
def inBlock (bounded : Bool) (start pos : Nat) : List UInt8 → List Span
  | star :: slash :: rest =>
    ⟨.blockComment, start, pos + 2, startsWithBreak rest⟩ ::
      inText bounded (pos + 2) (pos + 2) rest
  | _ :: rest => inBlock bounded start (pos + 1) rest
  | [] => [⟨.blockComment, start, pos, false⟩]

end

/-- The spans of `text` from offset `start` on: with a limit, everything before the limit;
    without one, the whitespace and comments that come first. -/
def scan (text : String) (start : Nat) (limit? : Option Nat) : List Span :=
  let all := bytes text
  let limit := min (limit?.getD all.length) all.length
  let first := min start limit
  inText limit?.isSome first first ((all.drop first).take (limit - first))

/-- The offset after the line break at `offset`, if there is one before `limit`. -/
def afterBreak (text : String) (limit offset : Nat) : Nat :=
  offset + breakWidth (((bytes text).drop offset).take (limit - offset))

/-- Where the trivia that begin at `start` end: the first offset that is neither whitespace
    nor part of a comment. -/
def skipTrivia (text : String) (start : Nat) : Nat :=
  match (scan text start none).getLast? with
  | some ⟨.lineComment, _, stop, true⟩ => afterBreak text (bytes text).length stop
  | some span => span.stop
  | none => min start (bytes text).length

/-- The first comment among some spans. -/
def firstComment? (spans : List Span) : Option Span :=
  spans.find? Span.isComment

-- A line comment owns its break; a block comment only notes that one follows.
example : scan "  // a\n/*b*/\nx" 0 none =
    [⟨.text, 0, 2, false⟩, ⟨.lineComment, 2, 6, true⟩, ⟨.blockComment, 7, 12, true⟩,
     ⟨.text, 12, 13, false⟩] := by decide +kernel

-- Given a limit, everything is classified, and an open comment ends at the limit.
example : scan "a /* b */" 0 (some 7) =
    [⟨.text, 0, 2, false⟩, ⟨.blockComment, 2, 7, false⟩] := by decide +kernel

end Transcode.Trivia
