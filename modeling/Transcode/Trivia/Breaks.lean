import Transcode.Text.Lines
import Transcode.Trivia.Scan

namespace Transcode.Trivia

open Text

/-!
# Line breaks outside comments

A *naked* break is a line feed that no comment accounts for.  A line comment owns the break
that ends it, and a block comment that ends its line accounts for one break, so that the
naked breaks of a gap between two statements tell how many blank lines it has.
-/

/-- How many line feeds some spans of `text` have together. -/
def breaksWithin (text : String) : List Span → Nat
  | [] => 0
  | span :: rest => countBreaks (span.textIn text) + breaksWithin text rest

/-- The line feeds of `text` outside comments, less one for each block comment that ends
    its line. -/
def countNakedBreaks (text : String) : Nat :=
  let spans := scan text 0 (some (bytes text).length)
  let inPlainText := spans.filter (·.kind == .text)
  let endingLines := spans.filter fun s => s.kind == .blockComment && s.endsLine
  breaksWithin text inPlainText - endingLines.length

/-- The offset after the first line break outside block comments among some spans of the
    text before `limit`. -/
def firstBreakEnd? (text : String) (limit : Nat) : List Span → Option Nat
  | [] => none
  | span :: rest =>
    match span.kind with
    | .text =>
      match (bytes (span.textIn text)).findIdx? (· == lineFeed) with
      | some i => some (span.start + i + 1)
      | none => firstBreakEnd? text limit rest
    | .lineComment =>
      if span.endsLine then some (afterBreak text limit span.stop)
      else firstBreakEnd? text limit rest
    | .blockComment => firstBreakEnd? text limit rest

/-- Where the line after the one at `start` begins: after the first line break outside block
    comments before `stop`, or at `stop` when the range has none. -/
def nextLineStart (text : String) (start stop : Nat) : Nat :=
  let stop := min stop (bytes text).length
  (firstBreakEnd? text stop (scan text start (some stop))).getD stop

/-- What stands between two statements with `blankLines` blank lines between them: blank
    lines in a row become one. -/
def blankLineSeparator (blankLines : Nat) : String :=
  if blankLines = 0 then "\n" else "\n\n"

end Transcode.Trivia
