import Transcode.Text.Lines

namespace Transcode.Trivia

open Text

/-!
# The text of a comment without its markers

A line comment loses `//` and one space after it.  A block comment loses its opening with
every star in it, its closing, and on the other lines the gutter ` * `; blank lines at its two
ends go too.  No line keeps blanks at its end.
-/

/-- Drop one `c` at the beginning. -/
def dropOne (c : Char) : List Char → List Char
  | [] => []
  | x :: rest => if x = c then rest else x :: rest

/-- Drop a comment's closing marker at the end. -/
def dropClosing (line : List Char) : List Char :=
  match line.reverse with
  | '/' :: '*' :: rest => rest.reverse
  | _ => line

/-- Drop the gutter of a line that continues a block comment: blanks, a star and one space.
    A line without the star keeps its blanks. -/
def dropGutter (line : List Char) : List Char :=
  match trimStart line with
  | '*' :: rest => dropOne ' ' rest
  | _ => line

/-- One line of a block comment without markers. -/
def blockLineBody (line : List Char) : List Char :=
  match dropClosing (trimEnd line) with
  | '/' :: '*' :: rest => trimEnd (dropOne ' ' (rest.dropWhile (· == '*')))
  | line => trimEnd (dropGutter line)

/-- Drop the empty lines at both ends. -/
def dropOuterEmpty (lines : List (List Char)) : List (List Char) :=
  ((lines.dropWhile List.isEmpty).reverse.dropWhile List.isEmpty).reverse

/-- The body of a line comment. -/
def lineCommentBody (comment : List Char) : List Char :=
  let body := match comment with
    | '/' :: '/' :: rest => rest
    | _ => comment
  trimEnd (dropOne ' ' body)

/-- The body lines of a block comment. -/
def blockCommentLines (comment : List Char) : List (List Char) :=
  dropOuterEmpty ((lines comment).map blockLineBody)

/-- The text of a comment without its markers; `block` tells a block comment from a line
    comment. -/
def stripMarkers (comment : String) (block : Bool) : String :=
  String.ofList <|
    if block then ['\n'].intercalate (blockCommentLines comment.toList)
    else lineCommentBody comment.toList

example : stripMarkers "// a b " false = "a b" := by decide +kernel
example : stripMarkers "/**\n * a\n *\n *  b\n */" true = "a\n\n b" := by decide +kernel

end Transcode.Trivia
