import Transcode.Node
import Transcode.Trivia.Breaks

namespace Transcode

open Text Trivia

/-!
# Source text of nodes, and the gaps between them

The text of a node is what lies from its first token to its last.  Between two siblings lies a
gap of whitespace and comments, and layouts ask how many line breaks it has *before its first
comment*: what comes after belongs to the comments.
-/

namespace Node

variable {κ : Type}

/-- The source text of a node without its leading trivia. -/
def textIn (n : Node κ) (source : String) : String :=
  slice source n.start n.stop

end Node

variable {κ : Type}

/-- The text from the end of `a` to the beginning of `b`. -/
def textBetween (source : String) (a b : Node κ) : String :=
  slice source a.stop b.start

/-- The text from the beginning of `a` to the beginning of `b`. -/
def textFromTo (source : String) (a b : Node κ) : String :=
  slice source a.start b.start

/-- Where the first comment between two offsets begins, or else the second offset. -/
def gapEnd (source : String) (start stop : Nat) : Nat :=
  ((firstComment? (scan source start (some stop))).map Span.start).getD stop

/-- Blank lines between a node and the sibling after it: the naked breaks from the line break
    that ends the first one's line up to the first comment or token after it. -/
def blankLinesBetween (source : String) (a b : Node κ) : Nat :=
  if a.stop < b.start then
    let start := nextLineStart source a.stop b.start
    countNakedBreaks (slice source start (gapEnd source start b.start))
  else 0

/-- As many line breaks as lie between an offset and a node's first comment or token. -/
def breaksBefore (source : String) (start : Nat) (n : Node κ) : String :=
  breaks (countBreaks (slice source start (gapEnd source start n.start)))

/-- Whether a line break comes before a node within its leading trivia. -/
def breakPrecedes (source : String) (n : Node κ) : Bool :=
  (scan source n.fullStart none).any fun span =>
    match span.kind with
    | .text => hasBreak (span.textIn source)
    | .lineComment => true
    | .blockComment => false

/-- A text with a line break before it if one comes before the node.  Where there is no node,
    none comes before it. -/
def echoBreak (source : String) (n : Option (Node κ)) (text : String) : String :=
  if n.any (breakPrecedes source) then "\n" ++ text else text

end Transcode
