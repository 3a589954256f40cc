import Transcode.Engine.Program
import Transcode.Fault
import Transcode.Gap
import Transcode.Settings

namespace Transcode.Engine

open Output Trivia

/-!
# Backends

A backend says what the nodes of a language become.  It has a handler that may decline a node,
a fallback for the nodes that the handler declines, a rendering for comments, and a way to merge
contexts.  What it leaves open has a sensible default; what nobody handles is reported and comes
out as the settings say.

The programs of a backend do less than the engine allows.  Rendering a comment makes no requests:
the conversion of a node is over when the comments before it are rendered, so no limit would keep a
comment from asking for its own node without end.  No program borrows the innermost context.  And a
backend has no memory.  A `Visitor` is free to do all of this.
-/

/-- What is being converted, and how. -/
structure Job where
  source : String
  settings : Settings := {}

/-- What handlers ask of the engine. -/
inductive Request (κ : Type)
  /-- The output for a node. -/
  | convert (n : Node κ)
  /-- The output for a comment. -/
  | comment (span : Span)

/-- A program of a handler for nodes of kinds `κ` under contexts of type `C`. -/
abbrev Task (κ C α : Type) : Type 1 := Program (Request κ) C α

/-- A comment as it stands in the source, followed by a line break if it is a line comment or
    ends its line, and by a space otherwise. -/
def verbatimComment (source : String) (span : Span) : Tree :=
  let tail := if span.kind == .lineComment || span.endsLine then "\n" else " "
  .ofFragments [.text (span.textIn source), .text tail]

/-- What the nodes of a language become, without requests in comments. -/
structure Backend (κ C : Type) where
  /-- The context at the root. -/
  initial : C
  /-- The old context and an update, merged.  As it is, the update replaces the old one. -/
  merge : C → C → C := fun _ update => update
  /-- The output for a comment. -/
  comment : Job → Span → Program Empty C Tree :=
    fun job span => pure (verbatimComment job.source span)
  /-- The output for a node, unless the backend has nothing for it. -/
  handler : Job → Node κ → Task κ C (Option Tree)
  /-- The output for a node that the handler declines. -/
  fallback : Job → Node κ → Task κ C (Option Tree) := fun _ _ => pure none

/-! ### Services over nodes -/

section Services

variable {κ C : Type} [Named κ]

/-- Convert a node under the current context. -/
def convertNode (n : Node κ) : Task κ C Tree :=
  .ask (.convert n)

/-- Convert some nodes, in order. -/
def convertAll (nodes : List (Node κ)) : Task κ C (List Tree) :=
  .askAll .convert nodes

/-- Convert a node with an update merged onto the current context. -/
def convertUnder (update : C) (n : Node κ) : Task κ C Tree :=
  .under update (convertNode n)

/-- A diagnostic about a node. -/
def diagnosticAt (n : Node κ) (severity : Severity) (message : String) : Diagnostic where
  kind := n.kindName
  start := n.start
  stop := n.stop
  message := message
  severity := severity

/-- Record a diagnostic about a node. -/
def reportAt {Q : Type} (n : Node κ) (severity : Severity) (message : String) :
    Program Q C Unit :=
  .record (diagnosticAt n severity message)

/-- The diagnostic about a node that nothing handles. -/
def unsupported (n : Node κ) : Diagnostic :=
  diagnosticAt n .error
    ("this language feature (" ++ n.kindName ++ ") is not supported by the translation")

/-- Record that nothing handles a node. -/
def reportUnsupported {Q : Type} (n : Node κ) : Program Q C Unit :=
  .record (unsupported n)

/-- The diagnostic about a node that nests too deep. -/
def tooDeep (n : Node κ) (fault : Fault) : Diagnostic :=
  diagnosticAt n .error (fault.message ++ "; subtree emitted verbatim")

/-- The trees of a list as pieces of a bigger one. -/
def fragmentsOf (trees : List Tree) : List Fragment :=
  trees.map Tree.toFragment

/-- Lay out some trees one per line under a head. -/
def linesUnder (head : String) (trees : List Tree) : Tree :=
  Tree.ofText head
    |>.withBody (fragmentsOf trees)
    |>.withNewline
    |>.withSeparator "\n"
    |>.withIndent 2

/-- A generic rendering of a node: a leaf as its kind and text, an inner node as its kind with
    its children one per line, all in parentheses.  `info` is shown in braces after the kind. -/
def outlineNode (job : Job) (n : Node κ) (info : String) : Task κ C Tree := do
  let note := if info.isEmpty then "" else " \x7b" ++ info ++ "\x7d"
  let head := "(" ++ n.kindName ++ note
  match n.children with
  | [] => return (Tree.ofText (head ++ " " ++ n.textIn job.source)).withSuffix ")"
  | children => return (linesUnder head (← convertAll children)).withSuffix ")"

/-- What stands in for a node that nobody handles: its text or a placeholder. -/
def standIn (job : Job) (n : Node κ) : Task κ C Tree := do
  let text := n.textIn job.source
  match job.settings.unknownNodes with
  | .bestEffort => return .ofText text
  | .strict =>
    let placeholder := "<" ++ n.kindName ++ " " ++ text ++ ">"
    match n.children with
    | [] => return .ofText placeholder
    | children => return linesUnder placeholder (← convertAll children)

/-- What a node becomes that nobody handles: it is reported, and something stands in for it. -/
def convertUnknown (job : Job) (n : Node κ) : Task κ C Tree := do
  reportUnsupported n
  standIn job n

end Services

/-! ### Leading comments -/

section Leading

variable {κ C : Type}

/-- The pieces that leading trivia add before a node: the comments, each under a key of its
    own so that it is written once, and a line break for every run of blank lines after a
    comment.  What comes before the first comment belongs to whoever separates the node from
    what precedes it.

    `seen` tells whether there was a comment already, and `owes` whether the line break that
    ends its line is still to come. -/
def leadingPieces (source : String) (seen owes : Bool) :
    List Span → Program Span C (List Fragment)
  | [] => .pure []
  | span :: rest =>
    match span.kind with
    | .text =>
      if seen then do
        let found := Text.countBreaks (span.textIn source)
        let kept := found - owes.toNat
        let later ← leadingPieces source true (owes && found == 0) rest
        if 0 < kept then
          let blank := (Tree.ofText "\n").withKey ("ws-" ++ toString span.start)
          return blank.toFragment :: later
        else return later
      else leadingPieces source false owes rest
    | _ => do
      let comment ← Program.ask span
      let keyed := comment.withKey ("comment-" ++ toString span.start)
      let later ← leadingPieces source true (span.kind == .blockComment && span.endsLine) rest
      return keyed.toFragment :: later

/-- Put the comments before a node in front of its output. -/
def attachLeadingTrivia (source : String) (n : Node κ) (output : Tree) :
    Program Span C Tree := do
  match ← leadingPieces source false false (scan source n.fullStart none) with
  | [] => return output
  | leading => return .ofFragments (leading ++ [output.toFragment])

end Leading

/-- What becomes of a node: what the handler makes of it, or else the fallback, or else what the
    settings say for unknown nodes. -/
def Backend.dispatch {κ C : Type} [Named κ] (backend : Backend κ C) (job : Job) (n : Node κ) :
    Task κ C Tree := do
  match ← backend.handler job n with
  | some output => return output
  | none =>
    match ← backend.fallback job n with
    | some output => return output
    | none => convertUnknown job n

end Transcode.Engine
