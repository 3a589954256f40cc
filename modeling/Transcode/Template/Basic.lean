import Transcode.Output.Tree
import Transcode.Diagnostic

namespace Transcode

open Output

/-!
# Templates

A template describes what a node becomes, as data: output trees with holes that are filled by
the services of the engine.  With one template per kind of node it makes a backend, without any
code.

Most holes are about the node at a *path*: the child indices to follow from the current node,
none for the node itself.
-/

/-- Child indices to follow from the current node. -/
abbrev Template.Path := List Nat

open Template (Path)

/-- A description of output. -/
inductive Template
  /-- No output. -/
  | nothing
  /-- A text. -/
  | text (content : String)
  /-- A tree with the output of some templates in it. -/
  | tree (lead body : List Template) (layout : Layout)
  /-- The source text of a node. -/
  | sourceOf (path : Path)
  /-- The kind of a node. -/
  | kindOf (path : Path)
  /-- The source between two offsets. -/
  | sourceAt (start stop : Nat)
  /-- The source from the end of one node to the beginning of another. -/
  | sourceBetween (a b : Path)
  /-- The source from the beginning of one node to the beginning of another. -/
  | sourceFromTo (a b : Path)
  /-- The number of blank lines between two nodes. -/
  | blankLines (a b : Path)
  /-- The output for a node. -/
  | convert (path : Path)
  /-- The output for a node, or an empty tree where there is none. -/
  | convertIfAny (path : Path)
  /-- The output for a node under a context update. -/
  | convertUnder (path : Path) (update : String)
  /-- The outputs for the children of a node. -/
  | convertChildren (path : Path)
  /-- The outputs for the children of a node under a context update. -/
  | convertChildrenUnder (path : Path) (update : String)
  /-- The output of some templates under a context update. -/
  | within (update : String) (body : List Template)
  /-- The generic rendering of a node. -/
  | outline (path : Path) (info : String)
  /-- The output of a template with a node's leading comments before it. -/
  | attach (path : Path) (body : Template)
  /-- A text, with a line break before it if one comes before the node. -/
  | echoBreak (path : Path) (content : String)
  /-- The current context. -/
  | context
  /-- The byte length of the current context. -/
  | contextLength
  /-- How many contexts there are. -/
  | contextDepth
  /-- How many diagnostics there are. -/
  | diagnosticCount
  /-- The byte length of the source. -/
  | sourceLength
  /-- How deep conversions may nest. -/
  | depthLimit
  /-- The type of a node read as an expression. -/
  | expressionType (path : Path)
  /-- The type that a node denotes. -/
  | annotatedType (path : Path)
  /-- The outputs for a node's children with the blank lines between them. -/
  | joinChildren (path : Path)
  /-- The outputs for a node's children with the line breaks between them. -/
  | keepBreaks (path : Path)
  /-- The children of a node as a delimited list. -/
  | delimited (path : Path) (opening closing : String) (indent : Int) (separator : String)
      (update : Option String)
  /-- Record a diagnostic. -/
  | report (path : Path) (message : String) (severity : Severity)
  /-- Record that nothing handles a node. -/
  | reportUnsupported (path : Path)
  deriving Inhabited

namespace Template

/-- The types of nodes, by the kind of node. -/
structure TypeTable where
  expression : List (String × String) := []
  annotation : List (String × String) := []

/-- How a comment is written: between two texts, with or without its markers. -/
structure CommentStyle where
  before : String := ""
  after : String := ""
  strip : Bool := false

end Template

end Transcode
