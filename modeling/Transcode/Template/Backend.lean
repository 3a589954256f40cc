import Transcode.Engine.Lists
import Transcode.Template.Basic
import Transcode.Trivia.Comment

namespace Transcode.Template

open Output Engine

/-!
# Backends made of templates

A template is evaluated for a node to a list of fragments, from left to right and the beginning
of a tree before its body, which is also the order in which diagnostics are recorded.  A hole
whose path leads nowhere has no output.
-/

/-- A program of a template backend: kinds and contexts are texts. -/
abbrev Filling := Task String String

/-- What evaluation depends on besides the template. -/
structure Setting where
  job : Job
  types : TypeTable := {}
  /-- The node that the template is for. -/
  node : Node String

/-- The fragments as one tree: a single tree as it is, anything else as the beginning of one. -/
def asTree : List Fragment → Tree
  | [.node lead body layout] => ⟨lead, body, layout⟩
  | fragments => .ofFragments fragments

/-- Fill a hole from the node at a path. -/
def Setting.fill (c : Setting) (path : Path)
    (f : Node String → Filling (List Fragment)) : Filling (List Fragment) :=
  match c.node.descend? path with
  | some n => f n
  | none => pure []

/-- Fill a hole with a text about the node at a path. -/
def Setting.fillText (c : Setting) (path : Path) (f : Node String → String) :
    Filling (List Fragment) :=
  c.fill path fun n => pure [.text (f n)]

/-- Fill a hole with a text about the nodes at two paths. -/
def Setting.fillText₂ (c : Setting) (a b : Path) (f : Node String → Node String → String) :
    Filling (List Fragment) :=
  c.fill a fun m => c.fill b fun n => pure [.text (f m n)]

mutual

/-- The output of a template. -/
def eval (c : Setting) : Template → Filling (List Fragment)
  | .nothing => pure []
  | .text content => pure [.text content]
  | .tree lead body layout => do
    let lead ← evalAll c lead
    let body ← evalAll c body
    return [(Tree.make lead body layout).toFragment]
  | .sourceOf path => c.fillText path fun n => n.textIn c.job.source
  | .kindOf path => c.fillText path Node.kindName
  | .sourceAt start stop => pure [.text (Text.slice c.job.source start stop)]
  | .sourceBetween a b => c.fillText₂ a b (textBetween c.job.source)
  | .sourceFromTo a b => c.fillText₂ a b (textFromTo c.job.source)
  | .blankLines a b => c.fillText₂ a b fun m n => toString (blankLinesBetween c.job.source m n)
  | .convert path => c.fill path fun n => do return [(← convertNode n).toFragment]
  | .convertIfAny path =>
    match c.node.descend? path with
    | some n => do return [(← convertNode n).toFragment]
    | none => pure [Tree.empty.toFragment]
  | .convertUnder path update =>
    c.fill path fun n => do return [(← Engine.convertUnder update n).toFragment]
  | .convertChildren path => c.fill path fun n => do return fragmentsOf (← convertAll n.children)
  | .convertChildrenUnder path update =>
    c.fill path fun n => do return fragmentsOf (← .under update (convertAll n.children))
  | .within update body => .under update (evalAll c body)
  | .outline path info =>
    c.fill path fun n => do return [(← outlineNode c.job n info).toFragment]
  | .attach path body =>
    match c.node.descend? path with
    | some n => do
      let output := asTree (← eval c body)
      let attached := attachLeadingTrivia c.job.source n output
      return [(← attached.mapRequests .comment).toFragment]
    | none => pure []
  | .echoBreak path content =>
    pure [.text (Transcode.echoBreak c.job.source (c.node.descend? path) content)]
  | .context => do return [.text (← Program.context)]
  | .contextLength => do
    let current : String ← Program.context
    return [.text (toString current.utf8ByteSize)]
  | .contextDepth => do return [.text (toString (← Program.contextDepth))]
  | .diagnosticCount => do return [.text (toString (← Program.reported))]
  | .sourceLength => pure [.text (toString c.job.source.utf8ByteSize)]
  | .depthLimit => pure [.text (toString c.job.settings.depthLimit)]
  | .expressionType path =>
    c.fillText path fun n => (c.types.expression.lookup n.kindName).getD ""
  | .annotatedType path =>
    c.fillText path fun n => (c.types.annotation.lookup n.kindName).getD ""
  | .joinChildren path => c.fill path fun n => joinWithBlankLines c.job.source n.children
  | .keepBreaks path => c.fill path fun n => do
    return Engine.keepBreaks c.job.source n.children (← convertAll n.children)
  | .delimited path opening closing indent separator update => c.fill path fun n => do
    let layout : Delimited String :=
      { context := update, opening := opening, closing := closing, indent := indent,
        separator := separator }
    return [(← convertDelimited c.job.source n n.children layout).toFragment]
  | .report path message severity => c.fill path fun n => do
    reportAt n severity message
    return []
  | .reportUnsupported path => c.fill path fun n => do
    Engine.reportUnsupported n
    return []

/-- The output of some templates, one after the other. -/
def evalAll (c : Setting) : List Template → Filling (List Fragment)
  | [] => pure []
  | t :: rest => do
    let first ← eval c t
    let later ← evalAll c rest
    return first ++ later

end

/-- Templates for some kinds of nodes. -/
abbrev Rules := List (String × Template)

/-- What a node becomes by its rule, if there is one. -/
def applyRule (job : Job) (types : TypeTable) (rule : Option Template) (n : Node String) :
    Filling (Option Tree) :=
  match rule with
  | some template => do
    return some (asTree (← eval { job := job, types := types, node := n } template))
  | none => pure none

/-- The backend of some rules, with the engine's defaults for the rest. -/
def plainBackend (rules : Rules) (types : TypeTable) (context : String) :
    Backend String String where
  initial := context
  handler := fun job n => applyRule job types (rules.lookup n.kind) n

/-- The output for a comment in a style. -/
def CommentStyle.render (style : CommentStyle) (source : String) (span : Trivia.Span) : Tree :=
  let text := span.textIn source
  let body := if style.strip then Trivia.stripMarkers text (span.kind == .blockComment) else text
  (Tree.ofFragments [.text style.before, .text body]).withSuffix style.after

/-- The backend of some rules with its own comments and fallback, under contexts that grow: an
    update is appended to the context. -/
def customBackend (rules : Rules) (fallback : Option Template) (comments : CommentStyle)
    (types : TypeTable) (context : String) : Backend String String where
  initial := context
  merge := fun old update => old ++ update
  comment := fun job span => pure (comments.render job.source span)
  handler := fun job n => applyRule job types (rules.lookup n.kind) n
  fallback := fun job n => applyRule job types fallback n

end Transcode.Template
