import Transcode.Output.Sink

namespace Transcode.Output

/-!
# Rendering a tree

Writing a tree writes its leading fragments, then its body under the requested indentation
with separators in between, then what closes it.  A separator stands before a fragment of the
body when the one before it showed something, so a fragment that writes nothing visible leaves
no separator dangling.  A tree whose key was written before is skipped as a whole.

`Sink.writeTree` follows the tree's structure.
-/

namespace Sink

/-- Write the separator of `layout`, if it has one and the sink shows something since `m`. -/
def writeSeparator (s : Sink) (layout : Layout) (m : Mark) : Sink :=
  match layout.separator with
  | some separator => if s.wroteSince m then s.write separator else s
  | none => s

/-- Make the indentation request of `layout` and break the line if it says so. -/
def openBody (s : Sink) (layout : Layout) : Sink × Restore :=
  let made := s.request layout.indent
  (if layout.newline then made.1.newline else made.1, made.2)

/-- Write the suffix of `layout`, if it has one. -/
def writeSuffix (s : Sink) (layout : Layout) : Sink :=
  match layout.suffix with
  | some suffix => s.write suffix
  | none => s

/-- Undo the request and write what closes the tree. -/
def closeBody (s : Sink) (layout : Layout) (restore : Restore) : Sink :=
  (s.restore restore).writeSuffix layout

mutual

/-- Write a fragment. -/
def writeFragment (s : Sink) : Fragment → Sink
  | .text content => s.write content
  | .node lead body layout =>
    match s.recordKey layout.renderOnce with
    | (s, false) => s
    | (s, true) =>
      let opened := (writeLead s lead).openBody layout
      (writeBody opened.1 layout opened.1.mark body).closeBody layout opened.2

/-- Write the fragments that a tree begins with. -/
def writeLead (s : Sink) : List Fragment → Sink
  | [] => s
  | f :: rest => writeLead (writeFragment s f) rest

/-- Write the fragments of a body; `m` is where the previous one began. -/
def writeBody (s : Sink) (layout : Layout) (m : Mark) : List Fragment → Sink
  | [] => s
  | f :: rest =>
    let s := s.writeSeparator layout m
    writeBody (writeFragment s f) layout s.mark rest

end

/-- Write a tree. -/
def writeTree (s : Sink) (t : Tree) : Sink :=
  s.writeFragment t.toFragment

end Sink

/-- The text of a tree. -/
def render (t : Tree) : String :=
  (Sink.writeTree {} t).finish

-- A list laid out over several lines.
example :
    let list := Tree.ofText "["
      |>.withBody [.text "\na", .text "\nb"]
      |>.withSeparator ", "
      |>.withIndent 4
      |>.withSuffix "\n]"
    render list = "[\n    a,\n    b\n]" := by decide +kernel

end Transcode.Output
