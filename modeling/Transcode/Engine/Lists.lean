import Transcode.Engine.Backend

namespace Transcode.Engine

open Output Trivia

/-!
# Layouts for lists of nodes

Three ways to convert the nodes of a list and lay them out so that the line structure of the
source survives where it matters: statements keep the blank lines between them, elements keep
the line breaks between them, and a delimited list that begins on a new line ends on one.
-/

section

variable {κ C : Type} [Named κ]

/-- Convert nodes, with line breaks in between that keep one blank line where the source had
    any.  A node that becomes nothing is passed over, separator and all; `previous` is the last
    node that became something. -/
def joinAfter (source : String) (previous : Option (Node κ)) :
    List (Node κ) → Task κ C (List Fragment)
  | [] => .pure []
  | n :: rest => do
    let output ← convertNode n
    if output.isEmpty then joinAfter source previous rest
    else do
      let separator := previous.map fun p => blankLineSeparator (blankLinesBetween source p n)
      let later ← joinAfter source (some n) rest
      return (separator.map Fragment.text).toList ++ output.toFragment :: later

/-- Convert nodes, with line breaks in between that keep one blank line where the source had
    any. -/
def joinWithBlankLines (source : String) (nodes : List (Node κ)) : Task κ C (List Fragment) :=
  joinAfter source none nodes

/-- Put a line break between two outputs wherever the source has one between their nodes. -/
def keepBreaks (source : String) : List (Node κ) → List Tree → List Fragment
  | a :: b :: nodes, output :: outputs =>
    let separator := if Text.hasBreak (textBetween source a b) then [Fragment.text "\n"] else []
    output.toFragment :: (if outputs.isEmpty then [] else separator)
      ++ keepBreaks source (b :: nodes) outputs
  | _, outputs => fragmentsOf outputs

/-- How a delimited list is laid out. -/
structure Delimited (C : Type) where
  /-- A context update for the elements. -/
  context : Option C := none
  opening : String := ""
  closing : String := ""
  indent : Int := 0
  separator : String := ", "

/-- Convert the elements of a delimited list, each after as many line breaks as separate it from
    what comes before: offset `start` for the first one, the end of the element before for the
    others. -/
def convertElements (source : String) (context : Option C) (start : Nat) :
    List (Node κ) → Task κ C (List Fragment)
  | [] => .pure []
  | n :: rest => do
    let output ← match context with
      | some update => convertUnder update n
      | none => convertNode n
    let lead := breaksBefore source start n
    let element := if lead.isEmpty then output else .ofFragments [.text lead, output.toFragment]
    let later ← convertElements source context n.stop rest
    return element.toFragment :: later

/-- Convert `elements` of `parent` into a delimited list with the line breaks of the source.  If
    the first element begins on a new line, so does what closes the list.  The list asks for the
    comments before its parent. -/
def convertDelimited (source : String) (parent : Node κ) (elements : List (Node κ))
    (layout : Delimited C) : Task κ C Tree := do
  let body ← convertElements source layout.context parent.start elements
  let lead := (elements.head?.map (breaksBefore source parent.start)).getD ""
  let closing := if lead.isEmpty then layout.closing else "\n" ++ layout.closing
  return Tree.ofText layout.opening
    |>.withBody body
    |>.withIndent layout.indent
    |>.withSeparator layout.separator
    |>.withSuffix closing
    |>.withComments

end

end Transcode.Engine
