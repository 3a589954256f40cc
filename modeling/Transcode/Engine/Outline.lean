import Transcode.Engine.Run

namespace Transcode.Engine

open Output

/-!
# The outline of a syntax tree

A backend that shows the syntax tree itself: each node in parentheses with its kind, the leaves
with their text, and comments as `(Comment …)`.  It handles no kind; everything falls back to
the generic rendering.
-/

/-- The backend that outlines a tree. -/
def outline (κ : Type) [Named κ] : Backend κ Unit where
  initial := ()
  comment := fun job span => pure <|
    (Tree.ofFragments [.text "(Comment ", .text (span.textIn job.source)]).withSuffix ")\n"
  handler := fun _ _ => pure none
  fallback := fun job n => do
    return some (← outlineNode job n "").withComments

/-- The outline of a tree as text. -/
def outlineText {κ : Type} [Named κ] (source : String) (root : Node κ) : Except Fault String :=
  ((outline κ).convertRoot { source := source } root).map fun outcome => render outcome.tree

end Transcode.Engine
