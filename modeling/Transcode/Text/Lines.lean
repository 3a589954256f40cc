import Transcode.Text.Blank

namespace Transcode.Text

/-!
# Lines of a text

Two ways to cut a text at its line feeds.  `pieces` keeps everything: joining the pieces
with line feeds gives the text back.  `lines` reads a text as a list of *terminated* lines:
a line feed ends a line, together with one carriage return directly before it, and nothing
after the last line feed is no line at all.
-/

/-- The parts of a text between its line feeds, the empty ones included. -/
def pieces (cs : List Char) : List (List Char) :=
  cs.splitOn '\n'

/-- Drop one carriage return at the end. -/
def dropReturn (line : List Char) : List Char :=
  if line.getLast? = some '\r' then line.dropLast else line

/-- The lines of a text: each ends at a line feed, or at the end of the text if anything
    stands there.  A line that ends at a line feed loses one carriage return before it. -/
def lines (cs : List Char) : List (List Char) :=
  let parts := pieces cs
  let terminated := parts.dropLast.map dropReturn
  match parts.getLast? with
  | some (c :: rest) => terminated ++ [c :: rest]
  | _ => terminated

/-- How many line feeds a text has. -/
def countBreaks (s : String) : Nat :=
  s.toList.count '\n'

/-- Whether a text has a line feed. -/
def hasBreak (s : String) : Bool :=
  s.toList.contains '\n'

/-- A text of `n` line feeds. -/
def breaks (n : Nat) : String :=
  String.ofList (List.replicate n '\n')

/-- Nothing is lost between the pieces but the line feeds. -/
theorem intercalate_pieces (cs : List Char) : ['\n'].intercalate (pieces cs) = cs :=
  List.intercalate_splitOn '\n'

/-- A text has a line unless it is empty. -/
theorem lines_ne_nil {cs : List Char} (h : cs ≠ []) : lines cs ≠ [] := by
  rw [lines]
  intro hlines
  have hparts := intercalate_pieces cs
  cases hsplit : pieces cs with
  | nil =>
    rw [hsplit] at hparts
    exact h hparts.symm
  | cons part rest =>
    cases rest with
    | nil =>
      cases part with
      | nil =>
        rw [hsplit] at hparts
        exact h hparts.symm
      | cons c part =>
        rw [hsplit] at hlines
        cases hlines
    | cons part' rest =>
      rw [hsplit] at hlines
      split at hlines
      · simp at hlines
      · cases hlines

-- A return belongs to the break after it; a last line without a break keeps its own.
example : lines ['a', '\r', '\n', '\n', 'b', '\r'] = [['a'], [], ['b', '\r']] := by decide

-- Nothing after the last line feed is no line.
example : lines ['a', '\n'] = [['a']] ∧ lines [] = [] := by decide

end Transcode.Text
