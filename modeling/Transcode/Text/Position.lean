namespace Transcode.Text

/-!
# Lines and columns

A byte offset into a text is shown as a line and a column, both counted from one; columns
count bytes.  Every line feed begins a new line, and an offset past the end of the text lies
on its last line.

Lines and columns are 64-bit words, and so are offsets.  A sum that does not fit into a word is no
position but an overflow.
-/

/-- A place in a text as people count it. -/
structure Position where
  line : Nat
  column : Nat
  deriving DecidableEq, Repr

/-- What becomes of a sum that does not fit into a 64-bit word. -/
inductive Overflow
  | add
  deriving DecidableEq, Repr

/-- The text of an overflow. -/
def Overflow.message : Overflow → String
  | .add => "attempt to add with overflow"

/-- The sum of two 64-bit words, checked. -/
def addWords (a b : Nat) : Except Overflow Nat :=
  if a + b < UInt64.size then .ok (a + b) else .error .add

/-- How many items of a list satisfy `p`, if those that do come first.  The search halves the list:
    if the item in the middle satisfies `p`, so do those before it, and otherwise none of those
    behind it does. -/
def partitionPoint {α : Type} (p : α → Bool) (items : List α) : Nat :=
  let middle := items.length / 2
  match h : items.drop middle with
  | [] => 0
  | item :: behind =>
    if p item then middle + 1 + partitionPoint p behind
    else partitionPoint p (items.take middle)
termination_by items.length
decreasing_by
  all_goals
    have hlength := congrArg List.length h
    simp only [List.length_drop, List.length_cons, List.length_take] at hlength ⊢
    omega

/-- The offsets at which the lines of a text begin, in order. -/
structure LineTable where
  starts : List Nat
  deriving DecidableEq, Repr

/-- The offsets just after the line feeds of `cs`, whose first character stands at `offset`. -/
def afterBreaks (offset : Nat) : List Char → List Nat
  | [] => []
  | c :: cs =>
    let next := offset + c.utf8Size
    if c = '\n' then next :: afterBreaks next cs else afterBreaks next cs

/-- The line table of a text. -/
def LineTable.ofText (s : String) : LineTable where
  starts := 0 :: afterBreaks 0 s.toList

/-- Where an offset lies: the last line that begins at or before it, and the distance from
    that line's beginning, both counted from one. -/
def LineTable.position (table : LineTable) (offset : Nat) : Except Overflow Position := do
  let index := partitionPoint (· ≤ offset) table.starts - 1
  let start := table.starts[index]?.getD 0
  return ⟨← addWords index 1, ← addWords (offset - start) 1⟩

example : ((LineTable.ofText "abc\ndefg\nhi").position 4).toOption = some ⟨2, 1⟩ := by
  decide +kernel
example : ((LineTable.ofText "abc\ndefg\nhi").position 100).toOption = some ⟨3, 92⟩ := by
  decide +kernel

end Transcode.Text
