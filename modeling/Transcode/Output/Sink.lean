import Transcode.Text.Blank
import Transcode.Output.Tree

namespace Transcode.Output

open Text

/-!
# The sink: text with lazy indentation

A sink collects output text and owns the indentation.  Indentation is *lazy*: a change of it
is requested, and the first line break written afterwards applies the request.  A tree whose
body stays on one line therefore shifts nothing.  Each line break is followed by the current
indentation; `finish` strips the spaces and tabs that end up at the ends of lines.

Positions in the written text are *marks*; the sink can tell whether anything but blanks was
written after a mark, which decides about separators.
-/

/-- The state of the output. -/
structure Sink where
  /-- The text so far. -/
  buffer : String := ""
  /-- The indentations in force, the innermost first; none means no indentation. -/
  levels : List Nat := []
  /-- The indentation change that the next line break applies. -/
  pending : Int := 0
  /-- How many requests line breaks have applied. -/
  applied : Nat := 0
  /-- The end of the last written piece that shows something. -/
  inkEnd : Nat := 0
  /-- The keys of the trees that were written once and for all. -/
  fired : List String := []
  deriving DecidableEq, Repr

/-- A position in the written text. -/
structure Mark where
  offset : Nat
  deriving DecidableEq, Repr

/-- What it takes to undo an indentation request. -/
structure Restore where
  /-- How many indentations were in force. -/
  depth : Nat
  /-- Whether the request asked for a change at all. -/
  active : Bool
  /-- The request that was pending before. -/
  previous : Int
  /-- How many requests had been applied. -/
  applied : Nat
  deriving DecidableEq, Repr

namespace Sink

/-- The current indentation in spaces. -/
def indentation (s : Sink) : Nat :=
  s.levels.headD 0

/-- Put `spaces` spaces after each line feed. -/
def indentBreaks (spaces : Nat) (cs : List Char) : List Char :=
  cs.flatMap fun c => if c = '\n' then '\n' :: List.replicate spaces ' ' else [c]

/-- Let the pending request take effect.  An indentation never goes below zero. -/
def applyPending (s : Sink) : Sink :=
  if s.pending = 0 then s
  else
    { s with
      levels := (s.indentation + s.pending).toNat :: s.levels
      pending := 0
      applied := s.applied + 1 }

/-- Write a text.  Its first line break applies the pending request, and each is followed by
    the indentation. -/
def write (s : Sink) (text : String) : Sink :=
  let s := if text.toList.contains '\n' then s.applyPending else s
  let buffer := s.buffer ++ String.ofList (indentBreaks s.indentation text.toList)
  { s with
    buffer := buffer
    inkEnd := if hasInk text then buffer.utf8ByteSize else s.inkEnd }

/-- Writing nothing changes nothing. -/
@[simp] theorem write_empty (s : Sink) : s.write "" = s := by
  simp [write, indentBreaks]

/-- Two parts of a text are indented each for itself. -/
theorem indentBreaks_append (spaces : Nat) (a b : List Char) :
    indentBreaks spaces (a ++ b) = indentBreaks spaces a ++ indentBreaks spaces b :=
  List.flatMap_append ..

/-- Without a line break there is nothing to indent. -/
theorem indentBreaks_eq_self {cs : List Char} (h : '\n' ∉ cs) (spaces : Nat) :
    indentBreaks spaces cs = cs := by
  induction cs with
  | nil => rfl
  | cons c cs ih =>
    have hc : c ≠ '\n' := fun e => h (e ▸ List.mem_cons_self)
    have hcs : '\n' ∉ cs := fun e => h (List.mem_cons_of_mem c e)
    rw [← List.singleton_append, indentBreaks_append, ih hcs, indentBreaks]
    simp [hc]

/-- Break the line. -/
def newline (s : Sink) : Sink :=
  s.write "\n"

/-- The position reached. -/
def mark (s : Sink) : Mark :=
  ⟨s.buffer.utf8ByteSize⟩

/-- Whether anything that shows was written after a mark. -/
def wroteSince (s : Sink) (m : Mark) : Bool :=
  m.offset < s.inkEnd

/-- Request an indentation change for the next line break.  It takes the place of a request
    still pending, until it is restored; asking for no change leaves the pending one. -/
def request (s : Sink) (delta : Int) : Sink × Restore :=
  ({ s with pending := if delta = 0 then s.pending else delta },
   { depth := s.levels.length, active := delta ≠ 0, previous := s.pending, applied := s.applied })

/-- Undo a request: drop the indentations put in force since.  The request it had replaced is
    pending again, unless a line break applied a request in between. -/
def restore (s : Sink) (r : Restore) : Sink :=
  if r.active then
    { s with
      levels := s.levels.drop (s.levels.length - r.depth)
      pending := if s.applied = r.applied then r.previous else 0 }
  else s

/-- A request that no line break applied is undone without a trace. -/
theorem restore_request (s : Sink) (delta : Int) :
    (s.request delta).1.restore (s.request delta).2 = s := by
  by_cases h : delta = 0 <;> simp [request, restore, h]

/-- Record a key as written.  The answer tells whether it was new; no key is always new. -/
def recordKey (s : Sink) : Option String → Sink × Bool
  | none => (s, true)
  | some key =>
    if s.fired.contains key then (s, false) else ({ s with fired := key :: s.fired }, true)

/-- Strip the spaces and tabs at the end of each line. -/
def stripLineEnds (cs : List Char) : List Char :=
  ['\n'].intercalate ((cs.splitOn '\n').map (dropEndWhile fun c => c == ' ' || c == '\t'))

/-- The finished text. -/
def finish (s : Sink) : String :=
  String.ofList (stripLineEnds s.buffer.toList)

end Sink

end Transcode.Output
