import Transcode.Output.WorkList

namespace Transcode.Output

/-!
# Sessions with a sink

A session drives one sink by commands and remembers what the sink handed out: the marks, and
the undo records of indentation requests, each of which can be used once.  The sinks that a
run of commands leads to are exactly those that a client can bring about.
-/

/-- An operation of a sink, with marks and undo records named by their number. -/
inductive Command
  | write (text : String)
  | newline
  | writeTree (t : Tree) (strategy : Strategy)
  | request (delta : Int)
  | restore (number : Nat)
  | mark
  | wroteSince (number : Nat)
  | recordKey (key : Option String)

/-- What a command answers. -/
inductive Reply
  | done
  | number (n : Nat)
  | verdict (b : Bool)
  deriving DecidableEq, Repr

/-- A sink together with what it handed out, the first first. -/
structure Session where
  sink : Sink := {}
  /-- The undo records; one that was used is gone. -/
  restores : List (Option Restore) := []
  marks : List Mark := []
  deriving DecidableEq, Repr

namespace Session

/-- Carry out a command. -/
def run (s : Session) : Command → Session × Reply
  | .write text => ({ s with sink := s.sink.write text }, .done)
  | .newline => ({ s with sink := s.sink.newline }, .done)
  | .writeTree t strategy => ({ s with sink := s.sink.writeTreeWith t strategy }, .done)
  | .request delta =>
    let made := s.sink.request delta
    ({ s with sink := made.1, restores := s.restores ++ [some made.2] },
      .number s.restores.length)
  | .restore n =>
    match s.restores[n]?.join with
    | some restore =>
      ({ s with sink := s.sink.restore restore, restores := s.restores.set n none }, .verdict true)
    | none => (s, .verdict false)
  | .mark => ({ s with marks := s.marks ++ [s.sink.mark] }, .number s.marks.length)
  | .wroteSince n =>
    match s.marks[n]? with
    | some m => (s, .verdict (s.sink.wroteSince m))
    | none => (s, .done)
  | .recordKey key =>
    let recorded := s.sink.recordKey key
    ({ s with sink := recorded.1 }, .verdict recorded.2)

/-- Carry out some commands in order. -/
def runAll (s : Session) (commands : List Command) : Session :=
  commands.foldl (fun s c => (s.run c).1) s

end Session

end Transcode.Output
