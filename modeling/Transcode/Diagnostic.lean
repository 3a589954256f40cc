import Transcode.Text.Position

namespace Transcode

open Text

/-!
# Diagnostics

A diagnostic is a message about one node of the source, named by its kind and its byte range.
A run collects them in order; they never stop it.
-/

/-- How serious a diagnostic is. -/
inductive Severity
  | info
  | warning
  | error
  deriving DecidableEq, Repr

namespace Severity

/-- The name of a severity. -/
def name : Severity → String
  | .info => "info"
  | .warning => "warning"
  | .error => "error"

/-- The severity with a given name. -/
def ofName? : String → Option Severity
  | "info" => some .info
  | "warning" => some .warning
  | "error" => some .error
  | _ => none

/-- Severities from the mildest to the gravest. -/
def rank : Severity → Nat
  | .info => 0
  | .warning => 1
  | .error => 2

/-- The graver of two severities. -/
def max (a b : Severity) : Severity :=
  if a.rank < b.rank then b else a

/-- The graver of two severities has the greater rank. -/
@[simp] theorem rank_max (a b : Severity) : (a.max b).rank = Nat.max a.rank b.rank := by
  cases a <;> cases b <;> rfl

/-- A severity is found under its name. -/
@[simp] theorem ofName?_name (s : Severity) : ofName? s.name = some s := by
  cases s <;> rfl

end Severity

/-- A message about a node of the source. -/
structure Diagnostic where
  kind : String
  start : Nat
  stop : Nat
  message : String
  severity : Severity
  deriving DecidableEq, Repr

namespace Diagnostic

/-- The diagnostic with the node it is about. -/
def display (d : Diagnostic) : String :=
  d.severity.name ++ ": " ++ d.message ++ " (" ++ d.kind ++ " at " ++ toString d.start ++ ".."
    ++ toString d.stop ++ ")"

/-- The diagnostic with the line and column of its node, if these are words. -/
def displayWith (d : Diagnostic) (table : LineTable) : Except Overflow String := do
  let place ← table.position d.start
  return toString place.line ++ ":" ++ toString place.column ++ ": " ++ d.severity.name ++ ": "
    ++ d.message

/-- Whether some diagnostic is an error. -/
def anyError (ds : List Diagnostic) : Bool :=
  ds.any (·.severity == .error)

/-- The gravest severity among some diagnostics. -/
def worst? : List Diagnostic → Option Severity
  | [] => none
  | d :: ds => some ((worst? ds).elim d.severity d.severity.max)

end Diagnostic

end Transcode
