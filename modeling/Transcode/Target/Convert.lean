import Transcode.Engine.Outline
import Transcode.Target.Backend

namespace Transcode.Target

open Output Engine Script

/-!
# From a script to Python

The whole way from source to code: the script is parsed, its tree is run through the backend,
and the output is rendered.
-/

/-- Why there is no code for a source. -/
inductive Failure
  /-- The source is no script. -/
  | source (e : SourceError)
  /-- The engine is at fault. -/
  | engine (f : Fault)

/-- Code, and what could not be written in it. -/
structure Conversion where
  code : String
  diagnostics : List Diagnostic

/-- Run the backend over the tree of a source. -/
def convertTree (source : String) (settings : Settings) (root : Ast) : Except Fault Outcome :=
  backend.convertRoot { source := source, settings := settings } root

/-- The Python code of a script. -/
def toPython (source : String) (settings : Settings := {}) : Except Failure Conversion := do
  let root ← (parse source).mapError .source
  let outcome ← (convertTree source settings root).mapError .engine
  return ⟨renderWith settings.strategy outcome.tree, outcome.diagnostics⟩

/-- The outline of a script's syntax tree. -/
def outlineScript (source : String) : Except Failure String := do
  let root ← (parse source).mapError .source
  (outlineText source root).mapError .engine

end Transcode.Target
