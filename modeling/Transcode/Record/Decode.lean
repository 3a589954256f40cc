import Transcode.Diagnostic
import Transcode.Record.Reader
import Transcode.Settings

namespace Transcode

open Record

/-!
# Records in JSON

Settings and diagnostics can be given in JSON, as objects or as arrays.  In an object, fields with
other names are ignored, and no name that counts may occur twice.  In an array, the fields come
without their names, in the order of `fieldNames`.
-/

/-- The fields of a diagnostic. -/
def Diagnostic.fieldNames : List String :=
  ["kind", "start", "end", "message", "severity"]

/-- The diagnostic that a JSON text gives; every field has to be there. -/
def Diagnostic.ofJson? (text : String) : Option Diagnostic := do
  let fields ← (← Value.ofText? text).fields? fieldNames
  return {
    kind := ← required fields "kind" Value.text?
    start := ← required fields "start" Value.word?
    stop := ← required fields "end" Value.word?
    message := ← required fields "message" Value.text?
    severity := ← required fields "severity" fun v => v.choice?.bind Severity.ofName? }

/-- The fields of settings. -/
def Settings.fieldNames : List String :=
  ["unknown_nodes", "max_recursion_depth", "render_strategy"]

/-- The settings that a JSON text gives; a missing field takes its default. -/
def Settings.ofJson? (text : String) : Option Settings := do
  let fields ← (← Value.ofText? text).fields? fieldNames
  return {
    unknownNodes := ← optional fields "unknown_nodes"
      (fun v => v.choice?.bind UnknownNodes.ofName?) .bestEffort
    depthLimit := ← optional fields "max_recursion_depth" Value.word? 256
    strategy := ← optional fields "render_strategy" (fun v => v.choice?.bind strategyOfName?)
      .recursive }

-- An array may end early, but not late.
example : Settings.ofJson? "[\"strict\", 7]" = some ⟨.strict, 7, .recursive⟩ := by decide +kernel
example : Settings.ofJson? "[\"strict\", 7, \"recursive\", 0]" = none := by decide +kernel

end Transcode
