import Transcode.Output.WorkList

namespace Transcode

open Output

/-!
# Settings of a run

Three choices: what comes out for a node that nothing handles, how deep conversions may nest,
and how the output tree is walked when it is rendered.
-/

/-- What comes out for a node that nothing handles. -/
inductive UnknownNodes
  /-- The node's source text. -/
  | bestEffort
  /-- A visible placeholder, with the children of the node converted below it. -/
  | strict
  deriving DecidableEq, Repr

/-- The choices that a run is made with. -/
structure Settings where
  unknownNodes : UnknownNodes := .bestEffort
  /-- How many conversions may be in progress within each other. -/
  depthLimit : Nat := 256
  strategy : Strategy := .recursive
  deriving DecidableEq, Repr

/-- The names of the choices for unknown nodes. -/
def UnknownNodes.name : UnknownNodes → String
  | .bestEffort => "best_effort"
  | .strict => "strict"

/-- The choice with a given name. -/
def UnknownNodes.ofName? : String → Option UnknownNodes
  | "best_effort" => some .bestEffort
  | "strict" => some .strict
  | _ => none

/-- The names of the rendering strategies. -/
def strategyName : Strategy → String
  | .recursive => "recursive"
  | .workList => "work_list"

/-- The rendering strategy with a given name. -/
def strategyOfName? : String → Option Strategy
  | "recursive" => some .recursive
  | "work_list" => some .workList
  | _ => none

@[simp] theorem UnknownNodes.ofName?_name (u : UnknownNodes) : ofName? u.name = some u := by
  cases u <;> rfl

@[simp] theorem strategyOfName?_strategyName (s : Strategy) :
    strategyOfName? (strategyName s) = some s := by
  cases s <;> rfl

end Transcode
