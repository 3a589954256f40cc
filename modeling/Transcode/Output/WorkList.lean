import Transcode.Output.Render

namespace Transcode.Output

/-!
# Rendering with a work list

The same output as `Sink.writeTree`, for trees nested deeper than a recursion may go: two
explicit stacks take the place of the calls.  One holds the steps that are left to do.  The
other holds a frame for every tree whose body is open: what undoes its indentation request,
and where its last fragment began.  A step only looks at the innermost frame, so the two stacks
have to stay in step with each other.
-/

/-- A step of the work that is left. -/
inductive Step
  /-- Begin a tree. -/
  | enter (t : Tree)
  /-- Write a fragment. -/
  | write (f : Fragment)
  /-- Open the body of a tree whose beginning is written. -/
  | openBody (t : Tree)
  /-- Go on with the open body of a tree at the fragment with this index. -/
  | child (t : Tree) (index : Nat)

/-- What is kept for a tree whose body is open. -/
structure Frame where
  restore : Restore
  /-- Where the last fragment of the body began. -/
  since : Mark
  deriving DecidableEq, Repr

/-- A rendering in progress.  Both stacks have their top first. -/
structure WorkList where
  sink : Sink
  steps : List Step
  opened : List Frame := []

namespace WorkList

/-- Do a step, which was taken off the steps of `w`. -/
def perform (w : WorkList) : Step → WorkList
  | .enter t =>
    match w.sink.recordKey t.layout.renderOnce with
    | (sink, false) => { w with sink := sink }
    | (sink, true) => { w with sink := sink, steps := t.lead.map .write ++ .openBody t :: w.steps }
  | .write (.text content) => { w with sink := w.sink.write content }
  | .write (.node lead body layout) => { w with steps := .enter ⟨lead, body, layout⟩ :: w.steps }
  | .openBody t =>
    let made := w.sink.openBody t.layout
    { sink := made.1
      steps := .child t 0 :: w.steps
      opened := ⟨made.2, made.1.mark⟩ :: w.opened }
  | .child t index =>
    match t.body[index]? with
    | some f =>
      let sink := match w.opened with
        | frame :: _ => w.sink.writeSeparator t.layout frame.since
        | [] => w.sink
      { sink := sink
        steps := .write f :: .child t (index + 1) :: w.steps
        opened := w.opened.modifyHead fun frame => { frame with since := sink.mark } }
    | none =>
      let sink := match w.opened with
        | frame :: _ => w.sink.restore frame.restore
        | [] => w.sink
      { w with sink := sink.writeSuffix t.layout, opened := w.opened.tail }

/-- One round of the loop: the first step, if any is left. -/
def advance (w : WorkList) : WorkList :=
  match w.steps with
  | [] => w
  | step :: rest => { w with steps := rest }.perform step

end WorkList

/-! ### The loop ends -/

mutual

/-- How many steps it takes at most to write a fragment. -/
def Fragment.workload : Fragment → Nat
  | .text _ => 1
  | .node lead body _ => 4 + workloadAll lead + workloadAll body

/-- How many steps it takes at most to write the fragments of a list in an open body. -/
def workloadAll : List Fragment → Nat
  | [] => 0
  | f :: rest => f.workload + 1 + workloadAll rest

end

/-- How many steps a step leads to at most, itself included. -/
def Step.workload : Step → Nat
  | .enter t => 3 + workloadAll t.lead + workloadAll t.body
  | .write f => f.workload
  | .openBody t => 2 + workloadAll t.body
  | .child t index => 1 + workloadAll (t.body.drop index)

/-- How many steps some steps lead to at most. -/
def totalWorkload : List Step → Nat
  | [] => 0
  | step :: rest => step.workload + totalWorkload rest

/-- The workloads of two lists of steps add up. -/
theorem totalWorkload_append (steps rest : List Step) :
    totalWorkload (steps ++ rest) = totalWorkload steps + totalWorkload rest := by
  induction steps with
  | nil => simp [totalWorkload]
  | cons step steps ih => simp [totalWorkload, ih, Nat.add_assoc]

/-- Writing the beginning of a tree takes no more steps than its fragments do in a body. -/
theorem totalWorkload_map_write (fragments : List Fragment) :
    totalWorkload (fragments.map .write) ≤ workloadAll fragments := by
  induction fragments with
  | nil => simp [totalWorkload, workloadAll]
  | cons f rest ih =>
    simp only [List.map_cons, totalWorkload, Step.workload, workloadAll]
    omega

/-- A step is replaced by less work than it was. -/
theorem WorkList.totalWorkload_perform (w : WorkList) (step : Step) :
    totalWorkload (w.perform step).steps < step.workload + totalWorkload w.steps := by
  match step with
  | .enter t =>
    have h := totalWorkload_map_write t.lead
    simp only [perform]
    split
    · simp only [Step.workload]
      omega
    · simp only [totalWorkload_append, totalWorkload, Step.workload]
      omega
  | .write (.text _) => simp [perform, Step.workload, Fragment.workload]
  | .write (.node lead body layout) =>
    simp only [perform, totalWorkload, Step.workload, Fragment.workload]
    omega
  | .openBody t =>
    simp only [perform, totalWorkload, Step.workload, List.drop_zero]
    omega
  | .child t index =>
    simp only [perform]
    split
    · rename_i f hf
      obtain ⟨hlt, hget⟩ := List.getElem?_eq_some_iff.mp hf
      simp only [totalWorkload, Step.workload, List.drop_eq_getElem_cons hlt, hget, workloadAll]
      omega
    · simp only [Step.workload]
      omega

/-- Every round of the loop leaves less work. -/
theorem WorkList.totalWorkload_advance {w : WorkList} (h : w.steps ≠ []) :
    totalWorkload w.advance.steps < totalWorkload w.steps := by
  obtain ⟨step, rest, hw⟩ := List.exists_cons_of_ne_nil h
  rw [advance, hw]
  exact totalWorkload_perform { w with steps := rest } step

/-- Do rounds until no step is left. -/
def WorkList.run (w : WorkList) : Sink :=
  if _h : w.steps = [] then w.sink else w.advance.run
termination_by totalWorkload w.steps
decreasing_by exact totalWorkload_advance ‹_›

/-- Write a tree by working through a list of steps. -/
def Sink.writeTreeByWork (s : Sink) (t : Tree) : Sink :=
  WorkList.run { sink := s, steps := [.enter t] }

/-- How a tree is walked when it is rendered. -/
inductive Strategy
  /-- By recursion over the tree. -/
  | recursive
  /-- With a work list. -/
  | workList
  deriving DecidableEq, Repr, Inhabited

/-- Write a tree with a strategy. -/
def Sink.writeTreeWith (s : Sink) (t : Tree) : Strategy → Sink
  | .recursive => s.writeTree t
  | .workList => s.writeTreeByWork t

/-- The text of a tree, rendered with a strategy. -/
def renderWith (strategy : Strategy) (t : Tree) : String :=
  (Sink.writeTreeWith {} t strategy).finish

end Transcode.Output
