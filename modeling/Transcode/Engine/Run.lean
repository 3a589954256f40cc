import Transcode.Context
import Transcode.Engine.Backend

namespace Transcode.Engine

open Output Trivia

/-!
# Running a backend

A run converts a syntax tree from its root.  Its state is the context stack, the diagnostics so
far and the number of nodes that were handed to the backend.  Conversions nest as deep as the
settings allow, and the recursion is on the number of levels that are left: a node met with none
left comes out as its source text, with an error.
-/

/-- The state of a run. -/
structure State (C : Type) where
  contexts : ContextStack C
  diagnostics : List Diagnostic := []
  visited : Nat := 0

namespace State

variable {C : Type}

/-- What a program can see of the state. -/
def view (s : State C) : View C where
  context := s.contexts.top
  contextDepth := s.contexts.depth
  reported := s.diagnostics.length

/-- Push a context update. -/
def pushContext (s : State C) (merge : C → C → C) (update : C) : State C × Guard :=
  let outcome := s.contexts.push merge (some update)
  ({ s with contexts := outcome.1 }, outcome.2)

/-- Give the guard of a context back.  Should the stack refuse it, the stack stays as it is. -/
def releaseContext (s : State C) (guard : Guard) : State C :=
  match s.contexts.release guard with
  | .ok contexts => { s with contexts := contexts }
  | .error _ => s

/-- Record a diagnostic after the ones before. -/
def record (s : State C) (entry : Diagnostic) : State C :=
  { s with diagnostics := s.diagnostics ++ [entry] }

/-- Count a node that is handed to the backend. -/
def visit (s : State C) : State C :=
  { s with visited := s.visited + 1 }

end State

/-- Run a program, given how its requests are answered and how contexts are merged. -/
def Program.run {Q C : Type} (answer : Q → StateM (State C) Tree) (merge : C → C → C) :
    {α : Type} → Program Q C α → StateM (State C) α
  | _, .pure value => fun s => (value, s)
  | _, .call request next => fun s =>
    let answered := answer request s
    (next answered.1).run answer merge answered.2
  | _, .within update body next => fun s =>
    let pushed := s.pushContext merge update
    let done := body.run answer merge pushed.1
    (next done.1).run answer merge (done.2.releaseContext pushed.2)
  | _, .observe next => fun s => (next s.view).run answer merge s
  | _, .report entry next => fun s => next.run answer merge (s.record entry)

/-- Counts of a run. -/
structure Stats where
  visited : Nat
  pushes : Nat
  pops : Nat
  deriving DecidableEq, Repr

/-- What a run ends with. -/
structure Outcome where
  tree : Tree
  diagnostics : List Diagnostic
  stats : Stats

/-- Running one program after another is running their sequence. -/
theorem Program.run_bind {Q C α β : Type} (answer : Q → StateM (State C) Tree)
    (merge : C → C → C) (p : Program Q C α) (f : α → Program Q C β) (s : State C) :
    (p.bind f).run answer merge s
      = (f (p.run answer merge s).1).run answer merge (p.run answer merge s).2 := by
  induction p generalizing s with
  | pure a => rfl
  | call request next ih => simp only [bind, run, ih]
  | within update body next _ ih => simp only [bind, run, ih]
  | observe next ih => simp only [bind, run, ih]
  | report entry next ih => simp only [bind, run, ih]

namespace Backend

variable {κ C : Type} [Named κ]

/-- Answer a request for a comment. -/
def answerComment (backend : Backend κ C) (job : Job) (span : Span) : StateM (State C) Tree :=
  (backend.comment job span).run nofun backend.merge

/-- Answer a request, given how nodes are converted. -/
def answer (backend : Backend κ C) (job : Job) (convert : Node κ → StateM (State C) Tree) :
    Request κ → StateM (State C) Tree
  | .convert n => convert n
  | .comment span => backend.answerComment job span

/-- The diagnostic about a node that is met with no level left. -/
def refusal (job : Job) (n : Node κ) : Diagnostic :=
  tooDeep n (.recursionLimit (job.settings.depthLimit + 1) job.settings.depthLimit)

/-- What a node becomes that nests too deep: its source text, with an error. -/
def refuse (_ : Backend κ C) (job : Job) (n : Node κ) : StateM (State C) Tree := fun s =>
  (.ofText (n.textIn job.source), s.record (refusal job n))

/-- Put the comments before a node in front of its output, if the output asks for them and is
    not empty: an empty output stays without a trace. -/
def finishNode (backend : Backend κ C) (job : Job) (n : Node κ) (output : Tree) :
    StateM (State C) Tree :=
  if output.wantsComments && !output.isEmpty then
    (attachLeadingTrivia job.source n output).run (backend.answerComment job) backend.merge
  else pure output

/-- Convert a node with so many levels of conversions left. -/
def convert (backend : Backend κ C) (job : Job) : Nat → Node κ → StateM (State C) Tree
  | 0, n => backend.refuse job n
  | left + 1, n => fun s =>
    let done := (backend.dispatch job n).run
      (backend.answer job (backend.convert job left)) backend.merge s.visit
    backend.finishNode job n done.1 done.2

/-- Convert a syntax tree.  The one way to fail is a context stack that is not as it was. -/
def convertRoot (backend : Backend κ C) (job : Job) (root : Node κ) : Except Fault Outcome :=
  let before : State C := { contexts := { root := backend.initial } }
  let done := backend.convert job job.settings.depthLimit root before
  let after := done.2
  if after.contexts.depth = before.contexts.depth then
    .ok {
      tree := done.1
      diagnostics := after.diagnostics
      stats := ⟨after.visited, after.contexts.pushes, after.contexts.pops⟩ }
  else .error (.contextImbalance before.contexts.depth after.contexts.depth)

end Backend

end Transcode.Engine
