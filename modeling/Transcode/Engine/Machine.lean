import Transcode.Engine.Run
import Transcode.Engine.Visitor
import Transcode.Nesting

namespace Transcode.Engine

open Output Trivia

/-!
# Running a visitor

A visitor is run by a machine that takes one step at a time.  It holds the routine that is being
run, the *frames* of the calls that enclose it, and the state of the run.  So a run need not end to
be spoken of, and every call that is in progress can be seen in the frames.

To convert a node the engine enters a level of the nesting guard, on a copy.  If that is refused,
the copy is dropped and the node comes out as its text, with an error.  Otherwise the copy becomes
the guard and the node is dispatched: the handler is asked for an output, then the fallback, and
then the settings decide.  When the output is there the level is left, and only then are the
comments before the node put in front of it, if the output asks for them.
-/

/-- The state of a run with a visitor. -/
structure Live (C M : Type) where
  run : State C
  /-- The levels that are open. -/
  guard : NestingGuard := {}
  /-- How many routines borrow the innermost context at the moment. -/
  borrows : Nat := 0
  /-- What the visitor remembers. -/
  memory : M

/-- How a run breaks off. -/
inductive Panic
  /-- The context stack is to change while a routine borrows from it. -/
  | borrowed
  /-- A context is to be removed that is not the innermost one. -/
  | imbalance (i : Imbalance)
  deriving DecidableEq, Repr

namespace Live

variable {C M : Type}

/-- Push a context update. -/
def pushContext (s : Live C M) (merge : C → C → C) (update : C) :
    Except Panic (Live C M × Guard) :=
  if s.borrows = 0 then
    let pushed := s.run.pushContext merge update
    .ok ({ s with run := pushed.1 }, pushed.2)
  else .error .borrowed

/-- Give the guard of a context back. -/
def releaseContext (s : Live C M) (guard : Guard) : Except Panic (Live C M) :=
  if s.borrows = 0 then
    match s.run.contexts.release guard with
    | .ok contexts => .ok { s with run := { s.run with contexts := contexts } }
    | .error i => .error (.imbalance i)
  else .error .borrowed

/-- Borrow the innermost context. -/
def borrow (s : Live C M) : Live C M :=
  { s with borrows := s.borrows + 1 }

/-- Give a borrowed context back. -/
def giveBack (s : Live C M) : Live C M :=
  { s with borrows := s.borrows - 1 }

/-- Record a diagnostic. -/
def record (s : Live C M) (entry : Diagnostic) : Live C M :=
  { s with run := s.run.record entry }

end Live

/-! ### The machine -/

/-- The calls in progress around a routine that ends with a value of type `α`, the innermost
    first. -/
inductive Frames (κ C M : Type) : Type → Type 1
  /-- Nothing is left to do. -/
  | root : Frames κ C M Tree
  /-- A request is being answered. -/
  | answer {α : Type} (next : Tree → Routine κ C M α) (rest : Frames κ C M α) : Frames κ C M Tree
  /-- Something is done under an update, and the guard of the push is still to be given back. -/
  | within {α β : Type} (guard : Guard) (update : C) (next : β → Routine κ C M α)
      (rest : Frames κ C M α) : Frames κ C M β
  /-- Something is done on a borrowed context. -/
  | holding {α β : Type} (next : β → Routine κ C M α) (rest : Frames κ C M α) : Frames κ C M β
  /-- The handler has been asked for the output of a node. -/
  | handler (n : Node κ) (rest : Frames κ C M Tree) : Frames κ C M (Option Tree)
  /-- The fallback has been asked for the output of a node. -/
  | fallback (n : Node κ) (rest : Frames κ C M Tree) : Frames κ C M (Option Tree)
  /-- The engine makes something that stands in for a node. -/
  | unknown (n : Node κ) (rest : Frames κ C M Tree) : Frames κ C M Tree
  /-- The engine puts the comments before a node in front of its output. -/
  | leading (n : Node κ) (rest : Frames κ C M Tree) : Frames κ C M Tree
  /-- The visitor renders a comment. -/
  | comment (span : Span) (rest : Frames κ C M Tree) : Frames κ C M Tree

/-- A run at a moment. -/
structure Config (κ C M : Type) where
  {α : Type}
  /-- What is being run. -/
  routine : Routine κ C M α
  frames : Frames κ C M α
  state : Live C M

/-- What can be seen of a step. -/
inductive Event (κ : Type)
  /-- A node is handed to the visitor. -/
  | dispatched (n : Node κ)
  /-- A diagnostic is recorded, by the engine on its own account or by a routine of the visitor. -/
  | reported (entry : Diagnostic) (own : Bool)

/-- What comes of a step. -/
inductive Next (κ C M : Type)
  /-- The run goes on. -/
  | to (event : Option (Event κ)) (c : Config κ C M)
  /-- The run is over. -/
  | done (output : Tree) (s : Live C M)
  /-- The run breaks off. -/
  | panic (p : Panic)

section

variable {κ C M : Type}

/-- Put the comments before a node in front of its output, if the output asks for them and is
    not empty. -/
def attach (job : Job) (n : Node κ) (output : Tree) (rest : Frames κ C M Tree) (s : Live C M) :
    Config κ C M :=
  if output.wantsComments && !output.isEmpty then
    ⟨(attachLeadingTrivia job.source n output).toRoutine .comment, .leading n rest, s⟩
  else ⟨.pure output, rest, s⟩

/-- Leave the level of a node, now that its output is there. -/
def leave (job : Job) (n : Node κ) (output : Tree) (rest : Frames κ C M Tree) (s : Live C M) :
    Config κ C M :=
  attach job n output rest { s with guard := s.guard.exit }

namespace Visitor

variable [Named κ] (visitor : Visitor κ C M) (job : Job)

/-- Begin to convert a node. -/
def enter (n : Node κ) (rest : Frames κ C M Tree) (s : Live C M) : Next κ C M :=
  let entered := s.guard.enter job.settings.depthLimit
  match entered.2 with
  | none =>
    .to (some (.dispatched n))
      ⟨visitor.handler job n, .handler n rest, { s with run := s.run.visit, guard := entered.1 }⟩
  | some fault =>
    .to (some (.reported (tooDeep n fault) true))
      (attach job n (.ofText (n.textIn job.source)) rest (s.record (tooDeep n fault)))

/-- Go on with the innermost call, now that its routine is done. -/
def resume : {α : Type} → α → Frames κ C M α → Live C M → Next κ C M
  | _, output, .root, s => .done output s
  | _, output, .answer next rest, s => .to none ⟨next output, rest, s⟩
  | _, b, .within guard _ next rest, s =>
    match s.releaseContext guard with
    | .ok s => .to none ⟨next b, rest, s⟩
    | .error p => .panic p
  | _, b, .holding next rest, s => .to none ⟨next b, rest, s.giveBack⟩
  | _, some output, .handler n rest, s => .to none (leave job n output rest s)
  | _, none, .handler n rest, s => .to none ⟨visitor.fallback job n, .fallback n rest, s⟩
  | _, some output, .fallback n rest, s => .to none (leave job n output rest s)
  | _, none, .fallback n rest, s =>
    .to (some (.reported (unsupported n) true))
      ⟨(standIn job n).toRoutine id, .unknown n rest, s.record (unsupported n)⟩
  | _, output, .unknown n rest, s => .to none (leave job n output rest s)
  | _, output, .leading _ rest, s => .to none ⟨.pure output, rest, s⟩
  | _, output, .comment _ rest, s => .to none ⟨.pure output, rest, s⟩

/-- Take a step. -/
def step : Config κ C M → Next κ C M
  | ⟨.pure value, rest, s⟩ => visitor.resume job value rest s
  | ⟨.call (.convert n) next, rest, s⟩ => visitor.enter job n (.answer next rest) s
  | ⟨.call (.comment span) next, rest, s⟩ =>
    .to none ⟨visitor.comment job span, .comment span (.answer next rest), s⟩
  | ⟨.within update body next, rest, s⟩ =>
    match s.pushContext visitor.merge update with
    | .ok (s, guard) => .to none ⟨body, .within guard update next rest, s⟩
    | .error p => .panic p
  | ⟨.holding body next, rest, s⟩ =>
    .to none ⟨body s.run.contexts.top, .holding next rest, s.borrow⟩
  | ⟨.observe next, rest, s⟩ => .to none ⟨next s.run.view, rest, s⟩
  | ⟨.report entry next, rest, s⟩ =>
    .to (some (.reported entry false)) ⟨next, rest, s.record entry⟩
  | ⟨.access act next, rest, s⟩ =>
    let accessed := act s.memory
    .to none ⟨next accessed.1, rest, { s with memory := accessed.2 }⟩

/-- The configuration after a step, if the run goes on. -/
def next? (c : Config κ C M) : Option (Config κ C M) :=
  match visitor.step job c with
  | .to _ d => some d
  | _ => none

/-- The result of the machine at a configuration, if it stops there. -/
def result? (c : Config κ C M) : Option (Except Panic (Tree × Live C M)) :=
  match visitor.step job c with
  | .to _ _ => none
  | .done output s => some (.ok (output, s))
  | .panic p => some (.error p)

/-- The configuration after so many steps, or the last one if the run stops before. -/
def after : Nat → Config κ C M → Config κ C M
  | 0, c => c
  | k + 1, c =>
    match visitor.next? job c with
    | some d => after k d
    | none => c

/-- A run at its beginning. -/
def start (root : Node κ) (memory : M) : Config κ C M where
  routine := .call (.convert root) .pure
  frames := .root
  state := { run := { contexts := { root := visitor.initial } }, memory := memory }

/-- Why a run has no outcome. -/
inductive Failure
  /-- It broke off. -/
  | panic (p : Panic)
  /-- It is at fault. -/
  | fault (f : Fault)
  deriving DecidableEq, Repr

/-- What becomes of the result of a run that began in the state `before`.  The run is at fault if
    the context stack is not as it was. -/
def conclude (before : State C) : Except Panic (Tree × Live C M) → Except Failure Outcome
  | .error p => .error (.panic p)
  | .ok (output, s) =>
    let after := s.run
    if after.contexts.depth = before.contexts.depth then
      .ok {
        tree := output
        diagnostics := after.diagnostics
        stats := ⟨after.visited, after.contexts.pushes, after.contexts.pops⟩ }
    else .error (.fault (.contextImbalance before.contexts.depth after.contexts.depth))

/-- Convert a syntax tree, with what the visitor remembers from before, if no more than so many
    steps lead to the end. -/
def translateWithin (k : Nat) (root : Node κ) (memory : M) : Option (Except Failure Outcome) :=
  let before := visitor.start root memory
  (visitor.result? job (visitor.after job k before)).map (conclude before.state.run)

end Visitor

end

end Transcode.Engine
