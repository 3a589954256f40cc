import Transcode.Engine.Backend

namespace Transcode.Engine

open Output Trivia

/-!
# Visitors

A visitor says what the nodes of a language become, as a backend does, and has all services of the
engine at hand wherever it is asked.  What it does are *routines*.  They do what programs do and a
few things more.

* A routine that renders a comment makes requests as others do.  It can have nodes converted, and
  other comments rendered.
* A routine can borrow the innermost context for as long as it does something else (`holding`).
  Until it gives the context back, no other context can be pushed.
* A visitor has a memory of its own, which its routines read and write (`access`).

Every routine comes to an end by itself if its requests do.  What goes on without end does so
through requests, as when a comment asks for a node that it stands before.  A backend is a visitor
that does none of this (`Backend.toVisitor`).
-/

/-- A program of a visitor for nodes of kinds `κ`, under contexts of type `C` and with a memory of
    type `M`. -/
inductive Routine (κ C M : Type) : Type → Type 1
  /-- Be done. -/
  | pure {α : Type} (value : α) : Routine κ C M α
  /-- Have a request answered. -/
  | call {α : Type} (request : Request κ) (next : Tree → Routine κ C M α) : Routine κ C M α
  /-- Run `body` with `update` merged onto the innermost context. -/
  | within {α β : Type} (update : C) (body : Routine κ C M β) (next : β → Routine κ C M α) :
      Routine κ C M α
  /-- Borrow the innermost context and run `body` on it. -/
  | holding {α β : Type} (body : C → Routine κ C M β) (next : β → Routine κ C M α) :
      Routine κ C M α
  /-- Look at the run. -/
  | observe {α : Type} (next : View C → Routine κ C M α) : Routine κ C M α
  /-- Record a diagnostic. -/
  | report {α : Type} (entry : Diagnostic) (next : Routine κ C M α) : Routine κ C M α
  /-- Read and write the memory of the visitor. -/
  | access {α β : Type} (act : M → β × M) (next : β → Routine κ C M α) : Routine κ C M α

/-- A program as a routine, with its requests in the words of the engine. -/
def Program.toRoutine {Q C κ M : Type} (f : Q → Request κ) :
    {α : Type} → Program Q C α → Routine κ C M α
  | _, .pure value => .pure value
  | _, .call request next => .call (f request) fun t => (next t).toRoutine f
  | _, .within update body next => .within update (body.toRoutine f) fun b => (next b).toRoutine f
  | _, .observe next => .observe fun v => (next v).toRoutine f
  | _, .report entry next => .report entry (next.toRoutine f)

/-- What the nodes of a language become. -/
structure Visitor (κ C M : Type) where
  /-- The context at the root. -/
  initial : C
  /-- The old context and an update, merged.  As it is, the update replaces the old one. -/
  merge : C → C → C := fun _ update => update
  /-- The output for a comment. -/
  comment : Job → Span → Routine κ C M Tree :=
    fun job span => .pure (verbatimComment job.source span)
  /-- The output for a node, unless the visitor has nothing for it. -/
  handler : Job → Node κ → Routine κ C M (Option Tree)
  /-- The output for a node that the handler declines. -/
  fallback : Job → Node κ → Routine κ C M (Option Tree) := fun _ _ => .pure none

/-- A backend as a visitor, which has nothing to remember. -/
def Backend.toVisitor {κ C : Type} (backend : Backend κ C) : Visitor κ C Unit where
  initial := backend.initial
  merge := backend.merge
  comment := fun job span => (backend.comment job span).toRoutine nofun
  handler := fun job n => (backend.handler job n).toRoutine id
  fallback := fun job n => (backend.fallback job n).toRoutine id

end Transcode.Engine
