import Transcode.Diagnostic
import Transcode.Output.Tree

namespace Transcode.Engine

open Output

/-!
# Programs of a backend

A backend's handlers are *programs*: trees of the services that they ask the engine for.  There
are few of these.  A program can have a request answered by a tree (`call`), run another
program under an updated context (`within`), look at the state of the run (`observe`) and record
a diagnostic (`report`).  Everything else that a handler does is an ordinary function of the
source, the settings and its node.

Because a program is data, a statement about all handlers is an induction over programs, and
nothing that a handler does escapes it.  What the requests are is a parameter: handlers ask for
nodes and comments to be converted, and a program over `Empty` makes no requests at all.

A look at the run hands out copies, so that a program can go on with them while contexts are pushed
and popped.  To borrow the innermost context instead, which keeps other contexts from being pushed
meanwhile, is left to the routines of a `Visitor`.
-/

/-- What a program can see of a run in progress, as a copy of its own. -/
structure View (C : Type) where
  /-- The innermost context. -/
  context : C
  /-- How many contexts there are, the root included. -/
  contextDepth : Nat
  /-- How many diagnostics were recorded so far. -/
  reported : Nat

/-- A program that makes requests of type `Q`, under contexts of type `C`. -/
inductive Program (Q C : Type) : Type → Type 1
  /-- Be done. -/
  | pure {α : Type} (value : α) : Program Q C α
  /-- Have a request answered. -/
  | call {α : Type} (request : Q) (next : Tree → Program Q C α) : Program Q C α
  /-- Run `body` with `update` merged onto the innermost context. -/
  | within {α β : Type} (update : C) (body : Program Q C β) (next : β → Program Q C α) :
      Program Q C α
  /-- Look at the run. -/
  | observe {α : Type} (next : View C → Program Q C α) : Program Q C α
  /-- Record a diagnostic. -/
  | report {α : Type} (entry : Diagnostic) (next : Program Q C α) : Program Q C α

namespace Program

variable {Q C : Type}

/-- Go on with `f` when a program is done. -/
def bind {α β : Type} : Program Q C α → (α → Program Q C β) → Program Q C β
  | .pure a, f => f a
  | .call request next, f => .call request fun t => (next t).bind f
  | .within update body next, f => .within update body fun b => (next b).bind f
  | .observe next, f => .observe fun v => (next v).bind f
  | .report entry next, f => .report entry (next.bind f)

instance : Monad (Program Q C) where
  pure := .pure
  bind := .bind

@[simp] theorem pure_bind {α β : Type} (a : α) (f : α → Program Q C β) :
    (Program.pure a).bind f = f a := rfl

/-- Going on with nothing is no change. -/
theorem bind_pure {α : Type} (p : Program Q C α) : p.bind .pure = p := by
  induction p with
  | pure a => rfl
  | call request next ih => simp only [bind, ih]
  | within update body next _ ih => simp only [bind, ih]
  | observe next ih => simp only [bind, ih]
  | report entry next ih => simp only [bind, ih]

/-- It does not matter how steps are grouped. -/
theorem bind_assoc {α β γ : Type} (p : Program Q C α) (f : α → Program Q C β)
    (g : β → Program Q C γ) : (p.bind f).bind g = p.bind fun a => (f a).bind g := by
  induction p with
  | pure a => rfl
  | call request next ih => simp only [bind, ih]
  | within update body next _ ih => simp only [bind, ih]
  | observe next ih => simp only [bind, ih]
  | report entry next ih => simp only [bind, ih]

instance : LawfulMonad (Program Q C) :=
  LawfulMonad.mk' (m := Program Q C) bind_pure (fun _ _ => rfl) bind_assoc

/-- The same program with its requests put in other words. -/
def mapRequests {R α : Type} (f : Q → R) : Program Q C α → Program R C α
  | .pure a => .pure a
  | .call request next => .call (f request) fun t => (next t).mapRequests f
  | .within update body next => .within update (body.mapRequests f) fun b => (next b).mapRequests f
  | .observe next => .observe fun v => (next v).mapRequests f
  | .report entry next => .report entry (next.mapRequests f)

/-! ### Services -/

/-- Have a request answered. -/
def ask (request : Q) : Program Q C Tree :=
  .call request .pure

/-- Run a program under an updated context. -/
def under {α : Type} (update : C) (body : Program Q C α) : Program Q C α :=
  .within update body .pure

/-- The innermost context. -/
def context : Program Q C C :=
  .observe fun v => .pure v.context

/-- How many contexts there are, the root included. -/
def contextDepth : Program Q C Nat :=
  .observe fun v => .pure v.contextDepth

/-- How many diagnostics were recorded so far. -/
def reported : Program Q C Nat :=
  .observe fun v => .pure v.reported

/-- Record a diagnostic. -/
def record (entry : Diagnostic) : Program Q C Unit :=
  .report entry (.pure ())

/-- Have the requests for the items of a list answered, in order. -/
def askAll {ι : Type} (request : ι → Q) : List ι → Program Q C (List Tree)
  | [] => .pure []
  | i :: rest => do
    let t ← ask (request i)
    let ts ← askAll request rest
    return t :: ts

end Program

end Transcode.Engine
