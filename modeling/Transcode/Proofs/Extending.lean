import Mathlib.Data.List.Infix
import Transcode.Engine.Run

namespace Transcode.Engine

open Output Trivia

/-!
# Contexts are given back

Whatever a program of a backend or a conversion does, it leaves the context stack as it found it,
has pushed as often as popped, and only adds diagnostics (`State.Extends`).  So a push is never
leaked and a pop never takes a value that somebody else pushed.
-/

variable {κ C : Type}

/-! ### What a run leaves behind -/

/-- `t` follows on `s` with every context given back: the same stack, as many new pushes as new
    pops, and the diagnostics of `s` followed by others. -/
structure State.Extends (s t : State C) : Prop where
  root : t.contexts.root = s.contexts.root
  pushed : t.contexts.pushed = s.contexts.pushed
  counts : ∃ n, t.contexts.pushes = s.contexts.pushes + n ∧ t.contexts.pops = s.contexts.pops + n
  diagnostics : s.diagnostics <+: t.diagnostics

namespace State

/-- A state follows on itself, -/
theorem Extends.refl (s : State C) : s.Extends s :=
  ⟨rfl, rfl, ⟨0, rfl, rfl⟩, List.prefix_refl _⟩

/-- and on what it follows on through a third one. -/
theorem Extends.trans {a b c : State C} (hab : a.Extends b) (hbc : b.Extends c) :
    a.Extends c := by
  obtain ⟨m, hpush, hpop⟩ := hab.counts
  obtain ⟨n, hpush', hpop'⟩ := hbc.counts
  refine ⟨hbc.root.trans hab.root, hbc.pushed.trans hab.pushed, ⟨m + n, ?_, ?_⟩,
    hab.diagnostics.trans hbc.diagnostics⟩
  · rw [hpush', hpush, Nat.add_assoc]
  · rw [hpop', hpop, Nat.add_assoc]

/-- A diagnostic is added at the end. -/
theorem extends_record (s : State C) (entry : Diagnostic) : s.Extends (s.record entry) :=
  ⟨rfl, rfl, ⟨0, rfl, rfl⟩, List.prefix_append _ _⟩

/-- A visit concerns the counter of visits only. -/
theorem extends_visit (s : State C) : s.Extends s.visit :=
  ⟨rfl, rfl, ⟨0, rfl, rfl⟩, List.prefix_refl _⟩

/-- The guard of a push is not refused after anything that gives its own contexts back. -/
theorem release_pushContext {s t : State C} {merge : C → C → C} {update : C}
    (h : (s.pushContext merge update).1.Extends t) :
    t.contexts.release (s.pushContext merge update).2
      = .ok { t.contexts with pushed := t.contexts.pushed.tail, pops := t.contexts.pops + 1 } := by
  have hpushed : t.contexts.pushed = merge s.contexts.top update :: s.contexts.pushed := h.pushed
  have hdepth : t.contexts.depth = s.contexts.depth + 1 := by
    rw [ContextStack.depth, ContextStack.depth, hpushed, List.length_cons, Nat.add_assoc]
  exact ContextStack.release_push merge update hdepth

/-- Giving back the guard of a push, after anything that gives its own contexts back, removes
    the value that was pushed. -/
theorem releaseContext_pushContext (s t : State C) (merge : C → C → C) (update : C)
    (h : (s.pushContext merge update).1.Extends t) :
    s.Extends (t.releaseContext (s.pushContext merge update).2) := by
  obtain ⟨n, hpush, hpop⟩ := h.counts
  have hpushed : t.contexts.pushed = merge s.contexts.top update :: s.contexts.pushed := h.pushed
  have hpush' : t.contexts.pushes = s.contexts.pushes + 1 + n := hpush
  have hpop' : t.contexts.pops = s.contexts.pops + n := hpop
  rw [releaseContext, release_pushContext h]
  refine ⟨h.root, ?_, ⟨n + 1, ?_, ?_⟩, h.diagnostics⟩
  · show t.contexts.pushed.tail = s.contexts.pushed
    rw [hpushed, List.tail_cons]
  · show t.contexts.pushes = s.contexts.pushes + (n + 1)
    omega
  · show t.contexts.pops + 1 = s.contexts.pops + (n + 1)
    omega

/-- Giving a guard back concerns the contexts only. -/
theorem diagnostics_releaseContext (s : State C) (guard : Guard) :
    (s.releaseContext guard).diagnostics = s.diagnostics := by
  rw [releaseContext]
  split <;> rfl

end State

/-- A program gives its contexts back if the answers to its requests do. -/
theorem Program.extends_run {Q α : Type} {answer : Q → StateM (State C) Tree}
    (hanswer : ∀ request (s : State C), s.Extends (answer request s).2) (merge : C → C → C)
    (p : Program Q C α) (s : State C) : s.Extends (p.run answer merge s).2 := by
  induction p generalizing s with
  | pure value => exact State.Extends.refl s
  | call request next ih => exact (hanswer request s).trans (ih _ _)
  | within update body next ihBody ihNext =>
    have hbody := ihBody (s.pushContext merge update).1
    exact (State.releaseContext_pushContext s _ merge update hbody).trans (ihNext _ _)
  | observe next ih => exact ih _ s
  | report entry next ih => exact (s.extends_record entry).trans (ih _)

/-- So does a program under an updated context: after it the update is gone. -/
theorem Program.extends_within {Q α : Type} {answer : Q → StateM (State C) Tree}
    (hanswer : ∀ request (s : State C), s.Extends (answer request s).2) (merge : C → C → C)
    (update : C) (body : Program Q C α) (s : State C) :
    s.Extends ((body.run answer merge (s.pushContext merge update).1).2.releaseContext
      (s.pushContext merge update).2) :=
  State.releaseContext_pushContext s _ merge update (extends_run hanswer merge body _)

section Backend

variable (backend : Backend κ C) (job : Job)

/-- Rendering a comment gives its contexts back. -/
theorem Backend.extends_answerComment (span : Span) (s : State C) :
    s.Extends (backend.answerComment job span s).2 :=
  Program.extends_run nofun backend.merge _ s

/-- Attaching comments gives their contexts back. -/
theorem Backend.extends_finishNode (n : Node κ) (output : Tree) (s : State C) :
    s.Extends (backend.finishNode job n output s).2 := by
  rw [finishNode]
  split
  · exact Program.extends_run (backend.extends_answerComment job) backend.merge _ s
  · exact State.Extends.refl s

/-- So does answering a request, if converting a node does. -/
theorem Backend.extends_answer {convert : Node κ → StateM (State C) Tree}
    (hconvert : ∀ n (s : State C), s.Extends (convert n s).2) (request : Request κ) (s : State C) :
    s.Extends (backend.answer job convert request s).2 := by
  cases request with
  | convert n => exact hconvert n s
  | comment span => exact backend.extends_answerComment job span s

/-- A conversion gives its contexts back, however many levels are left to it. -/
theorem Backend.extends_convert [Named κ] (left : Nat) (n : Node κ) (s : State C) :
    s.Extends (backend.convert job left n s).2 := by
  induction left generalizing n s with
  | zero => exact s.extends_record _
  | succ left ih =>
    have hvisit := s.extends_visit
    have hdispatch := Program.extends_run (backend.extends_answer job ih) backend.merge
      (backend.dispatch job n) s.visit
    exact (hvisit.trans hdispatch).trans (backend.extends_finishNode job n _ _)

end Backend

end Transcode.Engine
