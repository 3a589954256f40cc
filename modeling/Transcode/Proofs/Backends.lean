import Transcode.Proofs.Answers

namespace Transcode.Engine

open Output Trivia

/-!
# Backends on the machine

The machine does with a backend what `Backend.convertRoot` does, which recurses on the levels that
are left and not on a stack of frames.  Whatever is answered there leads to the same answer here, in
any frames (`Visitor.Simulates`), because the guard of the machine always stands at the levels that
are taken.  So what is shown of the runs of visitors holds of backends, and the other way round
(`Backend.translate_eq`).
-/

variable {κ C : Type}

section

variable [Named κ] (visitor : Visitor κ C Unit) (job : Job)

/-- With the guard at `guard` and nothing borrowed, a request is answered by the machine as it is by
    `answer`. -/
def Visitor.Simulates (guard : NestingGuard) (request : Request κ)
    (answer : StateM (State C) Tree) : Prop :=
  ∀ {α : Type} (next : Tree → Routine κ C Unit α) (frames : Frames κ C Unit α) (run : State C),
    visitor.LeadsTo job ⟨.call request next, frames, { run, guard, memory := () }⟩
      ⟨next (answer run).1, frames, { run := (answer run).2, guard, memory := () }⟩

variable {visitor job} {Q α : Type} {guard : NestingGuard}

/-- The guard of a push is given back after anything that gives its own contexts back. -/
theorem Visitor.leadsTo_release {β : Type} {s t : State C} {update : C}
    (h : (s.pushContext visitor.merge update).1.Extends t) (b : β)
    (next : β → Routine κ C Unit α) (frames : Frames κ C Unit α) :
    visitor.LeadsTo job
      ⟨.pure b, .within (s.pushContext visitor.merge update).2 update next frames,
        { run := t, guard, memory := () }⟩
      ⟨next b, frames, {
        run := t.releaseContext (s.pushContext visitor.merge update).2, guard, memory := () }⟩ := by
  have hrelease := State.release_pushContext h
  rw [State.releaseContext, hrelease]
  exact .of_step (Visitor.step_of_release rfl hrelease)

/-- A program is run by the machine as it is by itself, if its requests are answered in the same
    way. -/
theorem Visitor.leadsTo_program {f : Q → Request κ} (answer : Q → StateM (State C) Tree)
    (hextends : ∀ request (s : State C), s.Extends (answer request s).2)
    (hanswer : ∀ request, visitor.Simulates job guard (f request) (answer request))
    (p : Program Q C α) (frames : Frames κ C Unit α) (run : State C) :
    visitor.LeadsTo job ⟨p.toRoutine f, frames, { run, guard, memory := () }⟩
      ⟨.pure (p.run answer visitor.merge run).1, frames,
        { run := (p.run answer visitor.merge run).2, guard, memory := () }⟩ := by
  induction p generalizing run with
  | pure a => exact ⟨[], .refl _⟩
  | call request next ih => exact (hanswer request _ frames run).trans (ih _ frames _)
  | within update body next ihBody ih =>
    have hpush : visitor.LeadsTo job
        ⟨(Program.within update body next).toRoutine f, frames, { run, guard, memory := () }⟩ _ :=
      .of_step (Visitor.step_of_free rfl)
    have hbody := Program.extends_run hextends visitor.merge body
      (run.pushContext visitor.merge update).1
    exact ((hpush.trans (ihBody _ _)).trans (Visitor.leadsTo_release hbody _ _ _)).trans
      (ih _ frames _)
  | observe next ih => exact (Visitor.LeadsTo.of_step rfl).trans (ih run.view frames run)
  | report entry next ih =>
    exact (Visitor.LeadsTo.of_step rfl).trans (ih frames (run.record entry))

end

section

variable [Named κ] (backend : Backend κ C) (job : Job) {guard : NestingGuard}

/-- A comment is rendered in the same way. -/
theorem Backend.simulates_comment (span : Span) :
    backend.toVisitor.Simulates job guard (.comment span) (backend.answerComment job span) := by
  intro α next frames run
  have hbegin : backend.toVisitor.LeadsTo job
      ⟨.call (.comment span) next, frames, { run, guard, memory := () }⟩
      ⟨backend.toVisitor.comment job span, .comment span (.answer next frames),
        { run, guard, memory := () }⟩ := .of_step rfl
  have hrender : backend.toVisitor.LeadsTo job
      ⟨backend.toVisitor.comment job span, .comment span (.answer next frames),
        { run, guard, memory := () }⟩
      ⟨.pure (backend.answerComment job span run).1, .comment span (.answer next frames),
        { run := (backend.answerComment job span run).2, guard, memory := () }⟩ :=
    Visitor.leadsTo_program _ (fun request => request.elim) (fun request => request.elim) _ _ run
  exact ((hbegin.trans hrender).trans (.of_step rfl)).trans (.of_step rfl)

/-- Comments are attached in the same way. -/
theorem Backend.leadsTo_leave {α : Type} (n : Node κ) (output : Tree)
    (next : Tree → Routine κ C Unit α) (frames : Frames κ C Unit α) (run : State C)
    (entered : NestingGuard) (hexit : entered.exit = guard) :
    backend.toVisitor.LeadsTo job
      (leave job n output (.answer next frames) { run, guard := entered, memory := () })
      ⟨next (backend.finishNode job n output run).1, frames,
        { run := (backend.finishNode job n output run).2, guard, memory := () }⟩ := by
  subst hexit
  rw [leave, attach, finishNode]
  split
  · have hattach : backend.toVisitor.LeadsTo job
        ⟨(attachLeadingTrivia job.source n output).toRoutine .comment,
          .leading n (.answer next frames), { run, guard := entered.exit, memory := () }⟩ _ :=
      Visitor.leadsTo_program _ (backend.extends_answerComment job)
        (backend.simulates_comment job) _ _ run
    exact (hattach.trans (.of_step rfl)).trans (.of_step rfl)
  · exact .of_step rfl

/-- What becomes of a node, one program after the other. -/
theorem Backend.run_dispatch (answer : Request κ → StateM (State C) Tree) (n : Node κ)
    (s : State C) :
    (backend.dispatch job n).run answer backend.merge s =
      let handled := (backend.handler job n).run answer backend.merge s
      match handled.1 with
      | some output => (output, handled.2)
      | none =>
        let fallen := (backend.fallback job n).run answer backend.merge handled.2
        match fallen.1 with
        | some output => (output, fallen.2)
        | none =>
          (standIn job n).run answer backend.merge (fallen.2.record (unsupported n)) := by
  rw [dispatch]
  refine (Program.run_bind ..).trans ?_
  rcases (backend.handler job n).run answer backend.merge s with ⟨_ | output, s'⟩
  · refine (Program.run_bind ..).trans ?_
    simp only
    rcases (backend.fallback job n).run answer backend.merge s' with ⟨_ | output, s''⟩
    · rfl
    · rfl
  · rfl

/-- A node that is dispatched becomes an answer in the same way, if requests do one level deeper. -/
theorem Backend.leadsTo_of_dispatched {answer : Request κ → StateM (State C) Tree}
    (hextends : ∀ request (s : State C), s.Extends (answer request s).2) {entered : NestingGuard}
    (hanswer : ∀ request, backend.toVisitor.Simulates job entered request (answer request))
    (hexit : entered.exit = guard) {α : Type} (n : Node κ) (next : Tree → Routine κ C Unit α)
    (frames : Frames κ C Unit α) (run : State C) :
    let done := (backend.dispatch job n).run answer backend.merge run
    backend.toVisitor.LeadsTo job
      ⟨(backend.handler job n).toRoutine id, .handler n (.answer next frames),
        { run, guard := entered, memory := () }⟩
      ⟨next (backend.finishNode job n done.1 done.2).1, frames,
        { run := (backend.finishNode job n done.1 done.2).2, guard, memory := () }⟩ := by
  have hprogram : ∀ {β : Type} (p : Task κ C β) (inner : Frames κ C Unit β) (run : State C),
      backend.toVisitor.LeadsTo job
        ⟨p.toRoutine id, inner, { run, guard := entered, memory := () }⟩
        ⟨.pure (p.run answer backend.merge run).1, inner,
          { run := (p.run answer backend.merge run).2, guard := entered, memory := () }⟩ :=
    fun p inner run => Visitor.leadsTo_program _ hextends hanswer p inner run
  have hleave := fun output run =>
    backend.leadsTo_leave job n output next frames run entered hexit
  rw [backend.run_dispatch]
  -- The handler, the fallback and the rule for unknown nodes come one after the other in both.
  have hhandler := hprogram (backend.handler job n) (.handler n (.answer next frames)) run
  revert hhandler
  rcases (backend.handler job n).run answer backend.merge run with ⟨_ | output, s⟩ <;>
    intro hhandler
  · have hfallback := (hhandler.trans (.of_step rfl)).trans
      (hprogram (backend.fallback job n) (.fallback n (.answer next frames)) s)
    revert hfallback
    simp only
    rcases (backend.fallback job n).run answer backend.merge s with ⟨_ | output, t⟩ <;>
      intro hfallback
    · have hstandIn := (hfallback.trans (.of_step rfl)).trans
        (hprogram (standIn job n) (.unknown n (.answer next frames)) (t.record (unsupported n)))
      exact (hstandIn.trans (.of_step rfl)).trans (hleave _ _)
    · exact (hfallback.trans (.of_step rfl)).trans (hleave output t)
  · exact (hhandler.trans (.of_step rfl)).trans (hleave output s)

/-- A node is converted in the same way, with the levels left that the guard does not stand at. -/
theorem Backend.simulates_convert (hlimit : job.settings.depthLimit < NestingGuard.maxDepth)
    {left : Nat} (hleft : guard.depth + left = job.settings.depthLimit) (n : Node κ) :
    backend.toVisitor.Simulates job guard (.convert n) (backend.convert job left n) := by
  induction left generalizing guard n with
  | zero =>
    intro α next frames run
    have hrefused : backend.toVisitor.LeadsTo job
        ⟨.call (.convert n) next, frames, { run, guard, memory := () }⟩ _ :=
      .of_step (Visitor.step_of_refused (NestingGuard.enter_of_eq hlimit hleft))
    exact hrefused.trans (.of_step rfl)
  | succ left ih =>
    intro α next frames run
    have henter := NestingGuard.enter_of_lt hlimit (g := guard) (by omega)
    obtain ⟨entered, hentered⟩ : ∃ entered, entered = (guard.enter job.settings.depthLimit).1 :=
      ⟨_, rfl⟩
    have hdepth : entered.depth = guard.depth + 1 := by rw [hentered, henter]
    have hexit : entered.exit = guard := by
      rw [hentered, NestingGuard.exit_enter (by omega)]
    have hgranted : backend.toVisitor.LeadsTo job
        ⟨.call (.convert n) next, frames, { run, guard, memory := () }⟩
        ⟨(backend.handler job n).toRoutine id, .handler n (.answer next frames),
          { run := run.visit, guard := entered, memory := () }⟩ := by
      rw [hentered]
      exact .of_step (Visitor.step_of_granted (congrArg Prod.snd henter))
    have hanswer : ∀ request, backend.toVisitor.Simulates job entered request
        (backend.answer job (backend.convert job left) request) := by
      intro request
      cases request with
      | convert m => exact ih (by omega) m
      | comment span => exact backend.simulates_comment job span
    exact hgranted.trans (backend.leadsTo_of_dispatched job
      (backend.extends_answer job (backend.extends_convert job left)) hanswer hexit n next frames _)

/-- **Backends run on the machine.**  With a limit that the guard can pass, the machine comes to the
    outcome of the recursion. -/
theorem Backend.translate_eq (hlimit : job.settings.depthLimit < NestingGuard.maxDepth)
    (root : Node κ) :
    backend.toVisitor.translate job root ()
      = Part.some ((backend.convertRoot job root).mapError .fault) := by
  have hsimulates : backend.toVisitor.Simulates job {} (.convert root)
      (backend.convert job job.settings.depthLimit root) :=
    backend.simulates_convert job hlimit (Nat.zero_add _) root
  obtain ⟨es, hreaches⟩ := hsimulates .pure .root { contexts := { root := backend.initial } }
  refine Part.eq_some_iff.mpr (Visitor.mem_translate_iff.mpr ⟨es, _, _, hreaches, rfl, ?_⟩)
  simp only [Backend.convertRoot, apply_ite (Except.mapError Visitor.Failure.fault)]
  rfl

end

end Transcode.Engine
