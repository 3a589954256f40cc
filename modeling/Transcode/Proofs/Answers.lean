import Transcode.Proofs.Guarding
import Transcode.Proofs.Scopes

namespace Transcode.Engine

open Output Trivia

/-!
# Calls return

A run need not end.  Nothing keeps a comment from asking for the node that it stands before, because
the conversion of the node is over by then, and a run breaks off when a routine pushes a context
while another one borrows from the stack.  There is no other way for a call not to return.  If
comments are rendered within each other to some depth only, and nothing is pushed onto a borrowed
stack, then every call that is ever made returns, and the run has an outcome
(`Visitor.Tame.answers`).

This is an induction on how many comments can still be rendered within each other, within that on
how many conversions can still be in progress within each other, and within that on the routine that
makes the calls.
-/

variable {κ C M : Type}

section

variable [Named κ] (visitor : Visitor κ C M) (job : Job) (root : Node κ) (memory : M)

/-- A configuration is one that a run from the root of a tree comes to. -/
def Visitor.Reached (c : Config κ C M) : Prop :=
  ∃ es, visitor.Reaches job root memory es c

/-- From one configuration a run leads to another. -/
def Visitor.LeadsTo (c d : Config κ C M) : Prop :=
  ∃ es, visitor.Runs job c es d

/-- Whenever a request is made in some frames it is answered there: its routine goes on in the same
    frames. -/
def Visitor.Answers {α : Type} (request : Request κ) (frames : Frames κ C M α) : Prop :=
  ∀ (next : Tree → Routine κ C M α) (s : Live C M),
    visitor.Reached job root memory ⟨.call request next, frames, s⟩ →
      ∃ output t, visitor.LeadsTo job ⟨.call request next, frames, s⟩ ⟨next output, frames, t⟩

/-- Comments are rendered within each other to depth `k` at most, and nothing is pushed while a
    routine borrows from the context stack. -/
structure Visitor.Tame (k : Nat) : Prop where
  limit : job.settings.depthLimit < NestingGuard.maxDepth
  shallow : ∀ c, visitor.Reached job root memory c → c.frames.comments.length ≤ k
  free : ∀ c, visitor.Reached job root memory c → visitor.step job c ≠ .panic .borrowed

end

namespace Visitor

variable [Named κ] {visitor : Visitor κ C M} {job : Job} {root : Node κ} {memory : M}
  {b c d : Config κ C M} {e : Option (Event κ)} {k : Nat}

/-- What leads to a configuration leads to where that one does. -/
theorem LeadsTo.trans (h : visitor.LeadsTo job b c) (h' : visitor.LeadsTo job c d) :
    visitor.LeadsTo job b d :=
  let ⟨_, hes⟩ := h
  let ⟨_, hfs⟩ := h'
  ⟨_, hes.trans hfs⟩

/-- A step leads to where it goes. -/
theorem LeadsTo.of_step (h : visitor.step job c = .to e d) : visitor.LeadsTo job c d :=
  ⟨_, .single h⟩

/-- What a reached configuration leads to is reached. -/
theorem Reached.leadsTo (h : visitor.Reached job root memory c) (h' : visitor.LeadsTo job c d) :
    visitor.Reached job root memory d :=
  let ⟨_, hes⟩ := h
  let ⟨_, hfs⟩ := h'
  ⟨_, Runs.trans hes hfs⟩

/-- Where a run gets, contexts have their scopes. -/
theorem Reached.scoped (h : visitor.Reached job root memory c) : c.Scoped visitor :=
  let ⟨_, hes⟩ := h
  .of_reaches hes

/-- Where it gets, the guard stands at the conversions in progress. -/
theorem Tame.guarded (h : visitor.Tame job root memory k)
    (hc : visitor.Reached job root memory c) : c.Guarded job :=
  let ⟨_, hes⟩ := hc
  .of_reaches h.limit hes

/-! ### Routines -/

/-- A routine goes on after something that it does under an update, if this comes to its end. -/
theorem Tame.returns_within (h : visitor.Tame job root memory k) {α β : Type} {update : C}
    {body : Routine κ C M β} {next : β → Routine κ C M α} {frames : Frames κ C M α} {s : Live C M}
    (hreached : visitor.Reached job root memory ⟨.within update body next, frames, s⟩)
    (hbody : ∀ guard t, visitor.Reached job root memory ⟨body, .within guard update next frames, t⟩ →
      ∃ b u, visitor.LeadsTo job ⟨body, .within guard update next frames, t⟩
        ⟨.pure b, .within guard update next frames, u⟩) :
    ∃ b t, visitor.LeadsTo job ⟨.within update body next, frames, s⟩ ⟨next b, frames, t⟩ := by
  -- Nobody borrows, so the update is pushed, and afterwards its guard is not refused.
  have hfree : s.borrows = 0 := by
    by_contra hborrows
    exact h.free _ hreached (step_of_borrowed hborrows)
  have hpush : visitor.LeadsTo job ⟨.within update body next, frames, s⟩
      ⟨body, .within (s.run.pushContext visitor.merge update).2 update next frames,
        { s with run := (s.run.pushContext visitor.merge update).1 }⟩ :=
    .of_step (step_of_free hfree)
  obtain ⟨b, t, hdone⟩ := hbody _ _ (hreached.leadsTo hpush)
  have hrelease := ((hreached.leadsTo hpush).leadsTo hdone).scoped.release
  exact ⟨b, _, (hpush.trans hdone).trans (.of_step (step_of_release hrelease.1 hrelease.2))⟩

/-- So it does after something that it does on a borrowed context. -/
theorem returns_holding {α β : Type} {body : C → Routine κ C M β} {next : β → Routine κ C M α}
    {frames : Frames κ C M α} {s : Live C M}
    (hreached : visitor.Reached job root memory ⟨.holding body next, frames, s⟩)
    (hbody : ∀ c t, visitor.Reached job root memory ⟨body c, .holding next frames, t⟩ →
      ∃ b u, visitor.LeadsTo job ⟨body c, .holding next frames, t⟩
        ⟨.pure b, .holding next frames, u⟩) :
    ∃ b t, visitor.LeadsTo job ⟨.holding body next, frames, s⟩ ⟨next b, frames, t⟩ := by
  have hborrow : visitor.LeadsTo job ⟨.holding body next, frames, s⟩
      ⟨body s.run.contexts.top, .holding next frames, s.borrow⟩ := .of_step rfl
  obtain ⟨b, t, hdone⟩ := hbody _ _ (hreached.leadsTo hborrow)
  exact ⟨b, _, (hborrow.trans hdone).trans (.of_step rfl)⟩

/-- A routine comes to its end if its requests are answered.  They are made with as many
    conversions in progress and comments being rendered as around the routine. -/
theorem Tame.ends (h : visitor.Tame job root memory k) (asks : Request κ → Prop) {α : Type}
    {r : Routine κ C M α} {frames : Frames κ C M α} {s : Live C M} (hasks : r.Asks asks)
    (hreached : visitor.Reached job root memory ⟨r, frames, s⟩)
    (hanswers : ∀ {β : Type} (inner : Frames κ C M β) request,
      inner.inProgress = frames.inProgress → inner.comments = frames.comments → asks request →
        visitor.Answers job root memory request inner) :
    ∃ a t, visitor.LeadsTo job ⟨r, frames, s⟩ ⟨.pure a, frames, t⟩ := by
  induction r generalizing s with
  | pure a => exact ⟨a, s, [], .refl _⟩
  | call request next ih =>
    obtain ⟨output, t, hanswer⟩ := hanswers frames request rfl rfl hasks.1 next s hreached
    obtain ⟨a, u, hrest⟩ := ih output (hasks.2 output) (hreached.leadsTo hanswer) hanswers
    exact ⟨a, u, hanswer.trans hrest⟩
  | within update body next ihBody ih =>
    obtain ⟨b, t, hback⟩ := h.returns_within hreached fun guard t hbody =>
      ihBody hasks.1 hbody hanswers
    obtain ⟨a, u, hrest⟩ := ih b (hasks.2 b) (hreached.leadsTo hback) hanswers
    exact ⟨a, u, hback.trans hrest⟩
  | holding body next ihBody ih =>
    obtain ⟨b, t, hback⟩ := returns_holding hreached fun c t hbody =>
      ihBody c (hasks.1 c) hbody hanswers
    obtain ⟨a, u, hrest⟩ := ih b (hasks.2 b) (hreached.leadsTo hback) hanswers
    exact ⟨a, u, hback.trans hrest⟩
  | observe next ih =>
    have hlook : visitor.LeadsTo job ⟨.observe next, frames, s⟩ ⟨next s.run.view, frames, s⟩ :=
      .of_step rfl
    obtain ⟨a, t, hrest⟩ := ih _ (hasks _) (hreached.leadsTo hlook) hanswers
    exact ⟨a, t, hlook.trans hrest⟩
  | report entry next ih =>
    have hreport : visitor.LeadsTo job ⟨.report entry next, frames, s⟩
        ⟨next, frames, s.record entry⟩ := .of_step rfl
    obtain ⟨a, t, hrest⟩ := ih hasks (hreached.leadsTo hreport) hanswers
    exact ⟨a, t, hreport.trans hrest⟩
  | access act next ih =>
    have haccess : visitor.LeadsTo job ⟨.access act next, frames, s⟩
        ⟨next (act s.memory).1, frames, { s with memory := (act s.memory).2 }⟩ := .of_step rfl
    obtain ⟨a, t, hrest⟩ := ih _ (hasks _) (hreached.leadsTo haccess) hanswers
    exact ⟨a, t, haccess.trans hrest⟩

/-! ### Requests -/

section

variable (h : visitor.Tame job root memory k) {α : Type} {frames : Frames κ C M α}
include h

/-- A request for a comment is answered if all requests are that are made while one more comment is
    being rendered. -/
theorem Tame.answers_comment {span : Span}
    (hinner : ∀ {β : Type} (inner : Frames κ C M β) request,
      inner.comments.length = frames.comments.length + 1 →
        visitor.Answers job root memory request inner) :
    visitor.Answers job root memory (.comment span) frames := by
  intro next s hreached
  have hbegin : visitor.LeadsTo job ⟨.call (.comment span) next, frames, s⟩
      ⟨visitor.comment job span, .comment span (.answer next frames), s⟩ := .of_step rfl
  obtain ⟨output, t, hrender⟩ := h.ends (fun _ => True)
    (Routine.asks_of_forall (fun _ => trivial) _) (hreached.leadsTo hbegin)
    fun inner request _ hcomments _ => hinner inner request (congrArg List.length hcomments)
  have hdone : visitor.LeadsTo job ⟨.pure output, .comment span (.answer next frames), t⟩
      ⟨.pure output, .answer next frames, t⟩ := .of_step rfl
  exact ⟨output, t, ((hbegin.trans hrender).trans hdone).trans (.of_step rfl)⟩

/-- An output whose level is left becomes the answer, if requests for comments are answered. -/
theorem Tame.leadsTo_of_leave {n : Node κ} {output : Tree} {next : Tree → Routine κ C M α}
    {s : Live C M}
    (hreached : visitor.Reached job root memory (leave job n output (.answer next frames) s))
    (hcomment : ∀ {β : Type} (inner : Frames κ C M β) span,
      inner.comments = frames.comments →
        visitor.Answers job root memory (.comment span) inner) :
    ∃ answer t, visitor.LeadsTo job (leave job n output (.answer next frames) s)
      ⟨next answer, frames, t⟩ := by
  revert hreached
  refine attach_cases (P := fun c => visitor.Reached job root memory c →
    ∃ answer t, visitor.LeadsTo job c ⟨next answer, frames, t⟩) ?_ ?_
  · intro hreached
    obtain ⟨whole, t, hattach⟩ := h.ends (fun request => ∃ span, request = .comment span)
      (Routine.asks_toRoutine (fun span => ⟨span, rfl⟩) _) hreached (by
        rintro β inner _ - hcomments ⟨span, rfl⟩
        exact hcomment inner span hcomments)
    have hdone : visitor.LeadsTo job ⟨.pure whole, .leading n (.answer next frames), t⟩
        ⟨.pure whole, .answer next frames, t⟩ := .of_step rfl
    exact ⟨whole, t, (hattach.trans hdone).trans (.of_step rfl)⟩
  · exact fun _ => ⟨output, _, .of_step rfl⟩

/-- A node that is dispatched becomes an answer, if all requests are answered that are made while one
    more conversion is in progress, and requests for comments anyway. -/
theorem Tame.leadsTo_of_dispatched {n : Node κ} {next : Tree → Routine κ C M α} {s : Live C M}
    (hreached : visitor.Reached job root memory
      ⟨visitor.handler job n, .handler n (.answer next frames), s⟩)
    (hinner : ∀ {β : Type} (inner : Frames κ C M β) request,
      inner.inProgress = n :: frames.inProgress → inner.comments = frames.comments →
        visitor.Answers job root memory request inner)
    (hcomment : ∀ {β : Type} (inner : Frames κ C M β) span,
      inner.comments = frames.comments →
        visitor.Answers job root memory (.comment span) inner) :
    ∃ answer t, visitor.LeadsTo job
      ⟨visitor.handler job n, .handler n (.answer next frames), s⟩ ⟨next answer, frames, t⟩ := by
  -- The handler, the fallback and the engine are asked one after the other, and each comes to an
  -- end; the first output is the one that is left with.
  have hends : ∀ {β : Type} {r : Routine κ C M β} {inner : Frames κ C M β} {s : Live C M},
      visitor.Reached job root memory ⟨r, inner, s⟩ →
      inner.inProgress = n :: frames.inProgress → inner.comments = frames.comments →
      ∃ a t, visitor.LeadsTo job ⟨r, inner, s⟩ ⟨.pure a, inner, t⟩ :=
    fun hr hprogress hcomments => h.ends (fun _ => True)
      (Routine.asks_of_forall (fun _ => trivial) _) hr fun inner request hp hc _ =>
        hinner inner request (hp.trans hprogress) (hc.trans hcomments)
  have hleave : ∀ {c : Config κ C M} {output : Tree} {s : Live C M},
      visitor.Reached job root memory c →
      visitor.step job c = .to none (leave job n output (.answer next frames) s) →
      ∃ answer t, visitor.LeadsTo job c ⟨next answer, frames, t⟩ := by
    intro c output s hc hstep
    obtain ⟨answer, t, hanswer⟩ := h.leadsTo_of_leave (hc.leadsTo (.of_step hstep)) hcomment
    exact ⟨answer, t, (LeadsTo.of_step hstep).trans hanswer⟩
  obtain ⟨handled, t, hhandler⟩ := hends hreached rfl rfl
  have hhandled := hreached.leadsTo hhandler
  cases handled with
  | some output =>
    obtain ⟨answer, u, hanswer⟩ := hleave hhandled rfl
    exact ⟨answer, u, hhandler.trans hanswer⟩
  | none =>
    have hdeclined : visitor.LeadsTo job ⟨.pure none, .handler n (.answer next frames), t⟩
        ⟨visitor.fallback job n, .fallback n (.answer next frames), t⟩ := .of_step rfl
    obtain ⟨fallen, u, hfallback⟩ := hends (hhandled.leadsTo hdeclined) rfl rfl
    have hfallen := (hhandled.leadsTo hdeclined).leadsTo hfallback
    have hbefore := (hhandler.trans hdeclined).trans hfallback
    cases fallen with
    | some output =>
      obtain ⟨answer, v, hanswer⟩ := hleave hfallen rfl
      exact ⟨answer, v, hbefore.trans hanswer⟩
    | none =>
      have hunsupported : visitor.LeadsTo job ⟨.pure none, .fallback n (.answer next frames), u⟩
          ⟨(standIn job n).toRoutine id, .unknown n (.answer next frames),
            u.record (unsupported n)⟩ := .of_step rfl
      obtain ⟨output, v, hstandIn⟩ := hends (hfallen.leadsTo hunsupported) rfl rfl
      have hstood := (hfallen.leadsTo hunsupported).leadsTo hstandIn
      obtain ⟨answer, w, hanswer⟩ := hleave hstood rfl
      exact ⟨answer, w, ((hbefore.trans hunsupported).trans hstandIn).trans hanswer⟩

/-- A request for a node is answered if all requests are answered that are made while one more
    conversion is in progress, and requests for comments anyway. -/
theorem Tame.answers_convert {n : Node κ}
    (hinner : ∀ {β : Type} (inner : Frames κ C M β) request,
      inner.inProgress = n :: frames.inProgress → inner.comments = frames.comments →
        visitor.Answers job root memory request inner)
    (hcomment : ∀ {β : Type} (inner : Frames κ C M β) span,
      inner.comments = frames.comments →
        visitor.Answers job root memory (.comment span) inner) :
    visitor.Answers job root memory (.convert n) frames := by
  intro next s hreached
  have hguarded := h.guarded hreached
  rcases Nat.lt_or_eq_of_le hguarded.bounded with hlt | heq
  · have hgranted : visitor.LeadsTo job ⟨.call (.convert n) next, frames, s⟩
        ⟨visitor.handler job n, .handler n (.answer next frames), _⟩ :=
      .of_step (step_of_granted (congrArg Prod.snd (hguarded.enter_of_lt h.limit hlt)))
    obtain ⟨answer, t, hanswer⟩ :=
      h.leadsTo_of_dispatched (hreached.leadsTo hgranted) hinner hcomment
    exact ⟨answer, t, hgranted.trans hanswer⟩
  · have hrefused : visitor.LeadsTo job ⟨.call (.convert n) next, frames, s⟩
        ⟨.pure (.ofText (n.textIn job.source)), .answer next frames, _⟩ :=
      .of_step (step_of_refused (hguarded.enter_of_eq h.limit heq))
    exact ⟨_, _, hrefused.trans (.of_step rfl)⟩

/-- **Every request is answered**, if comments are rendered within each other to some depth only and
    nothing is pushed onto a borrowed stack. -/
theorem Tame.answers (request : Request κ) (frames : Frames κ C M α) :
    visitor.Answers job root memory request frames := by
  -- As many comments can still be rendered within each other, and as many conversions be in
  -- progress.
  suffices hall : ∀ m l : Nat, ∀ {β : Type} (frames : Frames κ C M β) (request : Request κ),
      k < m + frames.comments.length →
      job.settings.depthLimit < l + frames.inProgress.length →
      visitor.Answers job root memory request frames from
    hall (k + 1) (job.settings.depthLimit + 1) frames request (by omega) (by omega)
  intro m
  induction m with
  | zero =>
    intro l β frames request hm _ next s hreached
    have hshallow : frames.comments.length ≤ k := h.shallow _ hreached
    omega
  | succ m ihComments =>
    have hcomment : ∀ {β : Type} (frames : Frames κ C M β) (span : Span),
        k < m + 1 + frames.comments.length →
        visitor.Answers job root memory (.comment span) frames :=
      fun frames span hm => h.answers_comment fun inner request hlength =>
        ihComments (job.settings.depthLimit + 1) inner request (by omega) (by omega)
    intro l
    induction l with
    | zero =>
      intro β frames request _ hl next s hreached
      have hbounded : frames.inProgress.length ≤ job.settings.depthLimit :=
        (h.guarded hreached).bounded
      omega
    | succ l ihProgress =>
      intro β frames request hm hl
      cases request with
      | comment span => exact hcomment frames span hm
      | convert n =>
        refine h.answers_convert (fun inner request hprogress hcomments => ?_)
          fun inner span hcomments => hcomment inner span (by rw [hcomments]; exact hm)
        refine ihProgress inner request (by rw [hcomments]; exact hm) ?_
        rw [hprogress, List.length_cons]
        omega

end

end Visitor

/-! ### Visitors whose calls return -/

/-- Nothing is pushed and nothing asked for while a context is borrowed, as it is `held` times at the
    beginning. -/
def Routine.Careful (held : Nat) : {α : Type} → Routine κ C M α → Prop
  | _, .pure _ => True
  | _, .call _ next => held = 0 ∧ ∀ t, (next t).Careful held
  | _, .within _ body next => held = 0 ∧ body.Careful held ∧ ∀ b, (next b).Careful held
  | _, .holding body next => (∀ c, (body c).Careful (held + 1)) ∧ ∀ b, (next b).Careful held
  | _, .observe next => ∀ v, (next v).Careful held
  | _, .report _ next => next.Careful held
  | _, .access _ next => ∀ b, (next b).Careful held

/-- A program borrows nothing. -/
theorem Program.careful_toRoutine {Q : Type} {f : Q → Request κ} {α : Type} {p : Program Q C α}
    {held : Nat} (hfree : held = 0) : (p.toRoutine f : Routine κ C M α).Careful held := by
  induction p with
  | pure => trivial
  | call request next ih => exact ⟨hfree, ih⟩
  | within update body next ihBody ih => exact ⟨hfree, ihBody, ih⟩
  | observe next ih => exact ih
  | report entry next ih => exact ih

/-- What is left to do in some frames is done with care. -/
def Frames.Careful : {α : Type} → Frames κ C M α → Prop
  | _, .root => True
  | _, .answer next rest =>
    rest.borrows = 0 ∧ (∀ t, (next t).Careful rest.borrows) ∧ rest.Careful
  | _, .within _ _ next rest =>
    rest.borrows = 0 ∧ (∀ b, (next b).Careful rest.borrows) ∧ rest.Careful
  | _, .holding next rest => (∀ b, (next b).Careful rest.borrows) ∧ rest.Careful
  | _, .handler _ rest => rest.borrows = 0 ∧ rest.Careful
  | _, .fallback _ rest => rest.borrows = 0 ∧ rest.Careful
  | _, .unknown _ rest => rest.borrows = 0 ∧ rest.Careful
  | _, .leading _ rest => rest.borrows = 0 ∧ rest.Careful
  | _, .comment _ rest => rest.borrows = 0 ∧ rest.Careful

/-- A routine is run with care in its frames. -/
structure Config.Careful (c : Config κ C M) : Prop where
  routine : c.routine.Careful c.frames.borrows
  frames : c.frames.Careful

/-- Comments ask for nothing, and while a context is borrowed nothing is pushed and nothing asked
    for. -/
structure Visitor.Confined (visitor : Visitor κ C M) (job : Job) : Prop where
  asks : ∀ span, (visitor.comment job span).Asks fun _ => False
  comment : ∀ span, (visitor.comment job span).Careful 0
  handler : ∀ n, (visitor.handler job n).Careful 0
  fallback : ∀ n, (visitor.fallback job n).Careful 0

/-- A backend is a visitor of this kind. -/
theorem Backend.confined (backend : Backend κ C) (job : Job) : backend.toVisitor.Confined job where
  asks _ := Routine.asks_toRoutine (fun request => request.elim) _
  comment _ := Program.careful_toRoutine rfl
  handler _ := Program.careful_toRoutine rfl
  fallback _ := Program.careful_toRoutine rfl

/-- Comments are attached with care. -/
theorem Config.Careful.leave {job : Job} {n : Node κ} {output : Tree} {rest : Frames κ C M Tree}
    {s : Live C M} (h : rest.borrows = 0 ∧ rest.Careful) :
    (leave job n output rest s).Careful :=
  attach_cases ⟨Program.careful_toRoutine h.1, h⟩ ⟨trivial, h.2⟩

section

variable [Named κ] {visitor : Visitor κ C M} {job : Job} {root : Node κ} {memory : M}
  {c d : Config κ C M} {e : Option (Event κ)}

/-- Every step of a confined visitor is taken with care. -/
theorem Config.Careful.of_steps (hconfined : visitor.Confined job)
    (hstep : visitor.Steps job c e d) (h : c.Careful) : d.Careful := by
  cases hstep with
  | refused => exact ⟨trivial, h.routine.1, h.routine.2, h.frames⟩
  | @dispatched α n next rest s =>
    have hfree : rest.borrows = 0 := h.routine.1
    refine ⟨?_, hfree, hfree, h.routine.2, h.frames⟩
    show (visitor.handler job n).Careful rest.borrows
    rw [hfree]
    exact hconfined.handler n
  | @declined n rest s =>
    refine ⟨?_, h.frames⟩
    show (visitor.fallback job n).Careful rest.borrows
    rw [h.frames.1]
    exact hconfined.fallback n
  | unsupported => exact ⟨Program.careful_toRoutine h.frames.1, h.frames⟩
  | handled | fallen | stoodIn => exact leave h.frames
  | attached | rendered => exact ⟨trivial, h.frames.2⟩
  | @comment α span next rest s =>
    have hfree : rest.borrows = 0 := h.routine.1
    refine ⟨?_, hfree, hfree, h.routine.2, h.frames⟩
    show (visitor.comment job span).Careful rest.borrows
    rw [hfree]
    exact hconfined.comment span
  | answered | pop => exact ⟨h.frames.2.1 _, h.frames.2.2⟩
  | push => exact ⟨h.routine.2.1, h.routine.1, h.routine.2.2, h.frames⟩
  | borrow => exact ⟨h.routine.1 _, h.routine.2, h.frames⟩
  | giveBack => exact ⟨h.frames.1 _, h.frames.2⟩
  | observe | access => exact ⟨h.routine _, h.frames⟩
  | report => exact ⟨h.routine, h.frames⟩

end

end Transcode.Engine
