import Transcode.Proofs.Extending

namespace Transcode.Engine

open Output Trivia

/-!
# What programs ensure

`p.Ensures merge spec c post` says that the program `p`, under the context `c`, ends with a value
that satisfies `post`, whatever the answers to its requests are as long as they satisfy `spec`.
It does not mention the state of a run: a program sees of it no more than the context, which is
given, and two counts, which may be any.

What is ensured is what happens (`Program.run_of_ensures`), and so a relation between nodes and
their output holds of every conversion if every handler preserves it
(`Backend.convertRoot_satisfies`).  Both can be confined to runs whose diagnostics are all of
some sort, for instance to those that nest within the limit.
-/

variable {Q R C α β : Type}

namespace Program

/-- Under a context, the program ends with a value that satisfies `post`, provided that the answers
    to its requests satisfy `spec` under the contexts in which they are made. -/
def Ensures (merge : C → C → C) (spec : C → Q → Tree → Prop) :
    {α : Type} → Program Q C α → C → (α → Prop) → Prop
  | _, .pure value, _, post => post value
  | _, .call request next, c, post => ∀ t, spec c request t → (next t).Ensures merge spec c post
  | _, .within update body next, c, post =>
    body.Ensures merge spec (merge c update) fun b => (next b).Ensures merge spec c post
  | _, .observe next, c, post => ∀ v : View C, v.context = c → (next v).Ensures merge spec c post
  | _, .report _ next, c, post => next.Ensures merge spec c post

variable {merge : C → C → C} {spec : C → Q → Tree → Prop} {c : C}

/-- A program and what goes on after it, as methods of programs. -/
theorem ensures_bind' {p : Program Q C α} {f : α → Program Q C β} {post : β → Prop} :
    (p.bind f).Ensures merge spec c post
      ↔ p.Ensures merge spec c fun a => (f a).Ensures merge spec c post := by
  induction p generalizing c with
  | pure a => exact Iff.rfl
  | call request next ih => simp only [bind, Ensures, ih]
  | within update body next _ ih => simp only [bind, Ensures, ih]
  | observe next ih => simp only [bind, Ensures, ih]
  | report entry next ih => simp only [bind, Ensures, ih]

@[simp] theorem ensures_bind {p : Program Q C α} {f : α → Program Q C β} {post : β → Prop} :
    (p >>= f).Ensures merge spec c post
      ↔ p.Ensures merge spec c fun a => (f a).Ensures merge spec c post :=
  ensures_bind'

/-- What ensures more ensures less. -/
theorem Ensures.mono {p : Program Q C α} {post post' : α → Prop}
    (h : p.Ensures merge spec c post) (hpost : ∀ a, post a → post' a) :
    p.Ensures merge spec c post' := by
  induction p generalizing c with
  | pure a => exact hpost a h
  | call request next ih => exact fun t ht => ih t (h t ht) hpost
  | within update body next ihBody ihNext => exact ihBody h fun b hb => ihNext b hb hpost
  | observe next ih => exact fun v hv => ih v (h v hv) hpost
  | report entry next ih => exact ih h hpost

/-- What holds anyway is ensured. -/
theorem ensures_of_forall {p : Program Q C α} {post : α → Prop} (h : ∀ a, post a) :
    p.Ensures merge spec c post := by
  induction p generalizing c with
  | pure a => exact h a
  | call request next ih => exact fun t _ => ih t h
  | within update body next ihBody ihNext => exact ihBody fun b => ihNext b h
  | observe next ih => exact fun v _ => ih v h
  | report entry next ih => exact ih h

/-- A program with its requests in other words. -/
@[simp] theorem ensures_mapRequests {f : Q → R} {spec : C → R → Tree → Prop} {p : Program Q C α}
    {post : α → Prop} :
    (p.mapRequests f).Ensures merge spec c post
      ↔ p.Ensures merge (fun c request t => spec c (f request) t) c post := by
  induction p generalizing c with
  | pure a => exact Iff.rfl
  | call request next ih => simp only [mapRequests, Ensures, ih]
  | within update body next ihBody ih => simp only [mapRequests, Ensures, ihBody, ih]
  | observe next ih => simp only [mapRequests, Ensures, ih]
  | report entry next ih => simp only [mapRequests, Ensures, ih]

/-! ### Services -/

@[simp] theorem ensures_ask {request : Q} {post : Tree → Prop} :
    (ask request).Ensures merge spec c post ↔ ∀ t, spec c request t → post t :=
  Iff.rfl

@[simp] theorem ensures_under {update : C} {body : Program Q C α} {post : α → Prop} :
    (under update body).Ensures merge spec c post ↔ body.Ensures merge spec (merge c update) post :=
  Iff.rfl

@[simp] theorem ensures_context {post : C → Prop} :
    (context : Program Q C C).Ensures merge spec c post ↔ post c :=
  ⟨fun h => h ⟨c, 0, 0⟩ rfl, fun h _ hv => hv ▸ h⟩

/-- Requests for the items of a list have one answer each. -/
theorem ensures_askAll {ι : Type} {request : ι → Q} {items : List ι} {post : List Tree → Prop}
    (h : ∀ ts, List.Forall₂ (fun i t => spec c (request i) t) items ts → post ts) :
    (askAll request items).Ensures merge spec c post := by
  induction items generalizing post with
  | nil => exact h [] .nil
  | cons i items ih =>
    rw [askAll, ensures_bind, ensures_ask]
    intro t ht
    rw [ensures_bind]
    exact ih fun ts hts => h _ (.cons ht hts)

end Program

/-! ### Runs -/

/-- All diagnostics so far are of some sort. -/
def State.Reports (allowed : Diagnostic → Prop) (s : State C) : Prop :=
  ∀ d ∈ s.diagnostics, allowed d

variable {allowed : Diagnostic → Prop} {s t : State C}

theorem State.Reports.of_extends (h : t.Reports allowed) (hst : s.Extends t) : s.Reports allowed :=
  fun d hd => h d (hst.diagnostics.subset hd)

theorem State.Extends.top_eq (h : s.Extends t) : t.contexts.top = s.contexts.top := by
  rw [ContextStack.top, ContextStack.top, h.pushed, h.root]

theorem State.reports_releaseContext (guard : Guard) :
    (s.releaseContext guard).Reports allowed ↔ s.Reports allowed := by
  rw [releaseContext]
  split <;> exact Iff.rfl

/-- What a program ensures is so when it is run, if the answers are as they should be.  It is enough
    that they are in runs with such diagnostics. -/
theorem Program.run_of_ensures {answer : Q → StateM (State C) Tree} {merge : C → C → C}
    {spec : C → Q → Tree → Prop}
    (hextends : ∀ request (s : State C), s.Extends (answer request s).2)
    (hanswer : ∀ request (s : State C), (answer request s).2.Reports allowed →
      spec s.contexts.top request (answer request s).1)
    {p : Program Q C α} {post : α → Prop} (h : p.Ensures merge spec s.contexts.top post)
    (hs : (p.run answer merge s).2.Reports allowed) : post (p.run answer merge s).1 := by
  -- Diagnostics are only ever added, so that what is asked of the last ones is so all along.
  induction p generalizing s with
  | pure a => exact h
  | call request next ih =>
    have hlater := extends_run hextends merge (next (answer request s).1) (answer request s).2
    refine ih _ ?_ hs
    rw [(hextends request s).top_eq]
    exact h _ (hanswer request s (hs.of_extends hlater))
  | within update body next ihBody ihNext =>
    have hback := extends_within hextends merge update body s
    have hbefore := State.Reports.of_extends hs (extends_run hextends merge (next _) _)
    have hbody := (State.reports_releaseContext _).mp hbefore
    refine ihNext _ ?_ hs
    rw [hback.top_eq]
    exact ihBody (s := (s.pushContext merge update).1) h hbody
  | observe next ih => exact ih _ (h s.view rfl) hs
  | report entry next ih => exact ih (s := s.record entry) h hs

namespace Backend

variable {κ : Type} [Named κ] (backend : Backend κ C) (job : Job)

/-- What the tree of a comment can be. -/
def Renders (c : C) (span : Span) (t : Tree) : Prop :=
  ∀ post : Tree → Prop, (backend.comment job span).Ensures backend.merge nofun c post → post t

/-- What the answer to a request can be, given a relation between nodes and their output. -/
def Answers (R : C → Node κ → Tree → Prop) (c : C) : Request κ → Tree → Prop
  | .convert n, t => R c n t
  | .comment span, t => backend.Renders job c span t

/-- What becomes of an output when it is finished satisfies `post`. -/
def Finishes (n : Node κ) (c : C) (post : Tree → Prop) (output : Tree) : Prop :=
  if output.wantsComments && !output.isEmpty then
    (attachLeadingTrivia job.source n output).Ensures backend.merge (backend.Renders job) c post
  else post output

omit [Named κ] in
theorem renders_answerComment (span : Span)
    (hs : (backend.answerComment job span s).2.Reports allowed) :
    backend.Renders job s.contexts.top span (backend.answerComment job span s).1 :=
  fun _ h => Program.run_of_ensures nofun nofun h hs

/-- What a node becomes is what its dispatch ensures once it is finished, given what the nodes do
    that are converted for it with one level less left. -/
theorem convert_succ_of_ensures {R : C → Node κ → Tree → Prop} {left : Nat} {n : Node κ}
    {post : Tree → Prop}
    (hconvert : ∀ m (s : State C), (backend.convert job left m s).2.Reports allowed →
      R s.contexts.top m (backend.convert job left m s).1)
    (hstep : (backend.dispatch job n).Ensures backend.merge (backend.Answers job R) s.contexts.top
      (backend.Finishes job n s.contexts.top post))
    (hs : (backend.convert job (left + 1) n s).2.Reports allowed) :
    post (backend.convert job (left + 1) n s).1 := by
  have hextends := backend.extends_answer job (backend.extends_convert job left)
  have hrun := Program.extends_run hextends backend.merge (backend.dispatch job n) s.visit
  have hdispatch := hs.of_extends (backend.extends_finishNode job n _ _)
  have hfinish : backend.Finishes job n s.contexts.top post _ :=
    Program.run_of_ensures (s := s.visit) hextends
      (fun request s hs => match request with
        | .convert m => hconvert m s hs
        | .comment span => backend.renders_answerComment job span hs)
      hstep hdispatch
  -- The handler leaves the context as it found it, and so the comments come under the same one.
  have htop := (s.extends_visit.trans hrun).top_eq
  rw [convert] at hs ⊢
  simp only [finishNode] at hs ⊢
  rw [Finishes] at hfinish
  split
  · rename_i hasks
    rw [if_pos hasks] at hs hfinish
    exact Program.run_of_ensures (backend.extends_answerComment job)
      (fun span s hs => backend.renders_answerComment job span hs) (htop ▸ hfinish) hs
  · rename_i hasks
    rwa [if_neg hasks] at hfinish

/-- A relation holds between nodes and what they become, if it does for nodes that nest too deep
    and is preserved by what the backend does with all others. -/
theorem convert_satisfies {R : C → Node κ → Tree → Prop}
    (hrefuse : ∀ c n, allowed (refusal job n) → R c n (.ofText (n.textIn job.source)))
    (hstep : ∀ c n, (backend.dispatch job n).Ensures backend.merge (backend.Answers job R) c
      (backend.Finishes job n c (R c n)))
    (left : Nat) (n : Node κ) (s : State C)
    (hs : (backend.convert job left n s).2.Reports allowed) :
    R s.contexts.top n (backend.convert job left n s).1 := by
  induction left generalizing n s with
  | zero => exact hrefuse _ n (hs _ (List.mem_append_right _ List.mem_cons_self))
  | succ left ih => exact backend.convert_succ_of_ensures job ih (hstep s.contexts.top n) hs

/-- Converting a syntax tree does not fail, and what its root becomes satisfies the relation if the
    diagnostics are of the sort that it is confined to. -/
theorem convertRoot_satisfies (allowed : Diagnostic → Prop) {R : C → Node κ → Tree → Prop}
    (hrefuse : ∀ c n, allowed (refusal job n) → R c n (.ofText (n.textIn job.source)))
    (hstep : ∀ c n, (backend.dispatch job n).Ensures backend.merge (backend.Answers job R) c
      (backend.Finishes job n c (R c n)))
    (root : Node κ) :
    ∃ outcome, backend.convertRoot job root = .ok outcome
      ∧ ((∀ d ∈ outcome.diagnostics, allowed d) → R backend.initial root outcome.tree) := by
  have hextends := backend.extends_convert job job.settings.depthLimit root
    { contexts := { root := backend.initial } }
  have hdepth := congrArg (1 + List.length ·) hextends.pushed
  refine ⟨_, if_pos hdepth, fun hallowed => ?_⟩
  exact backend.convert_satisfies job hrefuse hstep job.settings.depthLimit root _ hallowed

end Backend

end Transcode.Engine
