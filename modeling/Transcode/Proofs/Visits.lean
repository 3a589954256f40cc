import Transcode.Proofs.Ensures

namespace Transcode.Engine

open Output Trivia

/-!
# What a run converts

`Backend.visits` lists the conversions that take place when a node is converted: its own, and
those that its handler asks for, and so on down, each with the state in which it begins and the
number of levels that are left to it.  A run nests within the limit if none of them is met with no
level left (`Backend.NestsWithin`).

A handler may ask for one thing or another depending on the answers that it gets.  Where it does
not, what it does is a list of *steps*: conversions under contexts and diagnostics, in order
(`Program.Follows`).  If the dispatch of each node follows its steps, then the visits and the
diagnostics of a conversion are those of a walk along the steps, which needs no state
(`Backend.visits_eq_walk`, `Backend.diagnostics_convert`).
-/

variable {Q R C α β : Type}

/-! ### Requests and visits -/

/-- A request of a program, and the state in which it is made. -/
structure Asked (Q C : Type) where
  request : Q
  state : State C

/-- The requests that a program makes when it is run, in order. -/
def Program.asked (answer : Q → StateM (State C) Tree) (merge : C → C → C) :
    {α : Type} → Program Q C α → State C → List (Asked Q C)
  | _, .pure _, _ => []
  | _, .call request next, s =>
    let answered := answer request s
    ⟨request, s⟩ :: (next answered.1).asked answer merge answered.2
  | _, .within update body next, s =>
    let pushed := s.pushContext merge update
    let done := body.run answer merge pushed.1
    body.asked answer merge pushed.1
      ++ (next done.1).asked answer merge (done.2.releaseContext pushed.2)
  | _, .observe next, s => (next s.view).asked answer merge s
  | _, .report entry next, s => next.asked answer merge (s.record entry)

/-- What a request for a node comes to, and nothing for a comment. -/
def Asked.ofNode {κ : Type} (f : Node κ → State C → List β) (a : Asked (Request κ) C) : List β :=
  match a.request with
  | .convert n => f n a.state
  | .comment _ => []

/-- A conversion in a run: the levels that are left to it, its node and the state in which it
    begins. -/
structure Visit (κ C : Type) where
  left : Nat
  node : Node κ
  state : State C

/-- The context of a visit. -/
def Visit.context {κ : Type} (v : Visit κ C) : C :=
  v.state.contexts.top

namespace Backend

variable {κ : Type} [Named κ] (backend : Backend κ C) (job : Job)

/-- The conversions that take place when a node is converted, its own first. -/
def visits : Nat → Node κ → State C → List (Visit κ C)
  | 0, n, s => [⟨0, n, s⟩]
  | left + 1, n, s =>
    let asked := (backend.dispatch job n).asked
      (backend.answer job (backend.convert job left)) backend.merge s.visit
    ⟨left + 1, n, s⟩ :: asked.flatMap (Asked.ofNode (visits left))

/-- The conversions of a whole run. -/
def visitsOf (root : Node κ) : List (Visit κ C) :=
  backend.visits job job.settings.depthLimit root { contexts := { root := backend.initial } }

/-- All conversions of a run nest within the limit. -/
def NestsWithin (root : Node κ) : Prop :=
  ∀ v ∈ backend.visitsOf job root, v.left ≠ 0

instance (root : Node κ) : Decidable (backend.NestsWithin job root) :=
  inferInstanceAs (Decidable (∀ v ∈ backend.visitsOf job root, v.left ≠ 0))

/-- The output of a visit. -/
def outputOf (v : Visit κ C) : Tree :=
  (backend.convert job v.left v.node v.state).1

end Backend

/-! ### Programs without diagnostics -/

namespace Program

/-- The program records no diagnostics. -/
def Silent : {α : Type} → Program Q C α → Prop
  | _, .pure _ => True
  | _, .call _ next => ∀ t, (next t).Silent
  | _, .within _ body next => body.Silent ∧ ∀ b, (next b).Silent
  | _, .observe next => ∀ v, (next v).Silent
  | _, .report _ _ => False

theorem silent_bind {p : Program Q C α} {f : α → Program Q C β} (h : p.Silent)
    (hf : ∀ a, (f a).Silent) : (p >>= f).Silent := by
  change (p.bind f).Silent
  induction p with
  | pure a => exact hf a
  | call request next ih => exact fun t => ih t (h t) hf
  | within update body next _ ih => exact ⟨h.1, fun b => ih b (h.2 b) hf⟩
  | observe next ih => exact fun v => ih v (h v) hf
  | report entry next => exact h.elim

/-- Diagnostics stay as they are in a program without any, if they do when it is answered. -/
theorem Silent.diagnostics_run {answer : Q → StateM (State C) Tree} {merge : C → C → C}
    {p : Program Q C α} {s : State C} (h : p.Silent)
    (hanswer : ∀ request s, (answer request s).2.diagnostics = s.diagnostics) :
    (p.run answer merge s).2.diagnostics = s.diagnostics := by
  induction p generalizing s with
  | pure a => rfl
  | call request next ih => exact (ih _ (h _)).trans (hanswer request s)
  | within update body next ihBody ih =>
    have hbody := ihBody (s := (s.pushContext merge update).1) h.1
    have hback := State.diagnostics_releaseContext
      (body.run answer merge (s.pushContext merge update).1).2 (s.pushContext merge update).2
    exact (ih _ (h.2 _)).trans (hback.trans hbody)
  | observe next ih => exact ih _ (h _)
  | report entry next => exact h.elim

end Program

theorem silent_leadingPieces {source : String} {seen owes : Bool} {spans : List Span} :
    (leadingPieces source seen owes spans : Program Span C (List Fragment)).Silent := by
  induction spans generalizing seen owes with
  | nil => exact trivial
  | cons span rest ih =>
    rw [leadingPieces]
    split
    · split
      · refine Program.silent_bind ih fun later => ?_
        split <;> exact trivial
      · exact ih
    · exact Program.silent_bind (fun t => trivial) fun t => Program.silent_bind ih fun _ => trivial

theorem silent_attachLeadingTrivia {κ : Type} (source : String) (n : Node κ) (output : Tree) :
    (attachLeadingTrivia source n output : Program Span C Tree).Silent :=
  Program.silent_bind silent_leadingPieces fun pieces => by
    split <;> exact trivial

/-! ### Steps -/

/-- What a program does that others can see. -/
inductive Step (κ C : Type)
  /-- Have a node converted under a context. -/
  | convert (context : C) (n : Node κ)
  /-- Record a diagnostic. -/
  | report (entry : Diagnostic)

namespace Step

variable {κ : Type}

/-- What a step comes to that converts a node, and nothing for a diagnostic. -/
def ofNode (f : C → Node κ → List β) : Step κ C → List β
  | convert c n => f c n
  | report _ => []

/-- The diagnostics of a step, given those of conversions. -/
def diagnostics (f : C → Node κ → List Diagnostic) : Step κ C → List Diagnostic
  | convert c n => f c n
  | report entry => [entry]

end Step

namespace Program

variable {κ : Type} {merge : C → C → C} {c : C}

/-- Under a context, the program goes through the given steps and ends with a value that satisfies
    `post`, whatever the answers to its requests are. -/
def Follows (merge : C → C → C) :
    {α : Type} → Program (Request κ) C α → C → List (Step κ C) → (α → Prop) → Prop
  | _, .pure value, _, steps, post => steps = [] ∧ post value
  | _, .call (.convert n) next, c, steps, post =>
    ∃ rest, steps = .convert c n :: rest ∧ ∀ t, (next t).Follows merge c rest post
  | _, .call (.comment _) next, c, steps, post => ∀ t, (next t).Follows merge c steps post
  | _, .within update body next, c, steps, post =>
    ∃ first rest, steps = first ++ rest
      ∧ body.Follows merge (merge c update) first fun b => (next b).Follows merge c rest post
  | _, .observe next, c, steps, post =>
    ∀ v : View C, v.context = c → (next v).Follows merge c steps post
  | _, .report entry next, c, steps, post =>
    ∃ rest, steps = .report entry :: rest ∧ next.Follows merge c rest post

variable {first rest steps : List (Step κ C)} {p : Program (Request κ) C α}

/-- What a program ends with may be said in weaker terms. -/
theorem Follows.mono {post post' : α → Prop} (h : p.Follows merge c steps post)
    (hpost : ∀ a, post a → post' a) : p.Follows merge c steps post' := by
  induction p generalizing c steps with
  | pure a => exact ⟨h.1, hpost a h.2⟩
  | call request next ih =>
    cases request with
    | convert n =>
      obtain ⟨rest, hsteps, h⟩ := h
      exact ⟨rest, hsteps, fun t => ih t (h t) hpost⟩
    | comment span => exact fun t => ih t (h t) hpost
  | within update body next ihBody ih =>
    obtain ⟨first, rest, hsteps, h⟩ := h
    exact ⟨first, rest, hsteps, ihBody h fun b hb => ih b hb hpost⟩
  | observe next ih => exact fun v hv => ih v (h v hv) hpost
  | report entry next ih =>
    obtain ⟨rest, hsteps, h⟩ := h
    exact ⟨rest, hsteps, ih h hpost⟩

/-- The steps of a program are followed by those of what goes on after it. -/
theorem follows_bind {f : α → Program (Request κ) C β} {post : β → Prop}
    (h : p.Follows merge c first fun a => (f a).Follows merge c rest post) :
    (p >>= f).Follows merge c (first ++ rest) post := by
  change (p.bind f).Follows merge c (first ++ rest) post
  induction p generalizing c first with
  | pure a =>
    obtain ⟨rfl, h⟩ := h
    exact h
  | call request next ih =>
    cases request with
    | convert n =>
      obtain ⟨later, rfl, h⟩ := h
      exact ⟨later ++ rest, rfl, fun t => ih t (h t)⟩
    | comment span => exact fun t => ih t (h t)
  | within update body next _ ih =>
    obtain ⟨inside, later, rfl, h⟩ := h
    exact ⟨inside, later ++ rest, List.append_assoc .., h.mono fun b hb => ih b hb⟩
  | observe next ih => exact fun v hv => ih v (h v hv)
  | report entry next ih =>
    obtain ⟨later, rfl, h⟩ := h
    exact ⟨later ++ rest, rfl, ih h⟩

/-- A program, and what is made of what it ends with in no further steps. -/
theorem follows_map {f : α → Program (Request κ) C β} {post : β → Prop}
    (h : p.Follows merge c steps fun a => (f a).Follows merge c [] post) :
    (p >>= f).Follows merge c steps post := by
  have hsteps := follows_bind h
  rwa [List.append_nil] at hsteps

/-- A program that makes no requests but for comments, and records nothing, has no steps. -/
theorem Silent.follows {p : Program Span C α} (h : p.Silent) :
    (p.mapRequests Request.comment).Follows merge c ([] : List (Step κ C)) fun _ => True := by
  induction p generalizing c with
  | pure a => exact ⟨rfl, trivial⟩
  | call request next ih => exact fun t => ih t (h t)
  | within update body next ihBody ih =>
    exact ⟨[], [], rfl, (ihBody h.1).mono fun b _ => ih b (h.2 b)⟩
  | observe next ih => exact fun v _ => ih v (h v)
  | report entry next => exact h.elim

/-- Requests for the nodes of a list are one step each. -/
theorem follows_askAll {nodes : List (Node κ)} :
    (askAll Request.convert nodes).Follows merge c (nodes.map (.convert c)) fun _ => True := by
  induction nodes with
  | nil => exact ⟨rfl, trivial⟩
  | cons n nodes ih =>
    exact ⟨_, rfl, fun t => follows_map (f := fun ts => pure (t :: ts))
      (ih.mono fun _ _ => ⟨rfl, trivial⟩)⟩

end Program

/-! ### Runs along steps -/

section

variable {κ : Type} {merge : C → C → C} {answer : Request κ → StateM (State C) Tree}
  {p : Program (Request κ) C α} {s : State C} {steps : List (Step κ C)} {post : α → Prop}

namespace Program

/-- What the requests for nodes come to is what the steps do, if it depends on the state by the
    context alone. -/
theorem Follows.flatMap_asked (h : p.Follows merge s.contexts.top steps post)
    (hextends : ∀ request (s : State C), s.Extends (answer request s).2)
    {f : Node κ → State C → List β} {g : C → Node κ → List β}
    (hfg : ∀ n s, f n s = g s.contexts.top n) :
    (p.asked answer merge s).flatMap (Asked.ofNode f) = steps.flatMap (Step.ofNode g)
      ∧ post (p.run answer merge s).1 := by
  induction p generalizing s steps with
  | pure a =>
    obtain ⟨rfl, h⟩ := h
    exact ⟨rfl, h⟩
  | call request next ih =>
    have htop := (hextends request s).top_eq
    cases request with
    | convert n =>
      obtain ⟨rest, rfl, h⟩ := h
      obtain ⟨hrest, hpost⟩ := ih _ (htop ▸ h _)
      refine ⟨?_, hpost⟩
      rw [asked, List.flatMap_cons, List.flatMap_cons, hrest]
      exact congrArg (· ++ _) (hfg n s)
    | comment span => exact ih _ (htop ▸ h _)
  | within update body next ihBody ih =>
    obtain ⟨first, rest, rfl, h⟩ := h
    -- After the body the context is the one before it, under which the rest has its steps.
    have hback := extends_within hextends merge update body s
    obtain ⟨hfirst, hnext⟩ := ihBody (s := (s.pushContext merge update).1) h
    obtain ⟨hrest, hpost⟩ := ih _ (hback.top_eq ▸ hnext)
    refine ⟨?_, hpost⟩
    rw [asked, List.flatMap_append, List.flatMap_append, hfirst, hrest]
  | observe next ih => exact ih _ (h s.view rfl)
  | report entry next ih =>
    obtain ⟨rest, rfl, h⟩ := h
    have hrest : next.Follows merge (s.record entry).contexts.top rest post := h
    obtain ⟨hasked, hpost⟩ := ih hrest
    exact ⟨hasked, hpost⟩

/-- The diagnostics of a program are those of its steps, if conversions add what `g` says and
    comments add nothing. -/
theorem Follows.diagnostics_run (h : p.Follows merge s.contexts.top steps post)
    (hextends : ∀ request (s : State C), s.Extends (answer request s).2)
    {g : C → Node κ → List Diagnostic}
    (hconvert : ∀ n s, (answer (.convert n) s).2.diagnostics
      = s.diagnostics ++ g s.contexts.top n)
    (hcomment : ∀ span s, (answer (.comment span) s).2.diagnostics = s.diagnostics) :
    (p.run answer merge s).2.diagnostics = s.diagnostics ++ steps.flatMap (Step.diagnostics g)
      ∧ post (p.run answer merge s).1 := by
  induction p generalizing s steps with
  | pure a =>
    obtain ⟨rfl, h⟩ := h
    exact ⟨(List.append_nil _).symm, h⟩
  | call request next ih =>
    have htop := (hextends request s).top_eq
    cases request with
    | convert n =>
      obtain ⟨rest, rfl, h⟩ := h
      obtain ⟨hrest, hpost⟩ := ih _ (htop ▸ h _)
      refine ⟨hrest.trans ?_, hpost⟩
      rw [hconvert, List.append_assoc]
      rfl
    | comment span =>
      obtain ⟨hrest, hpost⟩ := ih _ (htop ▸ h _)
      exact ⟨hrest.trans (congrArg (· ++ _) (hcomment span s)), hpost⟩
  | within update body next ihBody ih =>
    obtain ⟨first, rest, rfl, h⟩ := h
    -- Inside, the context is the merged one; on leaving it, the one before is on top again and no
    -- diagnostic is taken back, so the steps of the body and of the rest add up.
    have hback := extends_within hextends merge update body s
    have hkept := State.diagnostics_releaseContext
      (body.run answer merge (s.pushContext merge update).1).2 (s.pushContext merge update).2
    obtain ⟨hfirst, hnext⟩ := ihBody (s := (s.pushContext merge update).1) h
    obtain ⟨hrest, hpost⟩ := ih _ (hback.top_eq ▸ hnext)
    refine ⟨hrest.trans ?_, hpost⟩
    rw [List.flatMap_append, ← List.append_assoc]
    exact congrArg (· ++ _) (hkept.trans hfirst)
  | observe next ih => exact ih _ (h s.view rfl)
  | report entry next ih =>
    obtain ⟨rest, rfl, h⟩ := h
    obtain ⟨hrest, hpost⟩ := ih (s := s.record entry) h
    refine ⟨hrest.trans ?_, hpost⟩
    exact List.append_assoc s.diagnostics [entry] _

end Program

end

/-! ### Conversions along steps -/

namespace Backend

variable {κ : Type} [Named κ] (backend : Backend κ C) (job : Job)
  (steps : C → Node κ → List (Step κ C))

/-- The conversions that steps lead to, with the levels that are left to each and its context. -/
def walk : Nat → C → Node κ → List (Nat × C × Node κ)
  | 0, c, n => [(0, c, n)]
  | left + 1, c, n => (left + 1, c, n) :: (steps c n).flatMap (Step.ofNode (walk left))

/-- The diagnostics that steps lead to. -/
def complaints : Nat → C → Node κ → List Diagnostic
  | 0, _, n => [refusal job n]
  | left + 1, c, n => (steps c n).flatMap (Step.diagnostics (complaints left))

variable {steps}

omit [Named κ] in
/-- What holds at the beginning of a walk and is preserved by each step holds all along. -/
theorem walk_invariant {I : C → Node κ → Prop}
    (hstep : ∀ c n c' m, I c n → .convert c' m ∈ steps c n → I c' m) {left : Nat} {c : C}
    {n : Node κ} (h : I c n) : ∀ v ∈ walk steps left c n, I v.2.1 v.2.2 := by
  induction left generalizing c n with
  | zero => exact List.forall_mem_singleton.mpr h
  | succ left ih =>
    refine List.forall_mem_cons.mpr ⟨h, fun v hv => ?_⟩
    obtain ⟨step, hstep', hv⟩ := List.mem_flatMap.mp hv
    cases step with
    | convert c' m => exact ih (hstep c n c' m h hstep') v hv
    | report entry => cases hv

variable
  (hsteps : ∀ c n, (backend.dispatch job n).Follows backend.merge c (steps c n) fun _ => True)

include hsteps

/-- The conversions of a run are those that the steps lead to. -/
theorem visits_eq_walk (left : Nat) (n : Node κ) (s : State C) :
    (backend.visits job left n s).map (fun v => (v.left, v.context, v.node))
      = walk steps left s.contexts.top n := by
  induction left generalizing n s with
  | zero => rfl
  | succ left ih =>
    have hextends := backend.extends_answer job (backend.extends_convert job left)
    obtain ⟨hasked, -⟩ := (hsteps s.contexts.top n).flatMap_asked (s := s.visit) hextends
      (f := fun n s => (backend.visits job left n s).map fun v => (v.left, v.context, v.node))
      (g := walk steps left) ih
    rw [visits, walk, ← hasked, List.map_cons, List.map_flatMap]
    congr 2
    funext a
    rw [Asked.ofNode, Asked.ofNode]
    split <;> rfl

/-- What holds of the root and is preserved by each step holds of all conversions of a run. -/
theorem visits_invariant {I : C → Node κ → Prop}
    (hstep : ∀ c n c' m, I c n → .convert c' m ∈ steps c n → I c' m) {root : Node κ}
    (h : I backend.initial root) : ∀ v ∈ backend.visitsOf job root, I v.context v.node := by
  intro v hv
  have hmem := List.mem_map_of_mem (f := fun v : Visit κ C => (v.left, v.context, v.node)) hv
  rw [visitsOf, backend.visits_eq_walk job hsteps] at hmem
  exact walk_invariant hstep h _ hmem

variable (hsilent : ∀ span, (backend.comment job span).Silent)

include hsilent

/-- The diagnostics of a conversion are those that the steps lead to. -/
theorem diagnostics_convert (left : Nat) (n : Node κ) (s : State C) :
    (backend.convert job left n s).2.diagnostics
      = s.diagnostics ++ complaints job steps left s.contexts.top n := by
  have hcomment : ∀ span (s : State C),
      (backend.answerComment job span s).2.diagnostics = s.diagnostics := fun span s =>
    (hsilent span).diagnostics_run nofun
  induction left generalizing n s with
  | zero => rfl
  | succ left ih =>
    have hextends := backend.extends_answer job (backend.extends_convert job left)
    obtain ⟨hdispatch, -⟩ := (hsteps s.contexts.top n).diagnostics_run (s := s.visit) hextends
      (g := complaints job steps left) ih hcomment
    rw [convert]
    simp only [finishNode]
    -- Comments that are asked for come after the handler, and report nothing.
    split
    · exact ((silent_attachLeadingTrivia ..).diagnostics_run hcomment).trans hdispatch
    · exact hdispatch

/-- A whole run succeeds, and its diagnostics are those that the steps lead to from the root. -/
theorem diagnostics_convertRoot (root : Node κ) :
    ∃ outcome, backend.convertRoot job root = .ok outcome
      ∧ outcome.diagnostics
        = complaints job steps job.settings.depthLimit backend.initial root := by
  have hextends := backend.extends_convert job job.settings.depthLimit root
    { contexts := { root := backend.initial } }
  have hdepth := congrArg (1 + List.length ·) hextends.pushed
  exact ⟨_, if_pos hdepth, backend.diagnostics_convert job hsteps hsilent _ root _⟩

end Backend

end Transcode.Engine
