import Mathlib.Computability.StateTransition
import Transcode.Engine.Machine

namespace Transcode.Engine

open Output Trivia

/-!
# The steps of a run

`Visitor.Steps` lists what a step of the machine can do, one rule for each, and that is all it can
do (`Visitor.steps_of_step`).  A run is any number of steps, with what can be seen of them
(`Visitor.Runs`).  It need not end.  If it does, the machine has a result, and this is the only way
to have one (`Visitor.mem_result_iff`).
-/

variable {κ C M : Type}

/-! ### What can be seen of a run -/

namespace Event

/-- The diagnostic of an event, if it is about one. -/
def entry? : Event κ → Option Diagnostic
  | .dispatched _ => none
  | .reported entry _ => some entry

/-- A node is handed to the visitor. -/
def isDispatch : Event κ → Bool
  | .dispatched _ => true
  | .reported _ _ => false

/-- The engine records a diagnostic on its own account. -/
def isOwn : Event κ → Bool
  | .dispatched _ => false
  | .reported _ own => own

end Event

/-! ### Attaching comments -/

/-- What holds of an output with and without the comments before its node holds once they are
    attached. -/
theorem attach_cases {P : Config κ C M → Prop} {job : Job} {n : Node κ} {output : Tree}
    {rest : Frames κ C M Tree} {s : Live C M}
    (leading : P ⟨(attachLeadingTrivia job.source n output).toRoutine .comment, .leading n rest, s⟩)
    (plain : P ⟨.pure output, rest, s⟩) : P (attach job n output rest s) := by
  rw [attach]
  split
  · exact leading
  · exact plain

/-- To attach comments changes nothing by itself, -/
@[simp] theorem attach_state (job : Job) (n : Node κ) (output : Tree) (rest : Frames κ C M Tree)
    (s : Live C M) : (attach job n output rest s).state = s :=
  attach_cases (P := fun c => c.state = s) rfl rfl

/-- and to leave a node only the guard. -/
@[simp] theorem leave_state (job : Job) (n : Node κ) (output : Tree) (rest : Frames κ C M Tree)
    (s : Live C M) : (leave job n output rest s).state = { s with guard := s.guard.exit } :=
  attach_state ..

/-- The comments before a node are not attached to its text. -/
@[simp] theorem attach_ofText (job : Job) (n : Node κ) (text : String) (rest : Frames κ C M Tree)
    (s : Live C M) : attach job n (.ofText text) rest s = ⟨.pure (.ofText text), rest, s⟩ := rfl

namespace Visitor

section

variable [Named κ] (visitor : Visitor κ C M) (job : Job)

/-! ### Steps -/

/-- The machine goes from one configuration to another. -/
inductive Steps : Config κ C M → Option (Event κ) → Config κ C M → Prop
  | refused {α : Type} {n : Node κ} {next : Tree → Routine κ C M α} {rest : Frames κ C M α}
      {s : Live C M} {fault : Fault}
      (enter : (s.guard.enter job.settings.depthLimit).2 = some fault) :
      Steps ⟨.call (.convert n) next, rest, s⟩ (some (.reported (tooDeep n fault) true))
        ⟨.pure (.ofText (n.textIn job.source)), .answer next rest, s.record (tooDeep n fault)⟩
  | dispatched {α : Type} {n : Node κ} {next : Tree → Routine κ C M α} {rest : Frames κ C M α}
      {s : Live C M} (enter : (s.guard.enter job.settings.depthLimit).2 = none) :
      Steps ⟨.call (.convert n) next, rest, s⟩ (some (.dispatched n))
        ⟨visitor.handler job n, .handler n (.answer next rest),
          { s with run := s.run.visit, guard := (s.guard.enter job.settings.depthLimit).1 }⟩
  | declined {n : Node κ} {rest : Frames κ C M Tree} {s : Live C M} :
      Steps ⟨.pure none, .handler n rest, s⟩ none
        ⟨visitor.fallback job n, .fallback n rest, s⟩
  | unsupported {n : Node κ} {rest : Frames κ C M Tree} {s : Live C M} :
      Steps ⟨.pure none, .fallback n rest, s⟩ (some (.reported (Engine.unsupported n) true))
        ⟨(standIn job n).toRoutine id, .unknown n rest, s.record (Engine.unsupported n)⟩
  | handled {n : Node κ} {output : Tree} {rest : Frames κ C M Tree} {s : Live C M} :
      Steps ⟨.pure (some output), .handler n rest, s⟩ none (leave job n output rest s)
  | fallen {n : Node κ} {output : Tree} {rest : Frames κ C M Tree} {s : Live C M} :
      Steps ⟨.pure (some output), .fallback n rest, s⟩ none (leave job n output rest s)
  | stoodIn {n : Node κ} {output : Tree} {rest : Frames κ C M Tree} {s : Live C M} :
      Steps ⟨.pure output, .unknown n rest, s⟩ none (leave job n output rest s)
  | attached {n : Node κ} {output : Tree} {rest : Frames κ C M Tree} {s : Live C M} :
      Steps ⟨.pure output, .leading n rest, s⟩ none ⟨.pure output, rest, s⟩
  | comment {α : Type} {span : Span} {next : Tree → Routine κ C M α} {rest : Frames κ C M α}
      {s : Live C M} :
      Steps ⟨.call (.comment span) next, rest, s⟩ none
        ⟨visitor.comment job span, .comment span (.answer next rest), s⟩
  | rendered {span : Span} {output : Tree} {rest : Frames κ C M Tree} {s : Live C M} :
      Steps ⟨.pure output, .comment span rest, s⟩ none ⟨.pure output, rest, s⟩
  | answered {α : Type} {output : Tree} {next : Tree → Routine κ C M α} {rest : Frames κ C M α}
      {s : Live C M} :
      Steps ⟨.pure output, .answer next rest, s⟩ none ⟨next output, rest, s⟩
  | push {α β : Type} {update : C} {body : Routine κ C M β} {next : β → Routine κ C M α}
      {rest : Frames κ C M α} {s : Live C M} (free : s.borrows = 0) :
      Steps ⟨.within update body next, rest, s⟩ none
        ⟨body, .within (s.run.pushContext visitor.merge update).2 update next rest,
          { s with run := (s.run.pushContext visitor.merge update).1 }⟩
  | pop {α β : Type} {guard : Guard} {update : C} {b : β} {next : β → Routine κ C M α}
      {rest : Frames κ C M α} {s : Live C M} {contexts : ContextStack C} (free : s.borrows = 0)
      (release : s.run.contexts.release guard = .ok contexts) :
      Steps ⟨.pure b, .within guard update next rest, s⟩ none
        ⟨next b, rest, { s with run := { s.run with contexts := contexts } }⟩
  | borrow {α β : Type} {body : C → Routine κ C M β} {next : β → Routine κ C M α}
      {rest : Frames κ C M α} {s : Live C M} :
      Steps ⟨.holding body next, rest, s⟩ none
        ⟨body s.run.contexts.top, .holding next rest, s.borrow⟩
  | giveBack {α β : Type} {b : β} {next : β → Routine κ C M α} {rest : Frames κ C M α}
      {s : Live C M} :
      Steps ⟨.pure b, .holding next rest, s⟩ none ⟨next b, rest, s.giveBack⟩
  | observe {α : Type} {next : View C → Routine κ C M α} {rest : Frames κ C M α} {s : Live C M} :
      Steps ⟨.observe next, rest, s⟩ none ⟨next s.run.view, rest, s⟩
  | report {α : Type} {entry : Diagnostic} {next : Routine κ C M α} {rest : Frames κ C M α}
      {s : Live C M} :
      Steps ⟨.report entry next, rest, s⟩ (some (.reported entry false))
        ⟨next, rest, s.record entry⟩
  | access {α β : Type} {act : M → β × M} {next : β → Routine κ C M α} {rest : Frames κ C M α}
      {s : Live C M} :
      Steps ⟨.access act next, rest, s⟩ none
        ⟨next (act s.memory).1, rest, { s with memory := (act s.memory).2 }⟩

variable {visitor job} {c d : Config κ C M} {e : Option (Event κ)}

/-- A step at the beginning of a conversion. -/
theorem steps_of_enter {α : Type} {n : Node κ} {next : Tree → Routine κ C M α}
    {rest : Frames κ C M α} {s : Live C M}
    (h : visitor.enter job n (.answer next rest) s = .to e d) :
    visitor.Steps job ⟨.call (.convert n) next, rest, s⟩ e d := by
  rw [enter] at h
  split at h
  · rename_i henter
    cases h
    exact .dispatched henter
  · rename_i fault henter
    cases h
    exact .refused henter

/-- A step at the end of a routine. -/
theorem steps_of_resume {α : Type} {a : α} {rest : Frames κ C M α} {s : Live C M}
    (h : visitor.resume job a rest s = .to e d) : visitor.Steps job ⟨.pure a, rest, s⟩ e d := by
  cases rest with
  | root => cases h
  | answer next rest =>
    cases h
    exact .answered
  | within guard update next rest =>
    simp only [resume, Live.releaseContext] at h
    split at h
    · rename_i released hrelease
      cases h
      split at hrelease
      · rename_i hfree
        split at hrelease
        · rename_i contexts hcontexts
          cases hrelease
          exact .pop hfree hcontexts
        · cases hrelease
      · cases hrelease
    · cases h
  | holding next rest =>
    cases h
    exact .giveBack
  | handler n rest =>
    cases a with
    | none =>
      cases h
      exact .declined
    | some output =>
      cases h
      exact .handled
  | fallback n rest =>
    cases a with
    | none =>
      cases h
      exact .unsupported
    | some output =>
      cases h
      exact .fallen
  | unknown n rest =>
    cases h
    exact .stoodIn
  | leading n rest =>
    cases h
    exact .attached
  | comment span rest =>
    cases h
    exact .rendered

/-- The machine takes no other steps. -/
theorem steps_of_step (h : visitor.step job c = .to e d) : visitor.Steps job c e d := by
  obtain ⟨routine, rest, s⟩ := c
  cases routine with
  | pure a => exact steps_of_resume h
  | call request next =>
    cases request with
    | convert n => exact steps_of_enter h
    | comment span =>
      cases h
      exact .comment
  | within update body next =>
    simp only [step, Live.pushContext] at h
    split at h
    · rename_i pushed guard hpush
      cases h
      split at hpush
      · rename_i hfree
        cases hpush
        exact .push hfree
      · cases hpush
    · cases h
  | holding body next =>
    cases h
    exact .borrow
  | observe next =>
    cases h
    exact .observe
  | report entry next =>
    cases h
    exact .report
  | access act next =>
    cases h
    exact .access

/-- A step records the diagnostics that can be seen of it. -/
theorem Steps.diagnostics (h : visitor.Steps job c e d) :
    d.state.run.diagnostics = c.state.run.diagnostics ++ e.toList.filterMap Event.entry? := by
  cases h with
  | refused | unsupported | report => rfl
  | handled | fallen | stoodIn => simp
  | _ => exact (List.append_nil _).symm

/-- A step counts the dispatches that can be seen of it. -/
theorem Steps.visited (h : visitor.Steps job c e d) :
    d.state.run.visited = c.state.run.visited + e.toList.countP Event.isDispatch := by
  cases h with
  | handled | fallen | stoodIn => simp
  | _ => rfl

/-! The steps that depend on the state. -/

/-- With nothing borrowed a context is pushed. -/
theorem step_of_free {α β : Type} {update : C} {body : Routine κ C M β} {next : β → Routine κ C M α}
    {rest : Frames κ C M α} {s : Live C M} (free : s.borrows = 0) :
    visitor.step job ⟨.within update body next, rest, s⟩
      = .to none ⟨body, .within (s.run.pushContext visitor.merge update).2 update next rest,
          { s with run := (s.run.pushContext visitor.merge update).1 }⟩ := by
  rw [step, Live.pushContext, if_pos free]

/-- To push one that would change what is borrowed breaks off the run. -/
theorem step_of_borrowed {α β : Type} {update : C} {body : Routine κ C M β}
    {next : β → Routine κ C M α} {rest : Frames κ C M α} {s : Live C M} (held : s.borrows ≠ 0) :
    visitor.step job ⟨.within update body next, rest, s⟩ = .panic .borrowed := by
  rw [step, Live.pushContext, if_neg held]

/-- A body that is done gives its context back. -/
theorem step_of_release {α β : Type} {guard : Guard} {update : C} {b : β}
    {next : β → Routine κ C M α} {rest : Frames κ C M α} {s : Live C M}
    {contexts : ContextStack C} (free : s.borrows = 0)
    (release : s.run.contexts.release guard = .ok contexts) :
    visitor.step job ⟨.pure b, .within guard update next rest, s⟩
      = .to none ⟨next b, rest, { s with run := { s.run with contexts := contexts } }⟩ := by
  rw [step, resume, Live.releaseContext, if_pos free, release]

/-- A node is dispatched if the guard grants a level. -/
theorem step_of_granted {α : Type} {n : Node κ} {next : Tree → Routine κ C M α}
    {rest : Frames κ C M α} {s : Live C M}
    (granted : (s.guard.enter job.settings.depthLimit).2 = none) :
    visitor.step job ⟨.call (.convert n) next, rest, s⟩
      = .to (some (.dispatched n)) ⟨visitor.handler job n, .handler n (.answer next rest),
          { s with run := s.run.visit, guard := (s.guard.enter job.settings.depthLimit).1 }⟩ := by
  rw [step, enter]
  simp only [granted]

/-- Otherwise its text comes out, and the fault is recorded. -/
theorem step_of_refused {α : Type} {n : Node κ} {next : Tree → Routine κ C M α}
    {rest : Frames κ C M α} {s : Live C M} {fault : Fault}
    (refused : (s.guard.enter job.settings.depthLimit).2 = some fault) :
    visitor.step job ⟨.call (.convert n) next, rest, s⟩
      = .to (some (.reported (tooDeep n fault) true))
          ⟨.pure (.ofText (n.textIn job.source)), .answer next rest,
            s.record (tooDeep n fault)⟩ := by
  rw [step, enter]
  simp only [refused, attach_ofText]

end

/-! ### Runs -/

section

variable [Named κ] (visitor : Visitor κ C M) (job : Job)

/-- The machine goes from one configuration to another in any number of steps, in which some
    events can be seen. -/
inductive Runs : Config κ C M → List (Event κ) → Config κ C M → Prop
  | refl (c : Config κ C M) : Runs c [] c
  | tail {c d d' : Config κ C M} {es : List (Event κ)} {e : Option (Event κ)}
      (earlier : Runs c es d) (last : visitor.step job d = .to e d') : Runs c (es ++ e.toList) d'

/-- A configuration that a run from the root of a tree comes to, after some events. -/
def Reaches (root : Node κ) (memory : M) (es : List (Event κ)) (c : Config κ C M) : Prop :=
  visitor.Runs job (visitor.start root memory) es c

variable {visitor job} {b c d : Config κ C M} {e : Option (Event κ)} {es fs : List (Event κ)}

/-- One step is a run. -/
theorem Runs.single (h : visitor.step job c = .to e d) : visitor.Runs job c e.toList d :=
  .tail (.refl c) h

/-- One run after the other is a run. -/
theorem Runs.trans (h : visitor.Runs job b es c) (h' : visitor.Runs job c fs d) :
    visitor.Runs job b (es ++ fs) d := by
  induction h' with
  | refl => rwa [List.append_nil]
  | tail _ last ih =>
    rw [← List.append_assoc]
    exact .tail ih last

/-- A run that begins with a step. -/
theorem Runs.head (h : visitor.step job b = .to e c) (h' : visitor.Runs job c fs d) :
    visitor.Runs job b (e.toList ++ fs) d :=
  (Runs.single h).trans h'

/-- A run is none at all, or begins with a step. -/
theorem Runs.cases_head (h : visitor.Runs job c es d) :
    (c = d ∧ es = []) ∨ ∃ e b fs, visitor.step job c = .to e b ∧ visitor.Runs job b fs d
      ∧ es = e.toList ++ fs := by
  induction h with
  | refl => exact .inl ⟨rfl, rfl⟩
  | @tail d d' es e earlier last ih =>
    rcases ih with ⟨rfl, rfl⟩ | ⟨e', b, fs, hfirst, hrest, rfl⟩
    · exact .inr ⟨e, d', [], last, .refl d', by rw [List.append_nil, List.nil_append]⟩
    · exact .inr ⟨e', b, fs ++ e.toList, hfirst, hrest.tail last, List.append_assoc ..⟩

/-- There is one way to run only: a run that stops goes on from every other one. -/
theorem Runs.of_result {b : Config κ C M} {r : Except Panic (Tree × Live C M)}
    (h : visitor.Runs job c es d) (hresult : visitor.result? job d = some r)
    (h' : visitor.Runs job c fs b) : ∃ gs, visitor.Runs job b gs d ∧ es = fs ++ gs := by
  induction h' with
  | refl => exact ⟨es, h, rfl⟩
  | @tail b b' fs e _ last ih =>
    obtain ⟨gs, hgs, rfl⟩ := ih
    rcases hgs.cases_head with ⟨rfl, rfl⟩ | ⟨e', a, hs, hfirst, hrest, rfl⟩
    · rw [result?, last] at hresult
      cases hresult
    · obtain ⟨rfl, rfl⟩ := Next.to.inj (last.symm.trans hfirst)
      exact ⟨hs, hrest, (List.append_assoc ..).symm⟩

/-- What every step preserves holds to the end of a run. -/
theorem Runs.preserves {P : Config κ C M → Prop}
    (hstep : ∀ {c e d}, visitor.Steps job c e d → P c → P d) (h : visitor.Runs job c es d)
    (hc : P c) : P d := by
  induction h with
  | refl => exact hc
  | tail _ last ih => exact hstep (steps_of_step last) ih

/-- A step leads to the next configuration. -/
theorem next?_of_step (h : visitor.step job c = .to e d) : visitor.next? job c = some d := by
  rw [next?, h]

/-- There is no next configuration where the machine has a result. -/
theorem next?_eq_none_iff : visitor.next? job c = none ↔ ∃ r, visitor.result? job c = some r := by
  rw [next?, result?]
  rcases visitor.step job c with _ | _ | _ <;> simp

variable (visitor job) in
/-- What can be seen of so many steps of a run, or of fewer if it stops. -/
def seen : Nat → Config κ C M → List (Event κ)
  | 0, _ => []
  | k + 1, c =>
    match visitor.step job c with
    | .to e d => e.toList ++ seen k d
    | _ => []

/-- Any number of steps makes a run, with the events seen on the way. -/
theorem runs_after (k : Nat) (c : Config κ C M) :
    visitor.Runs job c (visitor.seen job k c) (visitor.after job k c) := by
  induction k generalizing c with
  | zero => exact .refl c
  | succ k ih =>
    rw [seen, after, next?]
    rcases hstep : visitor.step job c with ⟨e, d⟩ | _ | _
    · exact (ih d).head hstep
    · exact .refl c
    · exact .refl c

/-- A run records the diagnostics that can be seen of it. -/
theorem Runs.diagnostics (h : visitor.Runs job c es d) :
    d.state.run.diagnostics = c.state.run.diagnostics ++ es.filterMap Event.entry? := by
  induction h with
  | refl => exact (List.append_nil _).symm
  | tail _ last ih =>
    rw [(steps_of_step last).diagnostics, ih, List.filterMap_append, List.append_assoc]

/-- A run counts the dispatches that can be seen of it. -/
theorem Runs.visited (h : visitor.Runs job c es d) :
    d.state.run.visited = c.state.run.visited + es.countP Event.isDispatch := by
  induction h with
  | refl => rfl
  | tail _ last ih =>
    rw [(steps_of_step last).visited, ih, List.countP_append, Nat.add_assoc]

/-! ### Results -/

variable (visitor job) in
/-- The result of a run.  A run without end has none. -/
def result (c : Config κ C M) : Part (Except Panic (Tree × Live C M)) :=
  (StateTransition.eval (visitor.next? job) c).bind fun last => visitor.result? job last

variable (visitor job) in
/-- Convert a syntax tree, with what the visitor remembers from before. -/
def translate (root : Node κ) (memory : M) : Part (Except Failure Outcome) :=
  let before := visitor.start root memory
  (visitor.result job before).map (conclude before.state.run)

/-- The configurations that a run comes to are those that are reached from one by the next. -/
theorem reaches_iff_runs :
    StateTransition.Reaches (visitor.next? job) c d ↔ ∃ es, visitor.Runs job c es d := by
  constructor
  · intro h
    induction h with
    | refl => exact ⟨[], .refl c⟩
    | @tail d d' _ last ih =>
      obtain ⟨es, hruns⟩ := ih
      have hlast : visitor.next? job d = some d' := last
      rw [next?] at hlast
      rcases hstep : visitor.step job d with ⟨e, _⟩ | _ | _ <;> rw [hstep] at hlast <;> cases hlast
      exact ⟨_, hruns.tail hstep⟩
  · rintro ⟨es, h⟩
    induction h with
    | refl => exact .refl
    | tail _ last ih => exact ih.tail (next?_of_step last)

/-- The result of a run is that of the configuration at which it stops. -/
theorem mem_result_iff {r : Except Panic (Tree × Live C M)} :
    r ∈ visitor.result job c ↔ ∃ es d, visitor.Runs job c es d ∧ visitor.result? job d = some r := by
  rw [result, Part.mem_bind_iff]
  constructor
  · rintro ⟨d, hlast, hresult⟩
    obtain ⟨es, hruns⟩ := reaches_iff_runs.mp (StateTransition.mem_eval.mp hlast).1
    exact ⟨es, d, hruns, Part.mem_coe.mp hresult⟩
  · rintro ⟨es, d, hruns, hresult⟩
    have hlast := StateTransition.mem_eval.mpr
      ⟨reaches_iff_runs.mpr ⟨es, hruns⟩, next?_eq_none_iff.mpr ⟨r, hresult⟩⟩
    exact ⟨d, hlast, Part.mem_coe.mpr hresult⟩

section

variable {root : Node κ} {memory : M}

/-- The outcome of a run from the root of a tree goes by the result at which it stops. -/
theorem mem_translate_iff {r : Except Failure Outcome} :
    r ∈ visitor.translate job root memory ↔ ∃ es c result,
      visitor.Reaches job root memory es c ∧ visitor.result? job c = some result
        ∧ conclude (visitor.start root memory).state.run result = r := by
  rw [translate, Part.mem_map_iff]
  constructor
  · rintro ⟨result, hmem, hr⟩
    obtain ⟨es, c, hreaches, hresult⟩ := mem_result_iff.mp hmem
    exact ⟨es, c, result, hreaches, hresult, hr⟩
  · rintro ⟨es, c, result, hreaches, hresult, hr⟩
    exact ⟨result, mem_result_iff.mpr ⟨es, c, hreaches, hresult⟩, hr⟩

/-- What a run comes to within so many steps is its outcome, -/
theorem mem_translate_of_within {k : Nat} {r : Except Failure Outcome}
    (h : visitor.translateWithin job k root memory = some r) :
    r ∈ visitor.translate job root memory := by
  rw [translateWithin, Option.map_eq_some_iff] at h
  obtain ⟨result, hresult, hr⟩ := h
  exact mem_translate_iff.mpr ⟨_, _, result, runs_after k _, hresult, hr⟩

/-- and what shows of it can be computed. -/
theorem exists_outcome_of_within {β : Type} {k : Nat} {f : Outcome → β} {b : β}
    (h : ((visitor.translateWithin job k root memory).bind (·.toOption)).map f = some b) :
    ∃ outcome, visitor.translateWithin job k root memory = some (.ok outcome) ∧ f outcome = b := by
  obtain ⟨outcome, houtcome, hb⟩ := Option.map_eq_some_iff.mp h
  obtain ⟨_ | outcome, hwithin, hok⟩ := Option.bind_eq_some_iff.mp houtcome
  · cases hok
  · cases hok
    exact ⟨outcome, hwithin, hb⟩

end

end

end Visitor

end Transcode.Engine
