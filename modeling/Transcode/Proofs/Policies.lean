import Transcode.Output.Render
import Transcode.Proofs.Stepping

namespace Transcode.Engine

open Output Trivia

/-!
# Where settings make a difference

The engine looks at the settings in two places: a node that nests too deep is refused, and what
nobody handles comes out as the policy for unknown nodes says.  It reports both on its own account
(`Event.isOwn`).  So a step without such a report is the same under all settings that allow at least
as many levels (`Visitor.IgnoresSettings.step_eq`), if the routines of the visitor do not look at
them, and so are whole runs, with and without an end (`settings_matter_when_hit`).

A visitor may report what it likes, also in the words of the engine.
-/

variable {κ C M : Type}

/-- None of some events is a report of the engine on its own account. -/
def NoneOwn (es : List (Event κ)) : Prop :=
  ∀ e ∈ es, e.isOwn = false

instance (es : List (Event κ)) : Decidable (NoneOwn es) :=
  inferInstanceAs (Decidable (∀ e ∈ es, e.isOwn = false))

/-- The engine has reported nothing if it has not before and has not since. -/
theorem noneOwn_append {es fs : List (Event κ)} :
    NoneOwn (es ++ fs) ↔ NoneOwn es ∧ NoneOwn fs :=
  List.forall_mem_append

namespace Visitor

/-- The routines of a visitor do not look at the settings. -/
structure IgnoresSettings (visitor : Visitor κ C M) : Prop where
  handler (source : String) (a b : Settings) (n : Node κ) :
    visitor.handler ⟨source, a⟩ n = visitor.handler ⟨source, b⟩ n
  fallback (source : String) (a b : Settings) (n : Node κ) :
    visitor.fallback ⟨source, a⟩ n = visitor.fallback ⟨source, b⟩ n
  comment (source : String) (a b : Settings) (span : Span) :
    visitor.comment ⟨source, a⟩ span = visitor.comment ⟨source, b⟩ span

end Visitor

namespace Visitor.IgnoresSettings

variable [Named κ] {visitor : Visitor κ C M} {source : String} {a b : Settings}
  {c d : Config κ C M} {e : Option (Event κ)} {es : List (Event κ)}

/-- A step without a report of the engine is the same under all settings that allow at least as many
    levels. -/
theorem step_eq (h : visitor.IgnoresSettings) (hlimit : a.depthLimit ≤ b.depthLimit)
    (hown : ∀ e d, visitor.step ⟨source, a⟩ c = .to (some e) d → e.isOwn = false) :
    visitor.step ⟨source, b⟩ c = visitor.step ⟨source, a⟩ c := by
  obtain ⟨routine, rest, s⟩ := c
  cases routine with
  | pure value =>
    cases rest with
    | handler n rest =>
      cases value with
      | none => simp only [step, resume, h.fallback source b a]
      | some output => rfl
    | fallback n rest =>
      cases value with
      | none =>
        -- What neither the handler nor the fallback takes is always reported.
        cases hown _ _ rfl
      | some output => rfl
    | _ => rfl
  | call request next =>
    cases request with
    | convert n =>
      rcases hgranted : (s.guard.enter a.depthLimit).2 with _ | fault
      · have hsame := NestingGuard.enter_mono hlimit hgranted
        have hgranted' : (s.guard.enter b.depthLimit).2 = none := by rw [hsame, hgranted]
        rw [step_of_granted hgranted', step_of_granted hgranted, h.handler source b a]
        simp only [hsame]
      · cases hown _ _ (step_of_refused hgranted)
    | comment span => simp only [step, h.comment source b a]
  | _ => rfl

/-- A run without reports of the engine is a run under all settings that allow at least as many
    levels. -/
theorem runs (h : visitor.IgnoresSettings) (hlimit : a.depthLimit ≤ b.depthLimit)
    (hruns : visitor.Runs ⟨source, a⟩ c es d) (hown : NoneOwn es) :
    visitor.Runs ⟨source, b⟩ c es d := by
  induction hruns with
  | refl => exact .refl c
  | @tail _ _ es _ earlier last ih =>
    obtain ⟨hearlier, hlast⟩ := noneOwn_append.mp hown
    refine .tail (ih hearlier) ((h.step_eq hlimit fun e' d' hstep => ?_).trans last)
    obtain ⟨rfl, -⟩ := Next.to.inj (last.symm.trans hstep)
    exact hlast e' List.mem_cons_self

/-- If no run from a configuration has a report of the engine, these are all the runs there are. -/
theorem runs_iff (h : visitor.IgnoresSettings) (hlimit : a.depthLimit ≤ b.depthLimit)
    (hown : ∀ es d, visitor.Runs ⟨source, a⟩ c es d → NoneOwn es) :
    visitor.Runs ⟨source, b⟩ c es d ↔ visitor.Runs ⟨source, a⟩ c es d := by
  refine ⟨fun hruns => ?_, fun hruns => h.runs hlimit hruns (hown es d hruns)⟩
  induction hruns with
  | refl => exact .refl c
  | tail _ last ih =>
    refine .tail ih ((h.step_eq hlimit fun e d hstep => ?_).symm.trans last)
    exact (noneOwn_append.mp (hown _ _ (ih.tail hstep))).2 e List.mem_cons_self

end Visitor.IgnoresSettings

/-! ### Whole runs -/

section

variable [Named κ] {visitor : Visitor κ C M} {job : Job} {root : Node κ} {memory : M}

/-- If the engine reports nothing until a run stops, then it never does. -/
theorem noneOwn_of_within {k : Nat} {r : Except Visitor.Failure Outcome}
    (hwithin : visitor.translateWithin job k root memory = some r)
    (hown : NoneOwn (visitor.seen job k (visitor.start root memory))) {es : List (Event κ)}
    {c : Config κ C M} (h : visitor.Reaches job root memory es c) : NoneOwn es := by
  obtain ⟨result, hresult, -⟩ := Option.map_eq_some_iff.mp hwithin
  obtain ⟨gs, -, hevents⟩ := (Visitor.runs_after k _).of_result hresult h
  rw [hevents] at hown
  exact (noneOwn_append.mp hown).1

/-- **Settings matter when they are hit.**  Let the routines of a visitor not look at the settings.
    The diagnostics of a run are the entries of its reports.  If none of these is by the engine,
    which reports nodes that nest too deep and nodes that nobody handles, then the run is the same
    under all settings that allow at least as many levels.  It goes through the same configurations
    with the same events, and comes to the same result if it comes to one: the same tree, the same
    diagnostics and the same counts. -/
theorem settings_matter_when_hit (hignores : visitor.IgnoresSettings) (source : String)
    (settings : Settings) (root : Node κ) (memory : M) :
    (∀ es c, visitor.Reaches ⟨source, settings⟩ root memory es c →
      c.state.run.diagnostics = es.filterMap Event.entry?)
      ∧ ((∀ es c, visitor.Reaches ⟨source, settings⟩ root memory es c → NoneOwn es) →
        ∀ settings' : Settings, settings.depthLimit ≤ settings'.depthLimit →
          (∀ es c, visitor.Reaches ⟨source, settings'⟩ root memory es c
            ↔ visitor.Reaches ⟨source, settings⟩ root memory es c)
          ∧ visitor.translate ⟨source, settings'⟩ root memory
            = visitor.translate ⟨source, settings⟩ root memory) := by
  refine ⟨fun es c h => h.diagnostics, fun hown settings' hlimit => ?_⟩
  have hruns : ∀ es c, visitor.Reaches ⟨source, settings'⟩ root memory es c
      ↔ visitor.Reaches ⟨source, settings⟩ root memory es c :=
    fun es c => hignores.runs_iff hlimit hown
  refine ⟨hruns, Part.ext fun r => ?_⟩
  have hresult : ∀ es c, visitor.Reaches ⟨source, settings⟩ root memory es c →
      visitor.result? ⟨source, settings'⟩ c = visitor.result? ⟨source, settings⟩ c := by
    intro es c h
    rw [Visitor.result?, Visitor.result?, hignores.step_eq hlimit fun e d hstep => ?_]
    exact (noneOwn_append.mp (hown _ _ (h.tail hstep))).2 e List.mem_cons_self
  simp only [Visitor.mem_translate_iff, hruns]
  refine exists_congr fun es => exists_congr fun c => exists_congr fun result =>
    and_congr_right fun h => ?_
  rw [hresult es c h]

end

/-- A visitor that converts what stands below a node, and calls the node unsupported in the words of
    the engine.  A comment it has converted as if it were a node. -/
def grudging : Visitor String Unit Unit where
  initial := ()
  comment := fun _ span => .call (.convert ⟨"Remark", span.stop, span.start, span.stop, []⟩) .pure
  handler := fun job n => Program.toRoutine id <| do
    match n.children with
    | [] => return some (Tree.ofText (n.textIn job.source)).withComments
    | children =>
      reportUnsupported n
      return some (.ofFragments (fragmentsOf (← Program.under () (convertAll children))))

/-- What the visitor says itself does not count, however it puts it: another policy and more levels
    make no difference, neither to the nodes nor to the comment between them. -/
theorem settings_matter_when_hit_grudging :
    let root : Node String := ⟨"Pair", 0, 0, 6, [⟨"Name", 0, 0, 1, []⟩, ⟨"Name", 1, 5, 6, []⟩]⟩
    let tight : Settings := { depthLimit := 2 }
    let loose : Settings := { depthLimit := 7, unknownNodes := .strict }
    grudging.IgnoresSettings
      ∧ (∀ es c, grudging.Reaches ⟨"x/**/y", tight⟩ root () es c → NoneOwn es)
      ∧ tight.depthLimit ≤ loose.depthLimit
      ∧ ∃ outcome, .ok outcome ∈ grudging.translate ⟨"x/**/y", tight⟩ root ()
        ∧ .ok outcome ∈ grudging.translate ⟨"x/**/y", loose⟩ root ()
        ∧ render outcome.tree = "x/**/y"
        ∧ outcome.stats.visited = 4
        ∧ outcome.diagnostics = [⟨"Pair", 0, 6,
            "this language feature (Pair) is not supported by the translation", .error⟩] := by
  intro root tight loose
  have hignores : grudging.IgnoresSettings :=
    ⟨fun _ _ _ _ => rfl, fun _ _ _ _ => rfl, fun _ _ _ _ => rfl⟩
  have hlimit : tight.depthLimit ≤ loose.depthLimit := by decide
  have hend : ((grudging.translateWithin ⟨"x/**/y", tight⟩ 60 root ()).bind (·.toOption)).map
        (fun outcome => (render outcome.tree, outcome.stats.visited, outcome.diagnostics))
      = some ("x/**/y", 4, [⟨"Pair", 0, 6,
          "this language feature (Pair) is not supported by the translation", .error⟩]) := by
    decide +kernel
  obtain ⟨outcome, hwithin, hseen⟩ := Visitor.exists_outcome_of_within hend
  have hown : ∀ es c, grudging.Reaches ⟨"x/**/y", tight⟩ root () es c → NoneOwn es :=
    fun _ _ => noneOwn_of_within hwithin (by decide +kernel)
  have htranslate := Visitor.mem_translate_of_within hwithin
  obtain ⟨-, hsame⟩ := (settings_matter_when_hit hignores "x/**/y" tight root ()).2 hown loose hlimit
  obtain ⟨hrender, hseen⟩ := Prod.mk.inj hseen
  obtain ⟨hvisited, hdiagnostics⟩ := Prod.mk.inj hseen
  exact ⟨hignores, hown, hlimit, outcome, htranslate, hsame ▸ htranslate, hrender, hvisited,
    hdiagnostics⟩

end Transcode.Engine
