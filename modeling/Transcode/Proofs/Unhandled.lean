import Transcode.Proofs.Visits

namespace Transcode.Engine

open Output Trivia

/-!
# Nodes that nobody handles

A backend without handlers and without a fallback leaves every node to the rule for unknown nodes.
Under the strict policy that rule goes on to the children, so that a run passes through the whole
tree, as deep as the limit allows.  What it reports can be read off the tree: the root is on level
one, a node on a level within the limit is reported as unsupported, and one on the level after it as
nested too deep (`unhandled_by_level`).

A conversion changes the state of a run as a listing of the nodes under it says, in pre-order and
with their levels (`State.tally`).  That a node is reported before its children are converted is
what makes the order of the reports that of the listing, and the levels that are left to a
conversion are what is missing from its level to the one after the limit.
-/

variable {κ C : Type}

/-! ### Levels of a tree -/

section

variable {level : Nat}

theorem Node.preorderFrom_eq (level : Nat) (n : Node κ) :
    n.preorderFrom level = (level, n) :: n.children.flatMap (·.preorderFrom (level + 1)) := by
  have hall : ∀ ns : List (Node κ),
      Node.preorderAll (level + 1) ns = ns.flatMap (·.preorderFrom (level + 1)) := by
    intro ns
    induction ns with
    | nil => rfl
    | cons n ns ih => rw [Node.preorderAll, ih, List.flatMap_cons]
  obtain ⟨kind, fullStart, start, stop, children⟩ := n
  rw [Node.preorderFrom, hall]

/-- No node is above the root. -/
theorem Node.le_of_mem_preorderFrom {n : Node κ} {p : Nat × Node κ}
    (h : p ∈ n.preorderFrom level) : level ≤ p.1 := by
  induction n using Node.induction generalizing level with
  | h n ih =>
    rw [Node.preorderFrom_eq, List.mem_cons, List.mem_flatMap] at h
    rcases h with rfl | ⟨child, hchild, h⟩
    · exact Nat.le_refl level
    · exact Nat.le_of_succ_le (ih child hchild h)

/-- The nodes below the children's level are below that of their parent. -/
theorem Node.lt_of_mem_children {n : Node κ} {p : Nat × Node κ}
    (h : p ∈ n.children.flatMap (·.preorderFrom (level + 1))) : level < p.1 := by
  obtain ⟨child, -, hp⟩ := List.mem_flatMap.mp h
  exact Node.le_of_mem_preorderFrom hp

/-- Up to some level, the root is there and the rest is a matter of its children. -/
theorem Node.filter_preorderFrom (left level : Nat) (n : Node κ) :
    (n.preorderFrom level).filter (·.1 ≤ left + level)
      = (level, n)
        :: (n.children.flatMap (·.preorderFrom (level + 1))).filter (·.1 ≤ left + level) := by
  rw [Node.preorderFrom_eq]
  exact List.filter_cons_of_pos (decide_eq_true (Nat.le_add_left level left))

end

/-! ### Tallies -/

section

variable [Named κ] (job : Job)

/-- What is reported about a node on a level: it is unsupported within the limit, and nested too
    deep right after it.  What is deeper is not reported. -/
def reportOn (p : Nat × Node κ) : Option Diagnostic :=
  let limit := job.settings.depthLimit
  if p.1 ≤ limit then some (unsupported p.2)
  else if p.1 = limit + 1 then
    some (diagnosticAt p.2 .error
      ((Fault.recursionLimit (limit + 1) limit).message ++ "; subtree emitted verbatim"))
  else none

/-- The state after the nodes of a listing were passed through. -/
def State.tally (s : State C) (listing : List (Nat × Node κ)) : State C :=
  { s with
    diagnostics := s.diagnostics ++ listing.filterMap (reportOn job)
    visited := s.visited + listing.countP (·.1 ≤ job.settings.depthLimit) }

variable {job} {s : State C} {listing : List (Nat × Node κ)} {p : Nat × Node κ}

theorem State.tally_append (later : List (Nat × Node κ)) :
    s.tally job (listing ++ later) = (s.tally job listing).tally job later := by
  simp only [tally, List.filterMap_append, List.countP_append, List.append_assoc, Nat.add_assoc]

/-- Nothing changes for nodes that are too deep. -/
theorem State.tally_deep (h : ∀ p ∈ listing, job.settings.depthLimit + 1 < p.1) :
    s.tally job listing = s := by
  have hreport : listing.filterMap (reportOn job) = [] := by
    refine List.filterMap_eq_nil_iff.mpr fun p hp => ?_
    have hp := h p hp
    rw [reportOn, if_neg (by omega), if_neg (by omega)]
  have hcount : listing.countP (·.1 ≤ job.settings.depthLimit) = 0 := by
    refine List.countP_eq_zero.mpr fun p hp => ?_
    have hp := h p hp
    rw [decide_eq_true_iff]
    omega
  rw [tally, hreport, hcount, List.append_nil, Nat.add_zero]

/-- A node within the limit is counted and reported. -/
theorem State.tally_cons_of_le (h : p.1 ≤ job.settings.depthLimit) :
    s.tally job (p :: listing) = (s.visit.record (unsupported p.2)).tally job listing := by
  have hreport : reportOn job p = some (unsupported p.2) := if_pos h
  have hcount : (p :: listing).countP (·.1 ≤ job.settings.depthLimit)
      = listing.countP (·.1 ≤ job.settings.depthLimit) + 1 :=
    List.countP_cons_of_pos (decide_eq_true h)
  rw [tally, List.filterMap_cons_some hreport, hcount]
  simp only [tally, visit, record, List.append_assoc, List.singleton_append]
  rw [Nat.add_assoc s.visited, Nat.add_comm 1]

/-- A node right after the limit is refused, and what is below it is passed over. -/
theorem State.tally_preorderFrom_of_eq {n : Node κ} {level : Nat}
    (h : level = job.settings.depthLimit + 1) :
    s.tally job (n.preorderFrom level) = s.record (Backend.refusal job n) := by
  have hreport : reportOn job (level, n) = some (Backend.refusal job n) := by
    rw [reportOn, if_neg (by simp only; omega), if_pos h]
    rfl
  have hcount : ∀ listing : List (Nat × Node κ),
      ((level, n) :: listing).countP (·.1 ≤ job.settings.depthLimit)
        = listing.countP (·.1 ≤ job.settings.depthLimit) := fun listing =>
    List.countP_cons_of_neg fun hle => by
      have hle : level ≤ job.settings.depthLimit := of_decide_eq_true hle
      omega
  have hbelow : (s.record (Backend.refusal job n)).tally job
      (n.children.flatMap (·.preorderFrom (level + 1))) = s.record (Backend.refusal job n) :=
    State.tally_deep fun p hp => h ▸ Node.lt_of_mem_children hp
  rw [← hbelow, Node.preorderFrom_eq, tally, tally, List.filterMap_cons_some hreport, hcount]
  simp only [record, List.append_assoc, List.singleton_append]

end

/-! ### Conversions -/

section

variable [Named κ] (backend : Backend κ C) (job : Job)

/-- The backend leaves every node to the rule for unknown nodes. -/
structure Backend.HandlesNothing : Prop where
  handler (n : Node κ) : backend.handler job n = pure none
  fallback (n : Node κ) : backend.fallback job n = pure none

variable {backend job} {answer : Request κ → StateM (State C) Tree} {merge : C → C → C}

theorem Backend.HandlesNothing.dispatch (h : backend.HandlesNothing job) (n : Node κ) :
    backend.dispatch job n = convertUnknown job n := by
  rw [Backend.dispatch, h.handler, pure_bind]
  simp only
  rw [h.fallback, pure_bind]

omit [Named κ] in
/-- Requests are answered one after the other. -/
theorem Program.state_askAll {ι : Type} {request : ι → Request κ} (items : List ι) (s : State C) :
    ((askAll request items).run answer merge s).2
      = items.foldl (fun s i => (answer (request i) s).2) s := by
  induction items generalizing s with
  | nil => rfl
  | cons i items ih =>
    have hrest := Program.run_bind answer merge (askAll request items)
      (fun ts => .pure ((answer (request i) s).1 :: ts)) (answer (request i) s).2
    exact (congrArg Prod.snd hrest).trans (ih _)

/-- Under the strict policy, an unknown node is reported and its children are converted.  What
    becomes of it then asks for no comments. -/
theorem convertUnknown_strict (hstrict : job.settings.unknownNodes = .strict) (n : Node κ) :
    ∃ shown : List Tree → Tree, (∀ ts, (shown ts).wantsComments = false)
      ∧ (convertUnknown job n : Task κ C Tree)
        = .report (unsupported n) ((convertAll n.children).bind fun ts => .pure (shown ts)) := by
  obtain ⟨kind, fullStart, start, stop, children⟩ := n
  simp only [convertUnknown, standIn, hstrict]
  cases children with
  | nil => exact ⟨fun _ => .ofText _, fun _ => rfl, rfl⟩
  | cons child children => exact ⟨fun ts => linesUnder _ ts, fun _ => rfl, rfl⟩

/-- A conversion changes the state as the listing of its nodes says. -/
theorem Backend.HandlesNothing.state_convert (h : backend.HandlesNothing job)
    (hstrict : job.settings.unknownNodes = .strict) {left level : Nat}
    (hlevel : left + level = job.settings.depthLimit + 1) (n : Node κ) (s : State C) :
    (backend.convert job left n s).2 = s.tally job (n.preorderFrom level) := by
  -- By the levels that are left, and at each of them by the children from left to right.
  induction left generalizing level n s with
  | zero => exact (State.tally_preorderFrom_of_eq (by omega)).symm
  | succ left ih =>
    have hchildren : ∀ (children : List (Node κ)) (s : State C),
        children.foldl (fun s child => (backend.convert job left child s).2) s
          = s.tally job (children.flatMap (·.preorderFrom (level + 1))) := by
      intro children
      induction children with
      | nil => exact fun s => (State.tally_deep fun p hp => absurd hp List.not_mem_nil).symm
      | cons child children ihChildren =>
        intro s
        have hchild : (backend.convert job left child s).2
            = s.tally job (child.preorderFrom (level + 1)) := ih (by omega) child s
        rw [List.foldl_cons, hchild, ihChildren, List.flatMap_cons, State.tally_append]
    obtain ⟨shown, hwants, hunknown⟩ := convertUnknown_strict (C := C) hstrict n
    have hle : (level, n).1 ≤ job.settings.depthLimit := by
      simp only
      omega
    rw [convert]
    simp only [h.dispatch, hunknown, Program.run, Program.run_bind, finishNode, hwants,
      Bool.false_and, Bool.false_eq_true, if_false]
    rw [Node.preorderFrom_eq, State.tally_cons_of_le hle, ← hchildren]
    exact Program.state_askAll ..

end

/-! ### Visits -/

section

variable [Named κ] {backend : Backend κ C} {job : Job}

/-- A node is reported, and then its children are converted under the same context. -/
def unknownSteps (c : C) (n : Node κ) : List (Step κ C) :=
  .report (unsupported n) :: n.children.map (.convert c)

theorem Backend.HandlesNothing.follows (h : backend.HandlesNothing job)
    (hstrict : job.settings.unknownNodes = .strict) (c : C) (n : Node κ) :
    (backend.dispatch job n).Follows backend.merge c (unknownSteps c n) fun _ => True := by
  obtain ⟨shown, -, hunknown⟩ := convertUnknown_strict (C := C) hstrict n
  rw [h.dispatch, hunknown]
  exact ⟨_, rfl, Program.follows_map (Program.follows_askAll.mono fun _ _ => ⟨rfl, trivial⟩)⟩

/-- The steps lead to the nodes whose levels are not beyond the one after the limit. -/
theorem walk_unknownSteps {left level : Nat} (c : C) (n : Node κ) :
    (Backend.walk unknownSteps left c n).map (fun v => (left + level - v.1, v.2.2))
      = (n.preorderFrom level).filter (·.1 ≤ left + level) := by
  induction left generalizing level n with
  | zero =>
    have hdeep : (n.children.flatMap (·.preorderFrom (level + 1))).filter (·.1 ≤ 0 + level)
        = [] := by
      refine List.filter_eq_nil_iff.mpr fun p hp hle => ?_
      have hlt := Node.lt_of_mem_children hp
      have hle := of_decide_eq_true hle
      omega
    rw [Node.filter_preorderFrom, hdeep, Backend.walk, List.map_singleton, Nat.zero_add,
      Nat.sub_zero]
  | succ left ih =>
    have hchild : ∀ child : Node κ,
        (Backend.walk unknownSteps left c child).map (fun v => (left + 1 + level - v.1, v.2.2))
          = (child.preorderFrom (level + 1)).filter (·.1 ≤ left + 1 + level) := by
      have hlevel : left + 1 + level = left + (level + 1) := by omega
      rw [hlevel]
      exact fun child => ih child
    rw [Node.filter_preorderFrom, Backend.walk, List.map_cons, unknownSteps, List.flatMap_cons,
      List.flatMap_map, List.filter_flatMap, Nat.add_sub_cancel_left]
    refine congrArg (_ :: ·) (List.map_flatMap.trans ?_)
    exact List.flatMap_congr fun child _ => hchild child

/-- The conversions of a run are those of the nodes on the levels up to the one after the limit, in
    pre-order. -/
theorem Backend.HandlesNothing.visitsOf (h : backend.HandlesNothing job)
    (hstrict : job.settings.unknownNodes = .strict) (root : Node κ) :
    (backend.visitsOf job root).map (fun v => (job.settings.depthLimit + 1 - v.left, v.node))
      = (root.preorderFrom 1).filter (·.1 ≤ job.settings.depthLimit + 1) := by
  rw [← walk_unknownSteps backend.initial root]
  have hvisits := backend.visits_eq_walk job (h.follows hstrict) job.settings.depthLimit root
    { contexts := { root := backend.initial } }
  refine Eq.trans ?_ (congrArg (List.map _) hvisits)
  rw [List.map_map, Backend.visitsOf]
  rfl

end

/-! ### A whole run -/

section

variable [Named κ]

/-- If nobody handles any node, a strict run converts the nodes on the levels up to the one after
    the limit, each once and in pre-order, and hands those within the limit to the backend.  It
    reports these as unsupported and those right after the limit as nested too deep, in the same
    order, and nothing else. -/
theorem unhandled_by_level (backend : Backend κ C) (job : Job) (root : Node κ)
    (hhandler : ∀ n, backend.handler job n = pure none)
    (hfallback : ∀ n, backend.fallback job n = pure none)
    (hstrict : job.settings.unknownNodes = .strict) :
    ∃ outcome, backend.convertRoot job root = .ok outcome
      ∧ outcome.stats.visited
        = (root.preorderFrom 1).countP (·.1 ≤ job.settings.depthLimit)
      ∧ outcome.diagnostics = (root.preorderFrom 1).filterMap (reportOn job)
      ∧ (backend.visitsOf job root).map (fun v => (job.settings.depthLimit + 1 - v.left, v.node))
        = (root.preorderFrom 1).filter (·.1 ≤ job.settings.depthLimit + 1) := by
  have h : backend.HandlesNothing job := ⟨hhandler, hfallback⟩
  have hstate := h.state_convert hstrict rfl root { contexts := { root := backend.initial } }
  have hdepth := congrArg (·.contexts.depth) hstate
  refine ⟨_, if_pos hdepth, ?_, ?_, h.visitsOf hstrict root⟩
  · exact (congrArg State.visited hstate).trans (Nat.zero_add _)
  · exact congrArg State.diagnostics hstate

/-- A backend that has nothing of its own. -/
def Backend.bare : Backend κ Unit where
  initial := ()
  handler _ _ := pure none

/-- A tree of three levels under a limit of two: the words are refused, and nothing else is. -/
theorem unhandled_by_level_two :
    let words : List (Node String) := [⟨"Word", 2, 2, 3, []⟩, ⟨"Word", 4, 5, 6, []⟩]
    let root : Node String := ⟨"Call", 0, 0, 7, [⟨"List", 1, 1, 7, words⟩, ⟨"End", 7, 7, 7, []⟩]⟩
    ∃ outcome, Backend.bare.convertRoot ⟨"f(a, b)", ⟨.strict, 2, .recursive⟩⟩ root = .ok outcome
      ∧ outcome.stats.visited = 3
      ∧ outcome.diagnostics.map (fun d => (d.kind, d.start, d.stop))
        = [("Call", 0, 7), ("List", 1, 7), ("Word", 2, 3), ("Word", 5, 6), ("End", 7, 7)] := by
  intro words root
  obtain ⟨outcome, hrun, hvisited, hdiagnostics, -⟩ := unhandled_by_level Backend.bare
    ⟨"f(a, b)", ⟨.strict, 2, .recursive⟩⟩ root (fun _ => rfl) (fun _ => rfl) rfl
  refine ⟨outcome, hrun, hvisited.trans (by decide), ?_⟩
  rw [hdiagnostics]
  decide

end

end Transcode.Engine
