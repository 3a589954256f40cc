import Transcode.Proofs.CommentsCarried
import Transcode.Proofs.Statements
import Transcode.Proofs.Steps

namespace Transcode.Target

open Output Engine Script

/-!
# What is reported

Two things in a script cannot be written in Python: a loop, and a `return` outside of functions.
`findings` lists them in pre-order, without a word about handlers; below a loop there is nothing
more to find, because it is left as it stands.  The diagnostics of a run are these and no others
(`diagnostics_eq_findings`), provided that conversions nest within the limit and that unknown nodes
are passed over.
-/

/-! ### Findings -/

mutual

/-- The nodes of a tree in pre-order, without those below loops.  With each comes whether it is
    inside a function, given whether the root is. -/
def outsideLoops (inFunction : Bool) : Ast → List (Bool × Ast)
  | ⟨kind, fullStart, start, stop, children⟩ =>
    (inFunction, ⟨kind, fullStart, start, stop, children⟩)
      :: if kind = .whileStatement then []
        else outsideLoopsAll (inFunction || kind = .functionDeclaration) children

/-- The nodes of some trees. -/
def outsideLoopsAll (inFunction : Bool) : List Ast → List (Bool × Ast)
  | [] => []
  | n :: rest => outsideLoops inFunction n ++ outsideLoopsAll inFunction rest

end

/-- What there is to say about a node: a loop is not supported, and a `return` belongs inside a
    function. -/
def complaint? (inFunction : Bool) (n : Ast) : Option Diagnostic :=
  match n.kind with
  | .whileStatement => some (unsupported n)
  | .returnStatement => if inFunction then none else some (strayReturn n)
  | _ => none

/-- What there is to say about a tree. -/
def findings (inFunction : Bool) (n : Ast) : List Diagnostic :=
  (outsideLoops inFunction n).filterMap fun found => complaint? found.1 found.2

/-- What there is to say about some parts. -/
def findingsIn (parts : List Part) : List Diagnostic :=
  parts.flatMap fun p => findings p.context.inFunction p.node

section

variable {source : String} {root n : Ast} {job : Job} {c : Context} {ns : List Ast}
  {parts parts' : List Part} {inFunction : Bool} {left : Nat}

theorem filterMap_outsideLoopsAll {f : Bool × Ast → Option Diagnostic} :
    (outsideLoopsAll inFunction ns).filterMap f
      = ns.flatMap fun n => (outsideLoops inFunction n).filterMap f := by
  induction ns with
  | nil => rfl
  | cons n ns ih => rw [outsideLoopsAll, List.filterMap_append, ih, List.flatMap_cons]

/-- What there is to say about a tree is about its root, and then about the trees below it. -/
theorem findings_eq (inFunction : Bool) (n : Ast) :
    findings inFunction n = (complaint? inFunction n).toList
      ++ if n.kind = .whileStatement then []
        else n.children.flatMap (findings (inFunction || n.kind = .functionDeclaration)) := by
  obtain ⟨kind, fullStart, start, stop, children⟩ := n
  have hbelow : (if kind = .whileStatement then []
      else outsideLoopsAll (inFunction || kind = .functionDeclaration) children).filterMap
        (fun found => complaint? found.1 found.2)
      = if kind = .whileStatement then []
        else children.flatMap (findings (inFunction || kind = .functionDeclaration)) := by
    split
    · rfl
    · exact filterMap_outsideLoopsAll
  rw [findings, outsideLoops, List.filterMap_cons, hbelow]
  cases complaint? inFunction ⟨kind, fullStart, start, stop, children⟩ <;> rfl

/-- A node of most kinds is nothing to speak of itself. -/
theorem findings_eq_flatMap (hwhile : n.kind ≠ .whileStatement)
    (hreturn : n.kind ≠ .returnStatement) (hfunction : n.kind ≠ .functionDeclaration) :
    findings inFunction n = n.children.flatMap (findings inFunction) := by
  have hnone : complaint? inFunction n = none := by
    rw [complaint?]
    split
    · exact absurd ‹_› hwhile
    · exact absurd ‹_› hreturn
    · rfl
  rw [findings_eq, hnone, if_neg hwhile, decide_eq_false hfunction, Bool.or_false]
  rfl

/-- There is nothing to say about an expression. -/
theorem findings_of_inner (h : Inner n) : findings inFunction n = [] := by
  induction n using Node.induction with
  | h n ih =>
    have hkind := h.isStatement
    rw [findings_eq_flatMap, List.flatMap_eq_nil_iff]
    · exact fun child hchild => ih child hchild (h.of_mem_children hchild)
    all_goals
      intro heq
      rw [heq] at hkind
      cases hkind

/-! ### Parts -/

theorem findingsIn_append : findingsIn (parts ++ parts') = findingsIn parts ++ findingsIn parts' :=
  List.flatMap_append

theorem findingsIn_partsUnder :
    findingsIn (partsUnder c ns) = ns.flatMap (findings c.inFunction) := by
  rw [findingsIn, partsUnder, List.flatMap_map]

/-- What is said about a suite is said about the statement that it is made of. -/
theorem findingsIn_suiteParts {s : Ast} :
    findingsIn (suiteParts c s) = findings c.inFunction s := by
  rw [suiteParts, findingsIn_partsUnder]
  by_cases hkind : s.kind = .block
  · rw [if_pos hkind, findings_eq_flatMap]
    all_goals
      intro hother
      cases hkind.symm.trans hother
  · rw [if_neg hkind, List.flatMap_singleton]

/-- The clauses after an `else if` count as part of the statement. -/
theorem findingsIn_ifParts (source : String) (hc : c.keywordArgs = false) (hform : WellFormed n)
    (hkind : n.kind = .ifStatement) (hparts : ifParts c n = some parts) :
    findingsIn parts = findings c.inFunction n := by
  induction n using ifParts.induct c generalizing parts with
  | case1 kind fullStart start stop condition branch =>
    obtain rfl : kind = .ifStatement := hkind
    obtain rfl := Option.some.inj hparts
    have hnode : findings c.inFunction
          ⟨.ifStatement, fullStart, start, stop, [condition, branch]⟩
        = [condition, branch].flatMap (findings c.inFunction) :=
      findings_eq_flatMap (by simp) (by simp) (by simp)
    rw [hnode, findingsIn_append, findingsIn_partsUnder, findingsIn_suiteParts]
    simp
  | case2 kind fullStart start stop condition branch otherwise rest ih =>
    obtain rfl : kind = .ifStatement := hkind
    obtain rfl : rest = [] := by
      cases hform _ (Node.self_mem_preorder _) with
      | ifElse h => rfl
    obtain rfl := Option.some.inj hparts
    have hform' : WellFormed otherwise := hform.of_mem_children (by simp)
    have hlater : findingsIn (if otherwise.kind = .ifStatement then (ifParts c otherwise).getD []
        else suiteParts c otherwise) = findings c.inFunction otherwise := by
      by_cases hkind : otherwise.kind = .ifStatement
      · obtain ⟨parts, hclause, -⟩ : ∃ parts, ifParts c otherwise = some parts
            ∧ Covers source otherwise.children (spoken otherwise) parts :=
          exists_ifParts hc hform' hkind
        rw [if_pos hkind, hclause]
        exact ih hform' hkind hclause
      · rw [if_neg hkind, findingsIn_suiteParts]
    have hnode : findings c.inFunction
          ⟨.ifStatement, fullStart, start, stop, [condition, branch, otherwise]⟩
        = [condition, branch, otherwise].flatMap (findings c.inFunction) :=
      findings_eq_flatMap (by simp) (by simp) (by simp)
    rw [hnode, findingsIn_append, findingsIn_append, hlater, findingsIn_partsUnder,
      findingsIn_suiteParts]
    simp
  | case3 n htwo hthree =>
    rw [ifParts] at hparts
    · cases hparts
    · exact htwo
    · exact hthree

/-- What is said about the parts of a statement other than a `return` and a function is said about
    the statement. -/
theorem findingsIn_partsOf (hparse : parse source = .ok root) (hn : n ∈ root.preorder)
    (hc : c.keywordArgs = false) (hstatement : n.kind.isStatement = true)
    (hwhile : n.kind ≠ .whileStatement) (hreturn : n.kind ≠ .returnStatement)
    (hfunction : n.kind ≠ .functionDeclaration) (hparts : partsOf source c n = some parts) :
    findingsIn parts = findings c.inFunction n := by
  have hform : WellFormed n := Node.forall_preorder_of_mem (wellFormed_of_parse hparse) hn
  have hchildren : ∀ {ns}, n.children = ns → some (partsUnder c ns) = some parts →
      findingsIn parts = findings c.inFunction n := by
    rintro ns rfl hparts
    obtain rfl := Option.some.inj hparts
    rw [findingsIn_partsUnder, findings_eq_flatMap hwhile hreturn hfunction]
  -- That the tree was parsed rules out the numbers of children for which the handler has no parts
  -- but the node has findings below it.
  have hroot : Form n.kind n.children := hform n n.self_mem_preorder
  cases hkind : n.kind with
  | sourceFile | block | variableStatement =>
    rw [partsOf, hkind] at hparts
    exact hchildren rfl hparts
  | expressionStatement =>
    obtain ⟨e, he⟩ : ∃ e, n.children = [e] := by
      generalize n.children = ns at hroot ⊢
      rw [hkind] at hroot
      cases hroot with
      | leaf h => cases h
      | expressionStatement => exact ⟨_, rfl⟩
    rw [partsOf, hkind, he] at hparts
    exact hchildren he hparts
  | ifStatement =>
    rw [partsOf, hkind] at hparts
    exact findingsIn_ifParts source hc hform hkind hparts
  | emptyStatement =>
    have hnone : n.children = [] := by
      generalize n.children = ns at hroot ⊢
      rw [hkind] at hroot
      cases hroot with
      | leaf => rfl
    rw [partsOf, hkind] at hparts
    exact hchildren hnone hparts
  | whileStatement => exact absurd hkind hwhile
  | returnStatement => exact absurd hkind hreturn
  | functionDeclaration => exact absurd hkind hfunction
  | _ =>
    rw [hkind] at hstatement
    cases hstatement

/-- The parts of an expression are expressions. -/
theorem findingsIn_of_inner (hparse : parse source = .ok root) (hn : n ∈ root.preorder)
    (hinner : Inner n) (hparts : partsOf source c n = some parts) : findingsIn parts = [] := by
  have hnests := Node.forall_preorder_of_mem (nests_of_parse hparse) hn
  rw [findingsIn, List.flatMap_eq_nil_iff]
  intro p hp
  have hmem := mem_preorder_of_mem_partsOf hnests hparts hp
  exact findings_of_inner (Node.forall_preorder_of_mem hinner hmem)

/-! ### Steps -/

theorem flatMap_conversions {f : Context → Ast → List Diagnostic} :
    (conversions parts).flatMap (Step.diagnostics f)
      = parts.flatMap fun p => f p.context p.node := by
  rw [conversions, List.flatMap_map]
  rfl

/-- A node other than a loop has parts, each a node that stands on its own. -/
theorem exists_parts (hparse : parse source = .ok root) (hn : n ∈ root.preorder)
    (hoperator : ∀ t, n.kind ≠ .operator t) (hadmits : Admits c n.kind)
    (hwhile : n.kind ≠ .whileStatement) :
    ∃ parts, partsOf source c n = some parts
      ∧ ∀ p ∈ parts, p.node.kind.isWhole = true ∧ Admits p.context p.node.kind := by
  -- Where nothing comes out there are no parts, and elsewhere the parts are all there is.
  by_cases hempty : n.kind = .emptyStatement
  · exact ⟨[], by rw [partsOf, hempty], List.forall_mem_nil _⟩
  by_cases hblock : n.kind = .block ∧ n.children = []
  · exact ⟨[], by rw [partsOf, hblock.1, hblock.2]; rfl, List.forall_mem_nil _⟩
  · have hform : WellFormed n := Node.forall_preorder_of_mem (wellFormed_of_parse hparse) hn
    have hlasting : Lasting source n :=
      ⟨hwhile, hempty, fun hkind hnone => hblock ⟨hkind, hnone⟩, isEmpty_textIn hparse hn⟩
    obtain ⟨parts, hparts, hfull⟩ := exists_full hform hlasting hoperator hadmits
    exact ⟨parts, hparts, hfull.admits⟩

/-- What is said in the steps of a `return` is said about it: its value is an expression. -/
theorem flatMap_handledSteps_return (hparse : parse source = .ok root) (hn : n ∈ root.preorder)
    (hkind : n.kind = .returnStatement) (hparts : partsOf source c n = some parts) :
    (handledSteps c n parts).flatMap (Step.diagnostics fun c n => findings c.inFunction n)
      = findings c.inFunction n := by
  have hplain : ∀ m ∈ n.children, Inner m := by
    have horderly := orderly_of_parse hparse n hn
    rwa [Orderly, plainChildren, hkind] at horderly
  have hvalue : (conversions parts).flatMap
      (Step.diagnostics fun c n => findings c.inFunction n) = [] := by
    rw [partsOf, hkind] at hparts
    obtain rfl := Option.some.inj hparts
    rw [flatMap_conversions]
    refine findingsIn_partsUnder.trans (List.flatMap_eq_nil_iff.mpr fun m hm => ?_)
    exact findings_of_inner (hplain m (List.mem_of_mem_take hm))
  have hchildren : ∀ inFunction, n.children.flatMap (findings inFunction) = [] := fun _ =>
    List.flatMap_eq_nil_iff.mpr fun m hm => findings_of_inner (hplain m hm)
  have hwhile : Kind.returnStatement ≠ .whileStatement := by decide
  rw [findings_eq, hkind, if_neg hwhile, hchildren, complaint?, handledSteps, hkind]
  cases c.inFunction with
  | true => exact hvalue
  | false => exact congrArg (strayReturn n :: ·) hvalue

/-- What is said in the steps of a function is said about its body. -/
theorem flatMap_handledSteps_function (hparse : parse source = .ok root) (hn : n ∈ root.preorder)
    (hkind : n.kind = .functionDeclaration) (hparts : partsOf source c n = some parts) :
    (handledSteps c n parts).flatMap (Step.diagnostics fun c n => findings c.inFunction n)
      = findings c.inFunction n := by
  obtain ⟨name, ns, body, hchildren, -, -⟩ := (wellFormed_of_parse hparse n hn).of_function hkind
  have hplain : ∀ m ∈ name :: ns, Inner m := by
    have horderly := orderly_of_parse hparse n hn
    rwa [Orderly, plainChildren, hkind, hchildren, List.dropLast_concat] at horderly
  obtain ⟨hname, hns⟩ := List.forall_mem_cons.mp hplain
  have hnone : ∀ inFunction, ns.flatMap (findings inFunction) = [] := fun _ =>
    List.flatMap_eq_nil_iff.mpr fun m hm => findings_of_inner (hns m hm)
  rw [partsOf, hkind, hchildren] at hparts
  obtain rfl := Option.some.inj ((functionParts_concat name ns body).symm.trans hparts)
  have hsuite : findingsIn (suiteParts (c.merge .body) body) = findings true body := by
    rw [findingsIn_suiteParts]
    exact congrArg (findings · body) (Bool.or_true _)
  -- The name and the parameters come to nothing, so that it does not matter where they stand.
  have hlater : (conversions (partsUnder c ns ++ suiteParts (c.merge .body) body)).flatMap
      (Step.diagnostics fun c n => findings c.inFunction n) = findings true body := by
    refine flatMap_conversions.trans (findingsIn_append.trans ?_)
    rw [findingsIn_partsUnder, hnone, hsuite]
    rfl
  have hfirst : (conversions (partsUnder c [name])).flatMap
      (Step.diagnostics fun c n => findings c.inFunction n) = [] := by
    refine flatMap_conversions.trans (findingsIn_partsUnder.trans ?_)
    rw [List.flatMap_singleton, findings_of_inner hname]
  have hall : (name :: ns ++ [body]).flatMap (findings true) = findings true body := by
    rw [List.flatMap_append, List.flatMap_cons, findings_of_inner hname, hnone,
      List.flatMap_singleton]
    rfl
  have hkinds : Kind.functionDeclaration ≠ .whileStatement := by decide
  rw [findings_eq, complaint?, handledSteps, hkind, if_neg hkinds, hchildren, decide_eq_true rfl,
    Bool.or_true, hall, List.flatMap_append]
  show (conversions (partsUnder c ns ++ suiteParts (c.merge .body) body)).flatMap _
    ++ (conversions (partsUnder c [name])).flatMap _ = findings true body
  rw [hlater, hfirst, List.append_nil]

/-- What is said in the steps of a node that its handler takes is said about the node. -/
theorem flatMap_handledSteps (hparse : parse source = .ok root) (hn : n ∈ root.preorder)
    (hadmits : Admits c n.kind) (hwhile : n.kind ≠ .whileStatement)
    (hparts : partsOf source c n = some parts) :
    (handledSteps c n parts).flatMap (Step.diagnostics fun c n => findings c.inFunction n)
      = findings c.inFunction n := by
  by_cases hreturn : n.kind = .returnStatement
  · exact flatMap_handledSteps_return hparse hn hreturn hparts
  by_cases hfunction : n.kind = .functionDeclaration
  · exact flatMap_handledSteps_function hparse hn hfunction hparts
  have hsteps : handledSteps c n parts = conversions parts := by
    rw [handledSteps]
    split
    · exact absurd ‹_› hreturn
    · exact absurd ‹_› hfunction
    · rfl
  rw [hsteps, flatMap_conversions]
  cases hstatement : n.kind.isStatement with
  | false =>
    have hinner := inner_of_parse hparse hn hstatement
    rw [findings_of_inner hinner]
    exact findingsIn_of_inner hparse hn hinner hparts
  | true =>
    have hc : c.keywordArgs = false := by
      refine hadmits.keywordArgs ?_ ?_
      all_goals
        intro hkind
        rw [hkind] at hstatement
        cases hstatement
    exact findingsIn_partsOf hparse hn hc hstatement hwhile hreturn hfunction hparts

/-! ### Runs -/

/-- What the steps of a node lead to is what there is to say about it, if they nest within the
    limit. -/
theorem complaints_eq_findings (hparse : parse source = .ok root)
    (hsource : job.source = source) (hpolicy : job.settings.unknownNodes = .bestEffort)
    (hn : n ∈ root.preorder) (hoperator : ∀ t, n.kind ≠ .operator t) (hadmits : Admits c n.kind)
    (hwithin : ∀ v ∈ Backend.walk (stepsOf job) left c n, v.1 ≠ 0) :
    Backend.complaints job (stepsOf job) left c n = findings c.inFunction n := by
  subst hsource
  induction left generalizing c n with
  | zero => exact absurd rfl (hwithin _ List.mem_cons_self)
  | succ left ih =>
    obtain ⟨-, hbelow⟩ := List.forall_mem_cons.mp hwithin
    rw [Backend.complaints, stepsOf]
    rw [stepsOf] at hbelow
    -- A loop has no parts: it is reported whole, and nothing below it is converted.
    by_cases hwhile : n.kind = .whileStatement
    · have hnone : partsOf job.source c n = none := by rw [partsOf, hwhile]
      rw [hnone, findings_eq, complaint?, hwhile, if_pos rfl]
      simp only [unknownParts, hpolicy]
      rfl
    · obtain ⟨parts, hparts, hwhole⟩ := exists_parts hparse hn hoperator hadmits hwhile
      have hnests := Node.forall_preorder_of_mem (nests_of_parse hparse) hn
      rw [hparts] at hbelow ⊢
      rw [← flatMap_handledSteps hparse hn hadmits hwhile hparts]
      refine List.flatMap_congr fun step hstep => ?_
      cases step with
      | report entry => rfl
      | convert c' m =>
        obtain ⟨p, hp, rfl, rfl⟩ := mem_handledSteps.mp hstep
        obtain ⟨hkind, hadmits'⟩ := hwhole p hp
        have hmem := mem_preorder_of_mem_partsOf hnests hparts hp
        refine ih (Node.mem_preorder_trans hn hmem) (fun t ht => ?_) hadmits'
          fun v hv => hbelow v (List.mem_flatMap.mpr ⟨_, hstep, hv⟩)
        rw [ht] at hkind
        cases hkind

/-- What there is to say is about a loop or a `return`, and at its place. -/
theorem complaint?_eq_some {d : Diagnostic} (h : complaint? inFunction n = some d) :
    d.start = n.start ∧ (n.kind = .whileStatement ∨ n.kind = .returnStatement) := by
  rw [complaint?] at h
  split at h
  · rename_i hkind
    cases h
    exact ⟨rfl, .inl hkind⟩
  · rename_i hkind
    split at h
    · cases h
    · cases h
      exact ⟨rfl, .inr hkind⟩
  · cases h

/-- Nothing more is said below a loop or a `return`. -/
theorem findings_of_complaint {d : Diagnostic} (hparse : parse source = .ok root)
    (hn : n ∈ root.preorder) (h : complaint? inFunction n = some d) :
    findings inFunction n = [d] := by
  obtain ⟨-, hkind⟩ := complaint?_eq_some h
  rw [findings_eq, h]
  by_cases hwhile : n.kind = .whileStatement
  · rw [if_pos hwhile]
    rfl
  · have hplain : ∀ m ∈ n.children, Inner m := by
      have horderly := orderly_of_parse hparse n hn
      rwa [Orderly, plainChildren, hkind.resolve_left hwhile] at horderly
    rw [if_neg hwhile, List.flatMap_eq_nil_iff.mpr fun m hm => findings_of_inner (hplain m hm)]
    rfl

/-- Findings come in the order of the source, each at a place of its own inside the tree. -/
theorem findings_in_order (hparse : parse source = .ok root) (hn : n ∈ root.preorder) :
    (∀ d ∈ findings inFunction n, n.start ≤ d.start ∧ d.start < n.stop)
      ∧ (findings inFunction n).Pairwise fun d e => d.start < e.start := by
  induction n using Node.induction generalizing inFunction with
  | h n ih =>
    have hnests := nests_of_parse hparse n hn
    have hmem : ∀ child ∈ n.children, child ∈ root.preorder := fun child hchild =>
      Node.mem_preorder_child hn hchild
    -- What is below the root of the tree is inside the children, which stand apart.
    have hbelow : ∀ inFunction,
        (∀ d ∈ n.children.flatMap (findings inFunction), n.start ≤ d.start ∧ d.start < n.stop)
          ∧ (n.children.flatMap (findings inFunction)).Pairwise fun d e => d.start < e.start := by
      intro inFunction
      refine ⟨fun d hd => ?_, List.pairwise_flatMap.mpr ⟨fun child hchild => ?_, ?_⟩⟩
      · obtain ⟨child, hchild, hd⟩ := List.mem_flatMap.mp hd
        have hplace := (ih child hchild (hmem child hchild)).1 d hd
        have hinside := hnests.inside child hchild
        omega
      · exact (ih child hchild (hmem child hchild)).2
      · refine hnests.apart.imp_of_mem fun ha hb hapart d hd e he => ?_
        have hd := (ih _ ha (hmem _ ha)).1 d hd
        have he := (ih _ hb (hmem _ hb)).1 e he
        have hfull := (nests_of_parse hparse _ (hmem _ hb)).fullStart_le
        omega
    cases hfound : complaint? inFunction n with
    | none =>
      rw [findings_eq, hfound]
      split
      · exact ⟨List.forall_mem_nil _, .nil⟩
      · exact hbelow _
    | some d =>
      obtain ⟨hstart, hkind⟩ := complaint?_eq_some hfound
      have hsolid : n.start < n.stop := by
        obtain ⟨v, hv, hn⟩ := below_of_parse hparse hn (by rcases hkind with h | h <;> simp [h])
        exact (bounds_of_parse hparse v hv n hn).1
      rw [findings_of_complaint hparse hn hfound]
      exact ⟨List.forall_mem_singleton.mpr (by omega), List.pairwise_singleton _ _⟩

/-- The code of a source that parses is its output, rendered. -/
theorem toPython_of_parse {settings : Settings} {outcome : Outcome} (h : parse source = .ok root)
    (houtcome : convertTree source settings root = .ok outcome) :
    toPython source settings
      = .ok ⟨renderWith settings.strategy outcome.tree, outcome.diagnostics⟩ := by
  rw [toPython, h]
  show ((convertTree source settings root).mapError Failure.engine).bind _ = _
  rw [houtcome]
  rfl

/-- **What is reported.**  If a source parses and its conversions nest within the limit, then its
    conversion succeeds, and the diagnostics are one for each loop and each `return` outside of
    functions, in the order of the tree and without those inside of loops. -/
theorem diagnostics_eq_findings (h : parse source = .ok root) (settings : Settings)
    (hpolicy : settings.unknownNodes = .bestEffort)
    (hwithin : backend.NestsWithin { source, settings } root) :
    ∃ conversion, toPython source settings = .ok conversion
      ∧ conversion.diagnostics = findings false root
      ∧ conversion.diagnostics.Pairwise fun d e => d.start < e.start := by
  obtain ⟨outcome, houtcome, hdiagnostics⟩ := backend.diagnostics_convertRoot
    { source, settings } (fun c n => follows_dispatch) (fun span => trivial) root
  have hwalk : ∀ v ∈ Backend.walk (stepsOf { source, settings }) settings.depthLimit
      backend.initial root, v.1 ≠ 0 := by
    have hvisits := backend.visits_eq_walk { source, settings } (fun c n => follows_dispatch)
      settings.depthLimit root { contexts := { root := backend.initial } }
    intro v hv
    obtain ⟨visit, hvisit, rfl⟩ := List.mem_map.mp (hvisits ▸ hv)
    exact hwithin visit hvisit
  have hoperator : ∀ t, root.kind ≠ .operator t := by
    obtain ⟨lexemes, ss, -, -, rfl⟩ := parse_eq_ok.mp h
    exact nofun
  have hfindings := hdiagnostics.trans
    (complaints_eq_findings h rfl hpolicy root.self_mem_preorder hoperator nofun hwalk)
  refine ⟨_, toPython_of_parse h houtcome, hfindings, ?_⟩
  exact hfindings ▸ (findings_in_order h root.self_mem_preorder).2

/-- A `return` in the branch of an `else if` inside a function, a loop with one in it, and one at
    the end. -/
theorem diagnostics_eq_findings_loop :
    ∃ root conversion,
      parse "function f(){if(a)b;else if(c){return 1}}while(x)return 2;return 3" = .ok root
        ∧ toPython "function f(){if(a)b;else if(c){return 1}}while(x)return 2;return 3"
          = .ok conversion
        ∧ conversion.diagnostics = findings false root
        ∧ (conversion.diagnostics.Pairwise fun d e => d.start < e.start)
        ∧ conversion.diagnostics.map (fun d => (d.kind, d.start, d.stop))
          = [("WhileStatement", 41, 58), ("ReturnStatement", 58, 66)] := by
  have hrun :
      (parse "function f(){if(a)b;else if(c){return 1}}while(x)return 2;return 3").toOption.map
      (fun root => (decide (backend.NestsWithin
        { source := "function f(){if(a)b;else if(c){return 1}}while(x)return 2;return 3" } root),
          (findings false root).map fun d => (d.kind, d.start, d.stop)))
      = some (true, [("WhileStatement", 41, 58), ("ReturnStatement", 58, 66)]) := by
    decide +kernel
  obtain ⟨root, hroot, hrun⟩ := Option.map_eq_some_iff.mp hrun
  simp only [Prod.mk.injEq, decide_eq_true_eq] at hrun
  obtain ⟨hwithin, hplaces⟩ := hrun
  have hroot := eq_ok_of_toOption hroot
  obtain ⟨conversion, hconversion, hdiagnostics, horder⟩ :=
    diagnostics_eq_findings hroot {} rfl hwithin
  exact ⟨root, conversion, hroot, hconversion, hdiagnostics, horder, hdiagnostics ▸ hplaces⟩

end

end Transcode.Target
