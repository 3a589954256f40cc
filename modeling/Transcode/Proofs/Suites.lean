import Transcode.Proofs.Indentation

namespace Transcode.Target

open Text Output Engine Script

/-!
# Sources come out indented

In a source without comments, outputs are what handlers make of their nodes, and hold no keys.  So
what is known of the outputs below a node (`Known`) is known of its own output (`known_succ`), and
by induction on the levels of conversions the code of every source without comments and loops is
laid out as `StatementsAt` says (`code_is_indented`).
-/

/-- What is known of the outputs with so many levels left. -/
def Known (job : Job) (root : Ast) (left : Nat) : Prop :=
  ∀ c m t, c.keywordArgs = false → m ∈ root.preorder → m.kind.isWhole = true →
    backend.output? job (fun _ => none) left c m = some t → Standing job c m t

/-! ### Statements where they stand -/

/-- A statement below the root of a tree. -/
structure Stands (root n : Ast) : Prop where
  mem : n ∈ root.preorder
  isWhole : n.kind.isWhole = true
  isStatement : n.kind.isStatement = true

section

variable {source : String} {settings : Settings} {root n s : Ast} {c : Context} {left : Nat}
  (hparse : parse source = .ok root)

include hparse

/-- The statements of a suite. -/
theorem stands_statementsOf (h : Stands root s) : ∀ m ∈ statementsOf s, Stands root m := by
  rw [statementsOf]
  split
  · rename_i hkind
    have hwhole := (wellFormed_of_parse hparse s h.mem).of_block hkind
    have hstaffed := staffed_of_parse hparse s h.mem
    rw [Staffed, statementsIn, hkind] at hstaffed
    exact fun m hm => ⟨Node.mem_preorder_child h.mem hm, hwhole m hm, hstaffed m hm⟩
  · exact List.forall_mem_singleton.mpr h

theorem ensures_isSuite_of_known (hknown : Known { source, settings } root left)
    (hc : c.keywordArgs = false) (h : Stands root s) :
    (suite { source, settings } s).Ensures backend.merge
      (backend.Answers { source, settings }
        fun c m t => backend.output? { source, settings } (fun _ => none) left c m = some t) c
      (IsSuite { source, settings } c s) := by
  have hstands := stands_statementsOf hparse h
  exact ensures_isSuite (fun m hm => (hstands m hm).isStatement)
    fun m hm t ht => hknown c m t hc (hstands m hm).mem (hstands m hm).isWhole ht

omit hparse in
/-- What some statements become, laid out. -/
theorem statementsAt_of_known (hknown : Known { source, settings } root left)
    (hc : c.keywordArgs = false) {ms : List Ast} {ts : List Tree}
    (hms : ∀ m ∈ ms, Stands root m) (hts : List.Forall₂ (fun m t =>
      backend.output? { source, settings } (fun _ => none) left c m = some t) ms ts) (d : Nat) :
    StatementsAt { source, settings } d c ms (codeAt d (laid source none (ms.zip ts))) := by
  have hstanding : ∀ p ∈ ms.zip ts, Standing { source, settings } c p.1 p.2 := by
    rintro ⟨m, t⟩ hp
    have hm := hms m (List.of_mem_zip hp).1
    exact hknown c m t hc hm.mem hm.isWhole (List.forall₂_zip hts hp)
  have hstatements : StatementsAt { source, settings } d c ((ms.zip ts).map Prod.fst)
      (codeAt d (laid source none (ms.zip ts))) :=
    statementsAt_laid (fun p hp => (hms p.1 (List.of_mem_zip hp).1).isStatement) hstanding d
  rwa [List.map_fst_zip (Nat.le_of_eq hts.length_eq)] at hstatements

/-- What the clauses of a conditional statement become. -/
theorem ensures_isClause (hknown : Known { source, settings } root left)
    (hc : c.keywordArgs = false) {keyword : String} (hbreak : '\n' ∉ keyword.toList)
    (hkeyword : BeginsWithInk keyword) (hn : n ∈ root.preorder) (hkind : n.kind = .ifStatement) :
    (ifClause { source, settings } keyword n).Ensures backend.merge
      (backend.Answers { source, settings }
        fun c m t => backend.output? { source, settings } (fun _ => none) left c m = some t) c
      fun o => ∃ fs, o = some (.ofFragments fs) ∧ IsClause { source, settings } c keyword n fs := by
  have hform := wellFormed_of_parse hparse n hn
  have hstaffed := staffed_of_parse hparse n hn
  have horderly := orderly_of_parse hparse n hn
  have hmem : ∀ m ∈ n.children, m ∈ root.preorder := fun m hm =>
    Node.mem_preorder_child hn hm
  induction keyword, n using ifClause.induct with
  | case2 n keyword hnone =>
    obtain ⟨kind, fullStart, start, stop, children⟩ := n
    obtain rfl : kind = .ifStatement := hkind
    cases hform with
    | leaf h => cases h
    | ifThen | ifElse => exact (hnone _ _ _ _ _ _ _ rfl).elim
  | case1 keyword kind fullStart start stop e s rest ih =>
    obtain rfl : kind = .ifStatement := hkind
    have hwhole : Whole (e :: s :: rest) := by
      cases hform with
      | ifThen h => exact h
      | ifElse h => exact h
    obtain ⟨he, hbranches⟩ := List.forall_mem_cons.mp hwhole
    have hinner : e.kind.isStatement = false := (horderly e List.mem_cons_self).isStatement
    have hstands : ∀ m ∈ s :: rest, Stands root m := fun m hm =>
      ⟨hmem m (List.mem_cons_of_mem _ hm), hbranches m hm, hstaffed m hm⟩
    rw [ifClause]
    refine Program.ensures_bind.mpr (ensures_convertNode.mpr fun t ht => ?_)
    have hcondition := hknown c e t hc (hmem e List.mem_cons_self) he ht
    have hopens := hcondition.opens hinner
    refine Program.ensures_bind.mpr
      ((ensures_isSuite_of_known hparse hknown hc (hstands s List.mem_cons_self)).mono
        fun b hb => ?_)
    cases rest with
    | nil => exact ⟨_, rfl, isClause_ifThen hbreak hkeyword hcondition hopens hb rfl rfl⟩
    | cons s' rest =>
      obtain rfl : rest = [] := by cases hform with | ifElse => rfl
      have hs' := hstands s' (List.mem_cons_of_mem _ List.mem_cons_self)
      -- Another `if` as the last branch is a clause of this statement.
      by_cases hkind : s'.kind = .ifStatement
      · simp only [if_pos hkind]
        refine Program.ensures_bind.mpr ((ih (by decide) ⟨_, _, rfl, rfl⟩ hs'.mem hkind
          (wellFormed_of_parse hparse s' hs'.mem) (staffed_of_parse hparse s' hs'.mem)
          (orderly_of_parse hparse s' hs'.mem)
          fun m hm => Node.mem_preorder_child hs'.mem hm).mono ?_)
        rintro _ ⟨fs, rfl, hfs⟩
        exact ⟨_, rfl, isClause_elseIf hbreak hkeyword hcondition hopens hb rfl rfl hkind hfs⟩
      · simp only [if_neg hkind]
        refine Program.ensures_bind.mpr
          ((ensures_isSuite_of_known hparse hknown hc hs').mono fun b' hb' => ?_)
        exact ⟨_, rfl, isClause_ifElse hbreak hkeyword hcondition hopens hb rfl rfl hkind hb'⟩

/-- What a function becomes. -/
theorem ensures_function_code (hknown : Known { source, settings } root left)
    (hc : c.keywordArgs = false) (hn : n ∈ root.preorder) (hkind : n.kind = .functionDeclaration) :
    (function { source, settings } n.children).Ensures backend.merge
      (backend.Answers { source, settings }
        fun c m t => backend.output? { source, settings } (fun _ => none) left c m = some t) c
      fun o => ∃ t, o = some t ∧ ∀ d, StatementAt { source, settings } d c n
        (codeAt d [t.toFragment]) := by
  obtain ⟨name, params, body, hchildren, hwhole, hblock⟩ :=
    (wellFormed_of_parse hparse n hn).of_function hkind
  have horderly := orderly_of_parse hparse n hn
  have hstaffed := staffed_of_parse hparse n hn
  have hmem : ∀ m ∈ n.children, m ∈ root.preorder := fun m hm =>
    Node.mem_preorder_child hn hm
  rw [Orderly, plainChildren, hkind, hchildren] at horderly
  rw [Staffed, statementsIn, hkind, hchildren] at hstaffed
  rw [hchildren] at hmem ⊢
  obtain ⟨hname, hparams⟩ := List.forall_mem_cons.mp hwhole
  have hbody : Stands root body := by
    have hlast : (name :: params ++ [body]).getLast? = some body := List.getLast?_concat
    refine ⟨hmem body (List.mem_of_getLast? hlast), by rw [hblock]; rfl, hstaffed body ?_⟩
    rw [hlast]
    exact List.mem_singleton_self body
  -- The name is no statement, so its text begins with ink, and `def ` stays in front of it.
  have hinner : name.kind.isStatement = false := by
    refine (horderly name ?_).isStatement
    rw [List.dropLast_concat]
    exact List.mem_cons_self
  rw [function_concat]
  refine Program.ensures_bind.mpr (ensures_convertAll fun ts hts => ?_)
  -- The handler converts the parameters, then the body in a context of its own, then the name.
  have hsuite := ensures_isSuite_of_known (c := c.merge .body) hparse hknown rfl hbody
  refine Program.ensures_bind.mpr (Program.ensures_under.mpr (hsuite.mono fun b hb => ?_))
  refine Program.ensures_bind.mpr (ensures_convertNode.mpr fun t ht => ?_)
  have ht := hknown c name t hc (hmem name List.mem_cons_self) hname ht
  have hts : List.Forall₂ (Standing { source, settings } c) params ts := by
    have hmems : ∀ m ∈ params, m ∈ root.preorder ∧ m.kind.isWhole = true := fun m hm =>
      ⟨hmem m (List.mem_append_left _ (List.mem_cons_of_mem _ hm)), hparams m hm⟩
    exact ((List.forall₂_and_left params ts).mpr ⟨hmems, hts⟩).imp fun m t h =>
      hknown c m t hc h.1.1 h.1.2 h.2
  exact ⟨_, rfl, statementAt_function hkind hchildren ht (ht.opens hinner) hts hb⟩

/-- What a statement becomes that has statements below it, or nothing. -/
theorem ensures_statement (hknown : Known { source, settings } root left)
    (hc : c.keywordArgs = false) (h : Stands root n) (hkind : n.kind = .block
      ∨ n.kind = .ifStatement ∨ n.kind = .functionDeclaration ∨ n.kind = .emptyStatement) :
    (handle { source, settings } n).Ensures backend.merge
      (backend.Answers { source, settings }
        fun c m t => backend.output? { source, settings } (fun _ => none) left c m = some t) c
      fun o => ∃ t, o = some t ∧ (t.isEmpty = false → ∀ d, StatementAt { source, settings } d c n
        (codeAt d [t.toFragment])) := by
  rw [handle]
  have hstands : n.kind = .block → ∀ m ∈ n.children, Stands root m := fun hblock m hm => by
    refine stands_statementsOf hparse h m ?_
    rwa [statementsOf, if_pos hblock]
  rcases hkind with hkind | hkind | hkind | hkind <;> simp only [hkind]
  · refine Program.ensures_bind.mpr (ensures_laid fun ts hts => ⟨_, rfl, fun _ d => ?_⟩)
    rw [codeAt_eq, textAt_withComments, nonempty_laid]
    exact .block hkind (statementsAt_of_known hknown hc (hstands hkind) hts d)
  · refine Program.ensures_bind.mpr
      ((ensures_isClause hparse hknown hc (by decide) ⟨_, _, rfl, rfl⟩ h.mem hkind).mono ?_)
    rintro _ ⟨fs, rfl, hfs⟩
    refine ⟨_, rfl, fun _ d => .conditional ?_⟩
    rw [codeAt_eq, textAt_withComments, hfs.nonempty]
    exact hfs.code d
  · refine (ensures_function_code hparse hknown hc h.mem hkind).mono ?_
    rintro _ ⟨t, rfl, ht⟩
    exact ⟨t, rfl, fun _ => ht⟩
  · exact ⟨_, rfl, Bool.noConfusion⟩

end

/-! ### Sources without comments -/

section

variable {source : String} {settings : Settings} {root n : Ast} {all : List Lexeme} {c : Context}
  {t : Tree} {left : Nat}
  (hparse : parse source = .ok root) (htokens : tokens source = .ok all)
  (hfree : ∀ l ∈ all, l.token.isComment = false)

include hparse htokens hfree

theorem keyed_of_free (hn : n ∈ root.preorder)
    (ht : backend.output? { source, settings } (fun _ => none) left c n = some t) :
    t.keyed = [] := by
  have hfits : Fitting source root c n t :=
    Backend.output?_satisfies (by exact fun _ _ _ => nofun)
      (fun c n => fitting_step hparse settings c) ht
  obtain ⟨pieces, hkeyed, hpieces, -⟩ := hfits.2 hn
  cases pieces with
  | nil => exact hkeyed
  | cons p ps =>
    obtain ⟨m, hm, hp⟩ := hpieces p List.mem_cons_self
    rw [leadingOf_eq_nil hparse htokens hfree (Node.mem_preorder_trans hn hm)] at hp
    cases hp

variable (hloop : ∀ n ∈ root.preorder, n.kind ≠ .whileStatement)

include hloop

/-- With one level more, the outputs are known of which the ones below are. -/
theorem known_succ (hknown : Known { source, settings } root left) :
    Known { source, settings } root (left + 1) := by
  intro c n t hc hn hwhole ht
  have hbegun : Begun n t :=
    opening_of_output? hparse (by exact fun _ _ => nofun) ht hc hn hwhole
  refine ⟨⟨left + 1, ht⟩, keyed_of_free hparse htokens hfree hn ht, hbegun,
    fun hstatement hsome d => ?_⟩
  have hopens : t.toFragment.Opens := hbegun.resolve_right fun h => by
    rw [hsome] at h
    exact Bool.false_ne_true h.2
  obtain ⟨u, hu, hpost⟩ := exists_dispatched ht
  obtain rfl : t = u :=
    hu.trans (finished_of_leadingOf (leadingOf_eq_nil hparse htokens hfree hn))
  have hplain := fun hkind => StatementAt.plain (d := d) hkind ⟨left + 1, ht⟩
    (beginsWithInk_codeAt hopens d [])
  have hlarge := fun hkind => hpost _ (ensures_dispatch_of_handle
    (ensures_statement hparse hknown hc ⟨hn, hwhole, hstatement⟩ hkind)) hsome d
  cases hkind : n.kind with
  | expressionStatement => exact hplain (.inl hkind)
  | variableStatement => exact hplain (.inr (.inl hkind))
  | returnStatement => exact hplain (.inr (.inr hkind))
  | block => exact hlarge (.inl hkind)
  | ifStatement => exact hlarge (.inr (.inl hkind))
  | functionDeclaration => exact hlarge (.inr (.inr (.inl hkind)))
  | emptyStatement => exact hlarge (.inr (.inr (.inr hkind)))
  | whileStatement => exact absurd hkind (hloop n hn)
  | sourceFile =>
    rw [hkind] at hwhole
    cases hwhole
  | _ =>
    rw [hkind] at hstatement
    cases hstatement

theorem known (left : Nat) : Known { source, settings } root left := by
  induction left with
  | zero => exact fun _ _ _ _ _ _ => nofun
  | succ left ih => exact known_succ hparse htokens hfree hloop ih

/-- **Indentation.**  A source without comments and loops that is converted within the limit comes
    out with its statements in order, each on lines of its own that are indented by four spaces for
    every suite around it, and with `pass` in the suites in which nothing translates to anything. -/
theorem code_is_indented (settings : Settings)
    (hwithin : backend.NestsWithin { source, settings } root) :
    ∃ conversion, toPython source settings = .ok conversion
      ∧ StatementsAt { source, settings } 0 backend.initial root.children conversion.code := by
  obtain ⟨t, ht⟩ := Backend.NestsWithin.exists_output? lexical_backend hwithin
  obtain ⟨conversion, hconversion, hcode⟩ := exists_conversion hparse (by exact fun _ _ => nofun) ht
  refine ⟨conversion, hconversion, ?_⟩
  have hroot := kind_of_parse hparse
  have hwhole := whole_of_parse hparse
  have hstaffed := staffed_of_parse hparse root root.self_mem_preorder
  rw [Staffed, statementsIn, hroot] at hstaffed
  have hstands : ∀ m ∈ root.children, Stands root m := fun m hm =>
    ⟨Node.mem_preorder_of_mem_children hm, hwhole m hm, hstaffed m hm⟩
  cases hlimit : settings.depthLimit with
  | zero =>
    rw [hlimit] at ht
    cases ht
  | succ left =>
    rw [hlimit] at ht
    obtain ⟨u, hu, hpost⟩ := exists_dispatched ht
    obtain rfl := hu.trans
      (finished_of_leadingOf (leadingOf_eq_nil hparse htokens hfree root.self_mem_preorder))
    rw [hcode]
    refine hpost (fun t => StatementsAt _ _ _ _ (render t)) (ensures_dispatch_of_handle ?_)
    rw [handle, hroot]
    refine Program.ensures_bind.mpr (ensures_laid fun ts hts => ⟨_, rfl, ?_⟩)
    have hstatements := statementsAt_of_known (known hparse htokens hfree hloop left)
      (c := backend.initial) rfl hstands hts 0
    rwa [← nonempty_laid] at hstatements

omit hparse htokens hfree hloop

/-- Clauses one below the other, a block that is a statement, lists that come over several lines,
    and a suite in which there is nothing. -/
theorem code_is_indented_elif :
    let source :=
      "if(a)f(\x7bb:[\n1]\x7d)\nelse if(c)\x7b;\x7d\nelse\x7b\x7bx\x7d\x7d\n\nfunction g(h)\x7breturn [\n1];\x7d"
    let code := "if a:\n    f(b=[\n        1\n    ])\nelif c:\n    pass\nelse:\n    x\n\n"
      ++ "def g(h):\n    return [\n        1\n    ]"
    ∃ root all conversion, parse source = .ok root ∧ tokens source = .ok all
      ∧ (∀ l ∈ all, l.token.isComment = false) ∧ (∀ n ∈ root.preorder, n.kind ≠ .whileStatement)
      ∧ backend.NestsWithin { source } root ∧ toPython source = .ok conversion
      ∧ StatementsAt { source } 0 backend.initial root.children conversion.code
      ∧ conversion.code = code := by
  intro source code
  have htokens : (tokens source).toOption.map (·.all fun l => !l.token.isComment) = some true := by
    decide +kernel
  have hroot : (parse source).toOption.map (fun root =>
      (root.preorder.all (·.kind != .whileStatement),
        decide (backend.NestsWithin { source } root))) = some (true, true) := by
    decide +kernel
  obtain ⟨all, htokens, hfree⟩ := Option.map_eq_some_iff.mp htokens
  obtain ⟨root, hroot, hrun⟩ := Option.map_eq_some_iff.mp hroot
  simp only [List.all_eq_true, Bool.not_eq_true'] at hfree
  simp only [Prod.mk.injEq, decide_eq_true_eq, List.all_eq_true, bne_iff_ne] at hrun
  obtain ⟨hloop, hwithin⟩ := hrun
  obtain ⟨conversion, hconversion, hcode⟩ := code_is_indented (eq_ok_of_toOption hroot)
    (eq_ok_of_toOption htokens) hfree hloop {} hwithin
  have hresult : (toPython source).toOption.map (·.code) = some code := by
    decide +kernel
  rw [hconversion] at hresult
  exact ⟨root, all, conversion, eq_ok_of_toOption hroot, eq_ok_of_toOption htokens, hfree, hloop,
    hwithin, hconversion, hcode, Option.some.inj hresult⟩

end

end Transcode.Target
