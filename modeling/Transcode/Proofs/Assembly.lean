import Mathlib.Data.List.Forall2
import Mathlib.Data.Option.Basic
import Transcode.Proofs.Leading
import Transcode.Target.Convert

namespace Transcode.Target

open Output Engine Script

/-!
# What the output of a node is made of

A handler converts some nodes below its own and puts their outputs, in source order, between
texts of its own.  `partsOf` names these nodes and the contexts that they are converted under; for
most nodes they are children, but an `if` takes in the clauses of the `else if`s after it, and a
suite the statements of its block.  `ensures_handle` says that the output of a node holds the
outputs of its parts, and no other tree with a key.

Which comments are written and in what order is a matter of the parts alone from here on.
-/

/-! ### Fragments that hold outputs -/

/-- The fragments hold some outputs, in order, and no other trees with a key. -/
structure Holds (ts : List Tree) (fs : List Fragment) : Prop where
  unkeyed : ∀ f ∈ fs, f.key? = none
  keyed : keyedAll fs = ts.flatMap Tree.keyed
  /-- Where nothing is left of the fragments, there was nothing to the outputs. -/
  isEmpty : (∀ f ∈ fs, f.isEmpty = true) → ∀ t ∈ ts, t.isEmpty = true

namespace Holds

variable {t : Tree} {ts ts' : List Tree} {fs gs : List Fragment}

/-- No fragments hold no outputs. -/
theorem nil : Holds [] [] :=
  ⟨nofun, rfl, nofun⟩

/-- Fragments hold outputs part by part. -/
theorem append (h : Holds ts fs) (h' : Holds ts' gs) : Holds (ts ++ ts') (fs ++ gs) := by
  refine ⟨List.forall_mem_append.mpr ⟨h.unkeyed, h'.unkeyed⟩, ?_, fun he => ?_⟩
  · rw [keyedAll_append, h.keyed, h'.keyed, List.flatMap_append]
  · obtain ⟨hf, hg⟩ := List.forall_mem_append.mp he
    exact List.forall_mem_append.mpr ⟨h.isEmpty hf, h'.isEmpty hg⟩

/-- A text holds no output. -/
theorem text (content : String) : Holds [] [.text content] :=
  ⟨by simp [Fragment.key?], rfl, nofun⟩

/-- An output without a key is held by itself. -/
theorem single (h : t.layout.renderOnce = none) : Holds [t] [t.toFragment] := by
  refine ⟨List.forall_mem_singleton.mpr h, ?_, fun he => ?_⟩
  · simp [keyedAll, Tree.keyed]
  · exact List.forall_mem_singleton.mpr (he _ List.mem_cons_self)

/-- A text before other fragments. -/
theorem cons_text (content : String) (h : Holds ts fs) : Holds ts (.text content :: fs) :=
  (text content).append h

/-- An output before other fragments. -/
theorem cons (ht : t.layout.renderOnce = none) (h : Holds ts fs) :
    Holds (t :: ts) (t.toFragment :: fs) :=
  (single ht).append h

/-- Outputs without keys are held one by one, -/
theorem fragmentsOf (h : ∀ t ∈ ts, t.layout.renderOnce = none) : Holds ts (fragmentsOf ts) := by
  induction ts with
  | nil => exact nil
  | cons t ts ih =>
    obtain ⟨ht, hts⟩ := List.forall_mem_cons.mp h
    exact cons ht (ih hts)

/-- A tree holds what its fragments hold. -/
theorem tree (lead body : List Fragment) (h : Holds ts (lead ++ body))
    (hlead : t.lead = nonempty lead) (hbody : t.body = nonempty body)
    (hkey : t.layout.renderOnce = none) : Holds ts [t.toFragment] := by
  have hopen := h.unkeyed
  rw [List.forall_mem_append] at hopen
  refine ⟨List.forall_mem_singleton.mpr hkey, ?_, fun he => h.isEmpty fun f hf => ?_⟩
  · have hkeyed := Tree.keyed_of_none hkey
    rw [hlead, hbody, keyedAll_nonempty_of_key hopen.1, keyedAll_nonempty_of_key hopen.2,
      ← keyedAll_append, h.keyed] at hkeyed
    rw [keyedAll, keyedAll, List.append_nil]
    exact hkeyed
  · have ht : t.isEmpty = true := he _ List.mem_cons_self
    rw [Tree.isEmpty, hlead, hbody, Bool.and_eq_true, Bool.and_eq_true, List.isEmpty_iff,
      List.isEmpty_iff] at ht
    rcases List.mem_append.mp hf with hf | hf
    · exact isEmpty_of_nonempty_eq_nil ht.1.1 f hf
    · exact isEmpty_of_nonempty_eq_nil ht.1.2 f hf

/-- The same for a tree without a body. -/
theorem ofFragments (h : Holds ts fs) : Holds ts [(Tree.ofFragments fs).toFragment] :=
  tree fs [] (by rwa [List.append_nil]) rfl rfl rfl

/-- and so they are as lines under a head. -/
theorem linesUnder {head : String} (h : ∀ t ∈ ts, t.layout.renderOnce = none) :
    Holds ts [(linesUnder head ts).toFragment] :=
  tree [.text head] _ ((fragmentsOf h).cons_text head) rfl rfl rfl

/-- The trees with a key in a tree are those in the outputs that it holds. -/
theorem keyed_tree (h : Holds ts [t.toFragment]) : t.keyed = ts.flatMap Tree.keyed := by
  rw [← h.keyed, keyedAll, keyedAll, List.append_nil]
  rfl

/-- It makes no difference whether a tree asks for comments. -/
theorem withComments (h : Holds ts [t.toFragment]) : Holds ts [t.withComments.toFragment] := by
  have hkey : t.layout.renderOnce = none := h.unkeyed _ List.mem_cons_self
  refine ⟨List.forall_mem_singleton.mpr hkey, ?_, fun he => h.isEmpty ?_⟩
  · have hkeyed := (Tree.keyed_of_none (t := t.withComments) hkey).trans
      (Tree.keyed_of_none hkey).symm
    rw [← h.keyed, keyedAll, keyedAll, keyedAll, keyedAll, List.append_nil, List.append_nil]
    exact hkeyed
  · exact List.forall_mem_singleton.mpr (he t.withComments.toFragment List.mem_cons_self)

end Holds

/-! ### Parts -/

/-- A node whose output is part of another's, and the context that it is converted under. -/
structure Part where
  context : Context
  node : Ast
  /-- Whether the comments before the node are put in front of it there. -/
  led : Bool := false

/-- Some nodes as parts under a context. -/
def partsUnder (c : Context) (ns : List Ast) : List Part :=
  ns.map fun n => { context := c, node := n }

/-- The parts of a suite. -/
def suiteParts (c : Context) (statement : Ast) : List Part :=
  partsUnder c (if statement.kind = .block then statement.children else [statement])

/-- The parts of a conditional statement. -/
def ifParts (c : Context) : Ast → Option (List Part)
  | ⟨_, _, _, _, [condition, branch]⟩ =>
    some (partsUnder c [condition] ++ suiteParts c branch)
  | ⟨_, _, _, _, condition :: branch :: otherwise :: _⟩ =>
    let later :=
      if otherwise.kind = .ifStatement then (ifParts c otherwise).getD []
      else suiteParts c otherwise
    some (partsUnder c [condition] ++ suiteParts c branch ++ later)
  | _ => none

/-- The parts of the arguments of a call. -/
def argumentParts (c : Context) : List Ast → List Part
  | [] => []
  | [last] =>
    let update := if last.kind = .objectLiteral then Context.keywords else Context.value
    partsUnder (c.merge update) [last]
  | argument :: rest => partsUnder (c.merge .value) [argument] ++ argumentParts c rest

/-- The parts of a call. -/
def callParts (c : Context) : List Ast → Option (List Part)
  | [] => none
  | callee :: arguments => some (partsUnder (c.merge .value) [callee] ++ argumentParts c arguments)

/-- The parts of a member of an object.  The `log` of the console has none. -/
def accessParts (source : String) (c : Context) (n : Ast) : Option (List Part) :=
  if n.textIn source = "console.log" then some []
  else
    match n.children with
    | [object, name] => some (partsUnder (c.merge .value) [object] ++ partsUnder c [name])
    | _ => none

/-- The parts of a declaration. -/
def declarationParts (c : Context) : List Ast → Option (List Part)
  | [] => none
  | name :: rest => some (partsUnder c [name] ++ partsUnder (c.merge .value) (rest.take 1))

/-- The parts of a function. -/
def functionParts (c : Context) : List Ast → Option (List Part)
  | name :: p :: more =>
    some (partsUnder c (name :: (p :: more).dropLast)
      ++ suiteParts (c.merge .body) ((p :: more).getLast (List.cons_ne_nil p more)))
  | _ => none

/-- The parts of a node's output.  There are none to speak of if no handler takes the node. -/
def partsOf (source : String) (c : Context) (n : Ast) : Option (List Part) :=
  match n.kind with
  | .sourceFile | .block | .variableStatement => some (partsUnder c n.children)
  | .expressionStatement | .parameter | .parenthesized =>
    n.children.head?.map fun e => partsUnder c [e]
  | .variableDeclaration => declarationParts c n.children
  | .ifStatement => ifParts c n
  | .returnStatement => some (partsUnder (c.merge .value) (n.children.take 1))
  | .functionDeclaration => functionParts c n.children
  | .callExpression | .newExpression => callParts c n.children
  | .propertyAccess => accessParts source c n
  | .objectLiteral =>
    some (n.children.map fun p => { context := c, node := p, led := c.keywordArgs })
  | .propertyAssignment =>
    match n.children with
    | [_, value] => some (partsUnder (c.merge .value) [value])
    | _ => none
  | .arrayLiteral => some (partsUnder (c.merge .value) n.children)
  | .binaryExpression =>
    match n.children with
    | [left, operator, right] => (operatorOf operator).map fun _ => partsUnder c [left, right]
    | _ => none
  | .prefixUnary =>
    match n.children with
    | [operator, operand] => (operatorOf operator).map fun _ => partsUnder c [operand]
    | _ => none
  | .identifier | .thisKeyword | .stringLiteral | .numericLiteral | .trueKeyword | .falseKeyword
  | .emptyStatement => some []
  | .whileStatement | .operator _ => none

/-- Whether the output of a node asks for the comments before it.  An object and its properties
    do not when they are written as keyword arguments. -/
def asksFor (c : Context) (k : Kind) : Bool :=
  match k with
  | .block | .expressionStatement | .variableStatement | .ifStatement | .returnStatement
  | .functionDeclaration | .callExpression | .newExpression | .arrayLiteral | .identifier
  | .stringLiteral | .numericLiteral => true
  | .objectLiteral | .propertyAssignment => !c.keywordArgs
  | _ => false

/-- Whether the output of a node may be empty: there is no text in it but what its parts and the
    source give. -/
def mayVanish (source : String) (c : Context) (n : Ast) : Bool :=
  match n.kind with
  | .sourceFile | .block | .expressionStatement | .variableStatement | .parameter | .prefixUnary
  | .emptyStatement => true
  | .objectLiteral => c.keywordArgs
  | .identifier | .stringLiteral | .numericLiteral => (n.textIn source).isEmpty
  | _ => false

/-! ### Outputs of parts -/

section

variable (source : String) (R : Context → Ast → Tree → Prop)

/-- What the output of a part can be, given a relation between nodes and their output. -/
def Part.Gives (p : Part) (t : Tree) : Prop :=
  match p.led with
  | false => R p.context p.node t
  | true => ∃ output, R p.context p.node output ∧ Led source (comment source) p.node output t

/-- The outputs of some parts are held by the tree. -/
def Gathers (parts : List Part) (t : Tree) : Prop :=
  ∃ ts, List.Forall₂ (Part.Gives source R) parts ts ∧ Holds ts [t.toFragment]

/-- An output holds those of some parts.  It asks for comments if `asks` says so, and is empty only
    if it may `vanish`. -/
structure Made (asks vanish : Bool) (parts : List Part) (t : Tree) : Prop where
  gathers : Gathers source R parts t
  asks : asks = true → t.wantsComments = true
  vanishes : t.isEmpty = true → vanish = true

variable {source R} {c : Context} {n : Ast} {ns : List Ast} {parts parts' : List Part}
  {t : Tree} {ts ts' : List Tree} {asks vanish : Bool}

/-- The parts under a context give what their nodes become there. -/
theorem forall₂_partsUnder :
    List.Forall₂ (Part.Gives source R) (partsUnder c ns) ts ↔ List.Forall₂ (R c) ns ts :=
  List.forall₂_map_left_iff

/-- What gathers outputs has no key of its own. -/
theorem Gathers.unkeyed (h : Gathers source R parts t) : t.layout.renderOnce = none := by
  obtain ⟨ts, -, hholds⟩ := h
  exact hholds.unkeyed _ List.mem_cons_self

/-- An output that is not empty. -/
theorem Made.of_isEmpty_eq_false (h : Gathers source R parts t)
    (hasks : asks = true → t.wantsComments = true) (hsolid : t.isEmpty = false) :
    Made source R asks vanish parts t :=
  ⟨h, hasks, fun he => by rw [hsolid] at he; cases he⟩

/-- An output that asks for comments. -/
theorem Made.withComments (h : Made source R asks vanish parts t) :
    Made source R true vanish parts t.withComments := by
  obtain ⟨ts, hts, hholds⟩ := h.gathers
  exact ⟨⟨ts, hts, hholds.withComments⟩, fun _ => rfl, h.vanishes⟩

end

/-! ### What handlers do -/

section

variable {job : Job} {R : Context → Ast → Tree → Prop} {c : Context} {n : Ast} {ns : List Ast}

/-- A conversion gives what the relation says. -/
@[simp] theorem ensures_convertNode {post : Tree → Prop} :
    (convertNode n).Ensures backend.merge (backend.Answers job R) c post
      ↔ ∀ t, R c n t → post t :=
  Iff.rfl

/-- Under an update a node is converted under both contexts merged. -/
@[simp] theorem ensures_convertUnder {update : Context} {post : Tree → Prop} :
    (convertUnder update n).Ensures backend.merge (backend.Answers job R) c post
      ↔ ∀ t, R (c.merge update) n t → post t :=
  Iff.rfl

/-- Nodes are converted in order. -/
theorem ensures_convertAll {post : List Tree → Prop}
    (h : ∀ ts, List.Forall₂ (R c) ns ts → post ts) :
    (convertAll ns).Ensures backend.merge (backend.Answers job R) c post :=
  Program.ensures_askAll h

/-- Comments are rendered as they are, whatever the context. -/
theorem eq_comment_of_renders (c : Context) (span : Trivia.Span) (t : Tree)
    (h : backend.Renders job c span t) : t = comment job.source span :=
  h (· = comment job.source span) rfl

/-- A comment is never empty. -/
theorem isEmpty_comment (source : String) (span : Trivia.Span) :
    (comment source span).isEmpty = false := by
  have hline : ∀ line, (Fragment.text (commentLine line)).isEmpty = false := by
    intro line
    rw [commentLine]
    split <;> simp [Fragment.isEmpty]
  rw [comment]
  split
  · exact Tree.isEmpty_eq_false_of_text rfl List.mem_cons_self (by simp)
  · rename_i hbody
    rw [String.isEmpty_iff, ← String.toList_eq_nil_iff] at hbody
    obtain ⟨line, hmem⟩ := List.exists_mem_of_ne_nil _ (Text.lines_ne_nil hbody)
    exact Tree.isEmpty_eq_false_of_mem rfl (List.mem_map_of_mem hmem) (hline line)

/-- A name keeps its first character. -/
theorem isEmpty_snakeCase {name : String} (h : (snakeCase name).isEmpty = true) :
    name.isEmpty = true := by
  rw [snakeCase] at h
  split at h
  · rename_i hname
    rwa [String.isEmpty_iff, ← String.toList_eq_nil_iff]
  · split at h
    · exact h
    · simp at h

/-- A string literal keeps its quotes. -/
theorem isEmpty_doubleQuoted {literal : String} (h : (doubleQuoted literal).isEmpty = true) :
    literal.isEmpty = true := by
  rw [doubleQuoted] at h
  split at h
  · simp at h
  · exact h

variable (hR : ∀ c n t, R c n t → t.layout.renderOnce = none)

include hR

/-- What parts give has no key of its own. -/
theorem unkeyed_of_gives {parts : List Part} {ts : List Tree}
    (h : List.Forall₂ (Part.Gives job.source R) parts ts) :
    ∀ t ∈ ts, t.layout.renderOnce = none := by
  induction h with
  | nil => exact List.forall_mem_nil _
  | @cons p t _ _ ht _ ih =>
    refine List.forall_mem_cons.mpr ⟨?_, ih⟩
    rw [Part.Gives] at ht
    split at ht
    · exact hR _ _ _ ht
    · obtain ⟨output, -, hled⟩ := ht
      exact hled.unkeyed

/-- Nodes that are laid out with line breaks are held by what comes out, those that become nothing
    among them. -/
theorem ensures_joinAfter {previous : Option Ast} {post : List Fragment → Prop}
    (h : ∀ ts fs, List.Forall₂ (R c) ns ts → Holds ts fs → post fs) :
    (joinAfter job.source previous ns).Ensures backend.merge (backend.Answers job R) c post := by
  induction ns generalizing previous post with
  | nil => exact h [] [] .nil .nil
  | cons n ns ih =>
    rw [joinAfter, Program.ensures_bind, ensures_convertNode]
    intro t ht
    have hkey := hR _ _ _ ht
    split
    -- An output that is left out is empty, so that nothing is lost with it.
    · rename_i he
      apply ih
      intro ts fs hts hfs
      refine h (t :: ts) fs (.cons ht hts) ⟨hfs.unkeyed, ?_, fun hall => ?_⟩
      · have hnone : t.toFragment.keyed = [] := Fragment.keyed_of_isEmpty hkey he
        rw [List.flatMap_cons, Tree.keyed, hnone, hfs.keyed]
        rfl
      · exact List.forall_mem_cons.mpr ⟨he, hfs.isEmpty hall⟩
    · rw [Program.ensures_bind]
      apply ih
      intro ts fs hts hfs
      refine h (t :: ts) _ (.cons ht hts) ?_
      cases previous with
      | none => exact hfs.cons hkey
      | some p => exact (hfs.cons hkey).cons_text _

/-- A suite holds what the statements in it become. -/
theorem ensures_suite {statement : Ast} {post : Tree → Prop}
    (h : ∀ t, Gathers job.source R (suiteParts c statement) t → post t) :
    (suite job statement).Ensures backend.merge (backend.Answers job R) c post := by
  rw [suite, Program.ensures_bind]
  apply ensures_joinAfter hR
  intro ts fs hts hfs
  refine h _ ⟨ts, forall₂_partsUnder.mpr hts, ?_⟩
  cases hempty : fs.isEmpty with
  | true =>
    -- `pass` stands in for the statements.
    obtain rfl := List.isEmpty_iff.mp hempty
    have hpass := hfs.append (.text "pass")
    rw [List.append_nil] at hpass
    exact Holds.tree [] _ hpass rfl rfl rfl
  | false => exact Holds.tree [] _ hfs rfl rfl rfl

/-- A condition, its branch and what comes after them. -/
theorem clause_of_gathers (keyword : String) {condition : Ast} {a b : Tree}
    {parts later : List Part} {more : List Fragment} {ts : List Tree} (ha : R c condition a)
    (hb : Gathers job.source R parts b) (hts : List.Forall₂ (Part.Gives job.source R) later ts)
    (hmore : Holds ts more) :
    Made job.source R false false (partsUnder c [condition] ++ parts ++ later)
      (.ofFragments
        ([.text keyword, .text " ", a.toFragment, .text ":", b.toFragment] ++ more)) := by
  obtain ⟨bs, hbs, hholds⟩ := hb
  have hparts := List.rel_append (List.rel_append (forall₂_partsUnder.mpr (.cons ha .nil)) hbs) hts
  have hfirst := ((hholds.cons_text ":").cons (hR _ _ _ ha)).cons_text " " |>.cons_text keyword
  refine .of_isEmpty_eq_false ⟨_, hparts, (hfirst.append hmore).ofFragments⟩ nofun ?_
  exact Tree.isEmpty_eq_false_of_text rfl (s := ":") (by simp) (by simp)

/-- A conditional statement holds its condition, its branches and the clauses after them. -/
theorem ensures_ifClause {keyword : String} :
    (ifClause job keyword n).Ensures backend.merge (backend.Answers job R) c
      (Option.Rel (Made job.source R false false) (ifParts c n)) := by
  induction keyword, n using ifClause.induct with
  | case1 keyword kind fullStart start stop condition branch rest ih =>
    rw [ifClause, Program.ensures_bind, ensures_convertNode]
    intro a ha
    rw [Program.ensures_bind]
    apply ensures_suite hR
    intro b hb
    cases rest with
    | nil =>
      have hclause := clause_of_gathers hR keyword ha hb .nil .nil
      rw [List.append_nil] at hclause
      exact .some hclause
    | cons otherwise rest =>
      rw [ifParts]
      by_cases hkind : otherwise.kind = .ifStatement
      · simp only [if_pos hkind]
        rw [Program.ensures_bind]
        refine Program.Ensures.mono ih fun o ho => ?_
        cases hclause : ifParts c otherwise with
        | none =>
          -- An `if` without its children leaves a line break behind, and nothing else.
          rw [hclause] at ho
          cases ho
          have hempty : Holds [] [Tree.empty.toFragment] := Holds.ofFragments .nil
          exact .some (clause_of_gathers hR keyword ha hb .nil (hempty.cons_text _))
        | some parts =>
          rw [hclause] at ho
          cases ho with
          | some hmade =>
            obtain ⟨ts, hts, hholds⟩ := hmade.gathers
            exact .some (clause_of_gathers hR keyword ha hb hts (hholds.cons_text _))
      · simp only [if_neg hkind]
        rw [Program.ensures_bind]
        apply ensures_suite hR
        rintro t ⟨ts, hts, hholds⟩
        exact .some (clause_of_gathers hR keyword ha hb hts (hholds.cons_text _))
  | case2 n keyword hn =>
    rw [ifClause, ifParts]
    · exact .none
    · exact fun _ _ _ _ condition branch => hn _ _ _ _ condition branch []
    · exact fun _ _ _ _ condition branch first rest => hn _ _ _ _ condition branch (first :: rest)
    · exact hn

/-! #### Calls, objects and lists -/

omit hR in
/-- The arguments of a call give what they are converted to, -/
theorem ensures_convertArguments {post : List Tree → Prop}
    (h : ∀ ts, List.Forall₂ (Part.Gives job.source R) (argumentParts c ns) ts → post ts) :
    (convertArguments ns).Ensures backend.merge (backend.Answers job R) c post := by
  induction ns using convertArguments.induct generalizing post with
  | case1 => exact h [] .nil
  | case2 last =>
    rw [convertArguments, Program.ensures_bind, ensures_convertUnder]
    exact fun t ht => h [t] (.cons ht .nil)
  | case3 argument rest hrest ih =>
    rw [convertArguments, Program.ensures_bind, ensures_convertUnder]
    · intro t ht
      rw [Program.ensures_bind]
      refine ih fun ts hts => h (t :: ts) ?_
      rw [argumentParts]
      · exact .cons ht hts
      · exact hrest
    · exact hrest

/-- A call holds what is called and the arguments. -/
theorem ensures_call :
    (call ns).Ensures backend.merge (backend.Answers job R) c
      (Option.Rel (Made job.source R true false) (callParts c ns)) := by
  cases ns with
  | nil => exact .none
  | cons callee arguments =>
    rw [call, Program.ensures_bind, ensures_convertUnder]
    intro a ha
    rw [Program.ensures_bind]
    apply ensures_convertArguments
    intro ts hts
    have hholds := (Holds.fragmentsOf (unkeyed_of_gives hR hts)).cons_text "(" |>.cons (hR _ _ _ ha)
    refine .some (.of_isEmpty_eq_false ⟨a :: ts, .cons ha hts, ?_⟩ (fun _ => rfl) ?_)
    · exact Holds.tree [a.toFragment, .text "("] _ hholds rfl rfl rfl
    · exact Tree.isEmpty_eq_false_of_text rfl (s := "(") (by simp) (by simp)

/-- A property as a keyword argument comes with the comments before it. -/
theorem ensures_keywordArgument {post : Tree → Prop}
    (h : ∀ t u, Part.Gives job.source R { context := c, node := n, led := true } u →
      Holds [u] [t.toFragment] → post t) :
    (keywordArgument job n).Ensures backend.merge (backend.Answers job R) c post := by
  rw [keywordArgument, Program.ensures_bind, ensures_convertNode]
  intro output houtput
  simp only [Program.ensures_bind, Program.ensures_mapRequests]
  refine ensures_attachLeadingTrivia eq_comment_of_renders (isEmpty_comment job.source)
    (hR _ _ _ houtput) ?_
  intro u hled
  exact h _ u ⟨output, houtput, hled⟩ ((Holds.single hled.unkeyed).cons_text _).ofFragments

/-- so do properties as keyword arguments, with the comments before them, -/
theorem ensures_keywordArguments {post : List Tree → Prop}
    (h : ∀ us ts, List.Forall₂ (Part.Gives job.source R)
        (ns.map fun p => { context := c, node := p, led := true }) ts →
      Holds ts (fragmentsOf us) → post us) :
    (keywordArguments job ns).Ensures backend.merge (backend.Answers job R) c post := by
  induction ns generalizing post with
  | nil => exact h [] [] .nil .nil
  | cons n ns ih =>
    rw [keywordArguments, Program.ensures_bind]
    apply ensures_keywordArgument hR
    intro u t ht hu
    rw [Program.ensures_bind]
    apply ih
    intro us ts hts hus
    exact h (u :: us) (t :: ts) (.cons ht hts) (hu.append hus)

/-- The elements of a list, each under the context of the list. -/
theorem ensures_convertElements {update : Option Context} {start : Nat}
    {post : List Fragment → Prop}
    (h : ∀ ts fs, List.Forall₂ (R (update.elim c c.merge)) ns ts → Holds ts fs → post fs) :
    (convertElements job.source update start ns).Ensures backend.merge (backend.Answers job R) c
      post := by
  induction ns generalizing start post with
  | nil => exact h [] [] .nil .nil
  | cons n ns ih =>
    have helement : ∀ t, R (update.elim c c.merge) n t →
        ((do
          let lead := breaksBefore job.source start n
          let element := if lead.isEmpty then t else .ofFragments [.text lead, t.toFragment]
          let later ← convertElements job.source update n.stop ns
          return element.toFragment :: later) : Writing (List Fragment)).Ensures backend.merge
            (backend.Answers job R) c post := by
      intro t ht
      rw [Program.ensures_bind]
      apply ih
      intro ts fs hts hfs
      have helement : ∀ lead : String, Holds [t]
          [(if lead.isEmpty then t else .ofFragments [.text lead, t.toFragment]).toFragment] := by
        intro lead
        split
        · exact .single (hR _ _ _ ht)
        · exact ((Holds.single (hR _ _ _ ht)).cons_text _).ofFragments
      exact h (t :: ts) _ (.cons ht hts) ((helement _).append hfs)
    cases update with
    | none => exact Program.ensures_bind.mpr helement
    | some update => exact Program.ensures_bind.mpr helement

/-- and elements between delimiters. -/
theorem ensures_convertDelimited {layout : Delimited Context} {parent : Ast}
    (hclosing : layout.closing ≠ "") :
    (convertDelimited job.source parent ns layout).Ensures backend.merge (backend.Answers job R) c
      (Made job.source R true false (partsUnder (layout.context.elim c c.merge) ns)) := by
  rw [convertDelimited, Program.ensures_bind]
  apply ensures_convertElements hR
  intro ts fs hts hfs
  refine .of_isEmpty_eq_false ⟨ts, forall₂_partsUnder.mpr hts, ?_⟩ (fun _ => rfl) ?_
  · exact Holds.tree [.text layout.opening] _ (hfs.cons_text _) rfl rfl rfl
  · refine Tree.isEmpty_eq_false_of_closing rfl ?_
    split
    · exact hclosing
    · simp

/-- An object holds its properties. -/
theorem ensures_object :
    (object job n).Ensures backend.merge (backend.Answers job R) c
      (Option.Rel (Made job.source R (!c.keywordArgs) c.keywordArgs)
        (some (n.children.map fun p => { context := c, node := p, led := c.keywordArgs }))) := by
  rw [object, Program.ensures_bind, Program.ensures_context]
  cases hc : c.keywordArgs with
  | true =>
    rw [if_pos rfl, Program.ensures_bind]
    apply ensures_keywordArguments hR
    intro us ts hts hus
    exact .some ⟨⟨ts, hts, Holds.tree [] _ hus rfl rfl rfl⟩, nofun, fun _ => rfl⟩
  | false =>
    rw [if_neg Bool.false_ne_true, Program.ensures_bind]
    exact (ensures_convertDelimited hR (by simp)).mono fun t ht => .some ht

/-- A property holds its value. -/
theorem ensures_property {key value : Ast} :
    (property job [key, value]).Ensures backend.merge (backend.Answers job R) c
      (Option.Rel (Made job.source R (!c.keywordArgs) false)
        (some (partsUnder (c.merge .value) [value]))) := by
  rw [property, Program.ensures_bind, ensures_convertUnder]
  intro v hv
  have hholds := Holds.single (hR _ _ _ hv)
  have hparts : List.Forall₂ (Part.Gives job.source R) (partsUnder (c.merge .value) [value]) [v] :=
    forall₂_partsUnder.mpr (.cons hv .nil)
  simp only
  rw [Program.ensures_bind, Program.ensures_context]
  cases hc : c.keywordArgs with
  | true =>
    refine .some (.of_isEmpty_eq_false ⟨[v], hparts, ?_⟩ nofun ?_)
    · exact ((hholds.cons_text _).cons_text _).ofFragments
    · exact Tree.isEmpty_eq_false_of_text rfl (s := "=") (by simp) (by simp)
  | false =>
    refine .some (.of_isEmpty_eq_false ⟨[v], hparts, ?_⟩ (fun _ => rfl) ?_)
    · exact ((hholds.cons_text _).cons_text _).ofFragments.withComments
    · exact Tree.isEmpty_eq_false_of_text rfl (s := ": ") (by simp) (by simp)

/-! #### Operators and members -/

/-- A binary expression holds its operands. -/
theorem ensures_binary {left operator right : Ast} :
    (binary job [left, operator, right]).Ensures backend.merge (backend.Answers job R) c
      (Option.Rel (Made job.source R false false)
        ((operatorOf operator).map fun _ => partsUnder c [left, right])) := by
  rw [binary]
  cases operatorOf operator with
  | none => exact .none
  | some token =>
    -- An operand may be put into `str`, which adds texts around it.
    have hoperand : ∀ (needed : Bool) {n : Ast} {t : Tree}, R c n t →
        Holds [t] [(asString needed t).toFragment] := by
      intro needed n t ht
      rw [asString]
      split
      · exact (((Holds.single (hR _ _ _ ht)).append (.text ")")).cons_text "str(").ofFragments
      · exact .single (hR _ _ _ ht)
    simp only
    rw [Program.ensures_bind, ensures_convertNode]
    intro l hl
    rw [Program.ensures_bind, ensures_convertNode]
    intro r hr
    have hparts : List.Forall₂ (Part.Gives job.source R) (partsUnder c [left, right]) [l, r] :=
      forall₂_partsUnder.mpr (.cons hl (.cons hr .nil))
    refine .some (.of_isEmpty_eq_false ⟨[l, r], hparts, ?_⟩ nofun ?_)
    · refine ((hoperand _ hl).append ?_).ofFragments
      exact (((hoperand _ hr).cons_text _).cons_text _).cons_text _
    · exact Tree.isEmpty_eq_false_of_text rfl (s := " ") (by simp) (by simp)

/-- An expression with a prefix operator holds its operand. -/
theorem ensures_prefixed {operator operand : Ast} :
    (prefixed job [operator, operand]).Ensures backend.merge (backend.Answers job R) c
      (Option.Rel (Made job.source R false true)
        ((operatorOf operator).map fun _ => partsUnder c [operand])) := by
  rw [prefixed]
  cases operatorOf operator with
  | none => exact .none
  | some token =>
    simp only
    rw [Program.ensures_bind, ensures_convertNode]
    intro t ht
    refine .some ⟨⟨[t], forall₂_partsUnder.mpr (.cons ht .nil), ?_⟩, nofun, fun _ => rfl⟩
    exact ((Holds.single (hR _ _ _ ht)).cons_text _).ofFragments

/-- A member of an object holds the object and the name. -/
theorem ensures_access :
    (access job n).Ensures backend.merge (backend.Answers job R) c
      (Option.Rel (Made job.source R false false) (accessParts job.source c n)) := by
  rw [access, accessParts]
  split
  · refine .some (Made.of_isEmpty_eq_false ⟨[], .nil, ?_⟩ nofun ?_)
    · exact (Holds.text "print").ofFragments
    · exact Tree.isEmpty_eq_false_of_text rfl List.mem_cons_self (by simp)
  · match n.children with
    | [object, name] =>
      intro o ho m hm
      refine .some (Made.of_isEmpty_eq_false ⟨[o, m], .cons ho (.cons hm .nil), ?_⟩ nofun ?_)
      · have hname := (Holds.single (hR _ _ _ hm)).cons_text "."
        exact (hname.cons (hR _ _ _ ho)).ofFragments
      · exact Tree.isEmpty_eq_false_of_text rfl (s := ".") (by simp) (by simp)
    | [] => exact .none
    | [_] => exact .none
    | _ :: _ :: _ :: _ => exact .none

/-! #### Statements -/

/-- A declaration holds the name and its value. -/
theorem ensures_declaration :
    (declaration ns).Ensures backend.merge (backend.Answers job R) c
      (Option.Rel (Made job.source R false false) (declarationParts c ns)) := by
  cases ns with
  | nil => exact .none
  | cons name rest =>
    rw [declaration, Program.ensures_bind, ensures_convertNode]
    intro a ha
    have hsolid : ∀ v : Tree,
        (Tree.ofFragments [a.toFragment, .text " = ", v.toFragment]).isEmpty = false := fun v =>
      Tree.isEmpty_eq_false_of_text rfl (s := " = ") (by simp) (by simp)
    cases rest with
    | nil =>
      -- There is no part for the value `None`.
      have hnone : Holds [] [(Tree.ofText "None").toFragment] := (Holds.text "None").ofFragments
      refine .some (.of_isEmpty_eq_false ⟨[a], .cons ha .nil, ?_⟩ nofun (hsolid _))
      exact ((hnone.cons_text " = ").cons (hR _ _ _ ha)).ofFragments
    | cons init rest =>
      intro v hv
      refine .some (.of_isEmpty_eq_false ⟨[a, v], .cons ha (.cons hv .nil), ?_⟩ nofun (hsolid _))
      exact (((Holds.single (hR _ _ _ hv)).cons_text " = ").cons (hR _ _ _ ha)).ofFragments

/-- A `return` holds its value. -/
theorem ensures_returned :
    (returned n).Ensures backend.merge (backend.Answers job R) c
      (Option.Rel (Made job.source R true false)
        (some (partsUnder (c.merge .value) (n.children.take 1)))) := by
  have hsolid : ∀ v : Tree,
      (Tree.ofFragments [.text "return", v.toFragment]).withComments.isEmpty = false := fun v =>
    Tree.isEmpty_eq_false_of_text rfl (s := "return") (by simp) (by simp)
  have hvalue : ∀ {parts ts v}, List.Forall₂ (Part.Gives job.source R) parts ts →
      Holds ts [Tree.toFragment v] → Option.Rel (Made job.source R true false) (some parts)
        (some (Tree.ofFragments [.text "return", v.toFragment]).withComments) :=
    fun hts hv => .some (.of_isEmpty_eq_false
      ⟨_, hts, (hv.cons_text "return").ofFragments.withComments⟩ (fun _ => rfl) (hsolid _))
  rw [returned, Program.ensures_bind, Program.ensures_context]
  match n.children with
  | [] =>
    have hnone := hvalue (v := .empty) .nil (Holds.ofFragments .nil)
    simp only
    split <;> exact hnone
  | value :: _ =>
    have hsome : ∀ v, R (c.merge .value) value v → Option.Rel (Made job.source R true false)
        (some (partsUnder (c.merge .value) [value])) _ := fun v hv =>
      hvalue (.cons hv .nil) ((Holds.single (hR _ _ _ hv)).cons_text " ").ofFragments
    simp only
    split <;> exact hsome

/-- A function holds its name, its parameters and its body. -/
theorem ensures_function :
    (function job ns).Ensures backend.merge (backend.Answers job R) c
      (Option.Rel (Made job.source R true false) (functionParts c ns)) := by
  match ns with
  | [] => exact .none
  | [_] => exact .none
  | name :: p :: more =>
    rw [function, functionParts, Program.ensures_bind]
    apply ensures_convertAll
    intro ps hps
    have hgives : List.Forall₂ (Part.Gives job.source R)
        (partsUnder c (p :: more).dropLast) ps := forall₂_partsUnder.mpr hps
    simp only
    rw [Program.ensures_bind, Program.ensures_under]
    apply ensures_suite hR
    rintro b ⟨bs, hbs, hb⟩
    rw [Program.ensures_bind, ensures_convertNode]
    intro a ha
    have hparameters : Holds ps
        [((Tree.empty.withBody (fragmentsOf ps)).withSeparator ", ").toFragment] :=
      Holds.tree [] _ (.fragmentsOf (unkeyed_of_gives hR hgives)) rfl rfl rfl
    have hparts := List.rel_append (forall₂_partsUnder.mpr (.cons ha hps)) hbs
    refine .some (.of_isEmpty_eq_false ⟨a :: ps ++ bs, hparts, ?_⟩ (fun _ => rfl) ?_)
    · have hrest := (hparameters.append (hb.cons_text "):")).cons_text "("
      exact ((hrest.cons (hR _ _ _ ha)).cons_text "def ").ofFragments.withComments
    · exact Tree.isEmpty_eq_false_of_text rfl (s := "def ") (by simp) (by simp)

omit hR in
/-- What is made of a first child holds it. -/
theorem ensures_withFirst {f : Tree → Tree} {asks vanish : Bool}
    (hf : ∀ e t, R c e t → Made job.source R asks vanish (partsUnder c [e]) (f t)) :
    (withFirst f ns).Ensures backend.merge (backend.Answers job R) c
      (Option.Rel (Made job.source R asks vanish) (ns.head?.map fun e => partsUnder c [e])) := by
  cases ns with
  | nil => exact .none
  | cons e rest => exact fun t ht => .some (hf e t ht)

/-! #### All kinds of nodes -/

/-- The statements of a file or of a block. -/
theorem ensures_statements {post : List Fragment → Prop}
    (h : ∀ fs, Made job.source R false true (partsUnder c ns) (.ofFragments fs) → post fs) :
    (joinWithBlankLines job.source ns).Ensures backend.merge (backend.Answers job R) c post :=
  ensures_joinAfter hR fun ts fs hts hfs =>
    h fs ⟨⟨ts, forall₂_partsUnder.mpr hts, hfs.ofFragments⟩, nofun, fun _ => rfl⟩

omit hR in
/-- The text of a node without parts. -/
theorem made_text {text : String} {vanish : Bool} (h : text.isEmpty = true → vanish = true) :
    Made job.source R false vanish [] (.ofText text) := by
  refine ⟨⟨[], .nil, (Holds.text text).ofFragments⟩, nofun, fun he => h ?_⟩
  exact Tree.isEmpty_ofFragments.mp he _ List.mem_cons_self

/-- **Assembly.**  A handler makes the output of a node of the outputs of its parts, and declines
    the nodes that have none to speak of. -/
theorem ensures_handle :
    (handle job n).Ensures backend.merge (backend.Answers job R) c
      (Option.Rel (Made job.source R (asksFor c n.kind) (mayVanish job.source c n))
        (partsOf job.source c n)) := by
  rw [handle, partsOf, mayVanish]
  cases n.kind with
  | sourceFile => exact Program.ensures_bind.mpr (ensures_statements hR fun fs hfs => .some hfs)
  | block =>
    exact Program.ensures_bind.mpr (ensures_statements hR fun fs hfs => .some hfs.withComments)
  | expressionStatement =>
    exact ensures_withFirst fun e t ht =>
      ⟨⟨[t], .cons ht .nil, (Holds.single (hR _ _ _ ht)).ofFragments.withComments⟩, fun _ => rfl,
        fun _ => rfl⟩
  | variableStatement =>
    refine Program.ensures_bind.mpr (ensures_convertAll fun ts hts => ?_)
    have hgives : List.Forall₂ (Part.Gives job.source R) (partsUnder c n.children) ts :=
      forall₂_partsUnder.mpr hts
    have hholds := Holds.fragmentsOf (unkeyed_of_gives hR hgives)
    exact .some ⟨⟨ts, hgives, Holds.tree [] _ hholds rfl rfl rfl⟩, fun _ => rfl, fun _ => rfl⟩
  | variableDeclaration => exact ensures_declaration hR
  | ifStatement =>
    refine Program.ensures_bind.mpr ((ensures_ifClause hR).mono fun o ho => ?_)
    generalize ifParts c n = parts at ho ⊢
    cases ho with
    | none => exact .none
    | some hmade => exact .some hmade.withComments
  | whileStatement => exact .none
  | returnStatement => exact ensures_returned hR
  | functionDeclaration => exact ensures_function hR
  | parameter =>
    exact ensures_withFirst fun e t ht =>
      ⟨⟨[t], .cons ht .nil, .single (hR _ _ _ ht)⟩, nofun, fun _ => rfl⟩
  | callExpression => exact ensures_call hR
  | newExpression => exact ensures_call hR
  | propertyAccess => exact ensures_access hR
  | objectLiteral => exact ensures_object hR
  | propertyAssignment =>
    -- The handlers of these kinds look at the number of children before anything else.
    match n.children with
    | [_, _] => exact ensures_property hR
    | [] => exact .none
    | [_] => exact .none
    | _ :: _ :: _ :: _ => exact .none
  | arrayLiteral =>
    exact Program.ensures_bind.mpr
      ((ensures_convertDelimited hR (by simp)).mono fun t ht => .some ht)
  | binaryExpression =>
    match n.children with
    | [_, _, _] => exact ensures_binary hR
    | [] => exact .none
    | [_] => exact .none
    | [_, _] => exact .none
    | _ :: _ :: _ :: _ :: _ => exact .none
  | prefixUnary =>
    match n.children with
    | [_, _] => exact ensures_prefixed hR
    | [] => exact .none
    | [_] => exact .none
    | _ :: _ :: _ :: _ => exact .none
  | parenthesized =>
    refine ensures_withFirst fun e t ht => .of_isEmpty_eq_false ⟨[t], .cons ht .nil, ?_⟩ nofun ?_
    · exact (((Holds.single (hR _ _ _ ht)).append (.text ")")).cons_text "(").ofFragments
    · exact Tree.isEmpty_eq_false_of_text rfl (s := "(") (by simp) (by simp)
  | identifier => exact .some (made_text isEmpty_snakeCase).withComments
  | thisKeyword => exact .some (made_text fun he => absurd he (by simp))
  | stringLiteral => exact .some (made_text isEmpty_doubleQuoted).withComments
  | numericLiteral => exact .some (made_text fun he => he).withComments
  | trueKeyword => exact .some (made_text fun he => absurd he (by simp))
  | falseKeyword => exact .some (made_text fun he => absurd he (by simp))
  | emptyStatement => exact .some ⟨⟨[], .nil, Holds.ofFragments .nil⟩, nofun, fun _ => rfl⟩
  | operator _ => exact .none

/-- The parts of a node that no handler takes: the children below a placeholder. -/
def unknownParts (settings : Settings) (c : Context) (n : Ast) : List Part :=
  match settings.unknownNodes with
  | .bestEffort => []
  | .strict => partsUnder c n.children

/-- What stands in for a node that nothing handles gathers its parts. -/
theorem ensures_convertUnknown :
    (convertUnknown job n).Ensures backend.merge (backend.Answers job R) c
      (Gathers job.source R (unknownParts job.settings c n)) := by
  have htext : ∀ text, Gathers job.source R [] (.ofText text) := fun text =>
    ⟨[], .nil, (Holds.text text).ofFragments⟩
  rw [convertUnknown, standIn, unknownParts]
  cases job.settings.unknownNodes with
  | bestEffort => exact htext _
  | strict =>
    match n.children with
    | [] => exact htext _
    | child :: rest =>
      refine Program.ensures_bind.mpr (Program.ensures_bind.mpr (ensures_convertAll ?_))
      intro ts hts
      have hgives : List.Forall₂ (Part.Gives job.source R) (partsUnder c (child :: rest)) ts :=
        forall₂_partsUnder.mpr hts
      exact ⟨ts, hgives, .linesUnder (unkeyed_of_gives hR hgives)⟩

/-- What a node becomes before it is finished: what its handler makes of it, if one does, and its
    text or a placeholder otherwise. -/
theorem ensures_dispatch :
    (backend.dispatch job n).Ensures backend.merge (backend.Answers job R) c fun t =>
      match partsOf job.source c n with
      | some parts => Made job.source R (asksFor c n.kind) (mayVanish job.source c n) parts t
      | none => Gathers job.source R (unknownParts job.settings c n) t := by
  rw [Backend.dispatch]
  refine Program.ensures_bind.mpr ((ensures_handle hR).mono fun o ho => ?_)
  generalize partsOf job.source c n = parts at ho ⊢
  cases ho with
  | some hmade => exact hmade
  | none => exact ensures_convertUnknown hR

omit hR in
/-- A finished output is the output, or the output with the comments before its node in front; it
    is that if the output asks for them and is not empty. -/
theorem finishes_of {t : Tree} {post : Tree → Prop} (ht : t.layout.renderOnce = none)
    (hplain : (t.wantsComments = true → t.isEmpty = true) → post t)
    (hled : ∀ u, Led job.source (comment job.source) n t u → post u) :
    backend.Finishes job n c post t := by
  rw [Backend.Finishes]
  split
  · exact ensures_attachLeadingTrivia eq_comment_of_renders (isEmpty_comment job.source) ht hled
  · rename_i hasks
    refine hplain fun hwants => ?_
    simpa [hwants] using hasks

end

/-! ### Finished outputs -/

/-- A finished output: the comments before its node are in front if it asks for them. -/
def finished (source : String) (n : Ast) (t : Tree) : Tree :=
  if t.wantsComments && !t.isEmpty then withLeading source (comment source) n t else t

section

variable {job : Job} {R : Context → Ast → Tree → Prop} {c : Context} {n : Ast}

/-- An output is finished by putting its comments in front. -/
theorem finishes_of_finished {t : Tree} {post : Tree → Prop} (h : post (finished job.source n t)) :
    backend.Finishes job n c post t := by
  rw [Backend.Finishes]
  rw [finished] at h
  split
  · rename_i hasks
    rw [if_pos hasks] at h
    exact ensures_attach eq_comment_of_renders h
  · rename_i hasks
    rwa [if_neg hasks] at h

/-- What the handler of a node ensures, if it takes the node, its dispatch does. -/
theorem ensures_dispatch_of_handle {post : Tree → Prop}
    (h : (handle job n).Ensures backend.merge (backend.Answers job R) c fun o =>
      ∃ t, o = some t ∧ post t) :
    (backend.dispatch job n).Ensures backend.merge (backend.Answers job R) c post := by
  rw [Backend.dispatch]
  refine Program.ensures_bind.mpr (h.mono fun o ho => ?_)
  obtain ⟨t, rfl, ht⟩ := ho
  exact ht

/-- What a node becomes that its handler takes is the output of the handler, finished. -/
theorem finishes_of_handle {post : Tree → Prop}
    (h : (handle job n).Ensures backend.merge (backend.Answers job R) c fun o =>
      ∃ t, o = some t ∧ post (finished job.source n t)) :
    (backend.dispatch job n).Ensures backend.merge (backend.Answers job R) c
      (backend.Finishes job n c post) :=
  ensures_dispatch_of_handle (h.mono fun _ ⟨t, ho, ht⟩ => ⟨t, ho, finishes_of_finished ht⟩)

end

end Transcode.Target
