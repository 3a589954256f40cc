import Transcode.Proofs.Assembly
import Transcode.Proofs.Visits

namespace Transcode.Target

open Output Engine Script
open Engine.Program (follows_map)

/-!
# What handlers do, in order

Whatever the outputs of nodes turn out to be, a handler has the same nodes converted under the same
contexts: those of its parts.  `stepsOf` puts them in the order in which it does so, with the
diagnostics that it records in between, and `follows_dispatch` says that the dispatch of a node
goes through these steps.
-/

/-! ### Steps of a node -/

/-- The conversions of some parts. -/
def conversions (parts : List Part) : List (Step Kind Context) :=
  parts.map fun p => .convert p.context p.node

/-- The diagnostic about a node that no handler takes. -/
def unsupported (n : Ast) : Diagnostic :=
  diagnosticAt n .error
    ("this language feature (" ++ n.kindName ++ ") is not supported by the translation")

/-- The diagnostic about a `return` outside of functions. -/
def strayReturn (n : Ast) : Diagnostic :=
  diagnosticAt n .warning "`return` outside of a function"

/-- The steps of a node that its handler takes, given its parts.  A `return` may be reported first,
    and the name of a function comes last. -/
def handledSteps (c : Context) (n : Ast) (parts : List Part) : List (Step Kind Context) :=
  match n.kind with
  | .returnStatement =>
    (if c.inFunction then [] else [.report (strayReturn n)]) ++ conversions parts
  | .functionDeclaration => conversions (parts.drop 1) ++ conversions (parts.take 1)
  | _ => conversions parts

/-- The steps of a node: those of its handler, or else those for unknown nodes. -/
def stepsOf (job : Job) (c : Context) (n : Ast) : List (Step Kind Context) :=
  match partsOf job.source c n with
  | some parts => handledSteps c n parts
  | none => .report (unsupported n) :: conversions (unknownParts job.settings c n)

/-- A node is converted in the steps of its parent's handler exactly if it is a part. -/
theorem mem_handledSteps {c c' : Context} {n m : Ast} {parts : List Part} :
    .convert c' m ∈ handledSteps c n parts ↔ ∃ p ∈ parts, p.context = c' ∧ p.node = m := by
  have hconversions : ∀ parts : List Part, Step.convert c' m ∈ conversions parts
      ↔ ∃ p ∈ parts, p.context = c' ∧ p.node = m := by
    simp [conversions]
  rw [handledSteps]
  split
  · rw [List.mem_append, hconversions, or_iff_right]
    split <;> simp
  · rw [List.mem_append, hconversions, hconversions, or_comm]
    conv_rhs => rw [← List.take_append_drop 1 parts]
    simp only [List.mem_append, or_and_right, exists_or]
  · exact hconversions parts

/-- The parts of a node, whether its handler takes it or not. -/
def allPartsOf (job : Job) (c : Context) (n : Ast) : List Part :=
  (partsOf job.source c n).getD (unknownParts job.settings c n)

/-- The nodes that are converted in the steps of a node are those of its parts. -/
theorem mem_stepsOf {job : Job} {c c' : Context} {n m : Ast} :
    .convert c' m ∈ stepsOf job c n ↔ ∃ p ∈ allPartsOf job c n, p.context = c' ∧ p.node = m := by
  rw [stepsOf, allPartsOf]
  cases partsOf job.source c n with
  | some parts => exact mem_handledSteps
  | none => simp [conversions]

/-- Parts are converted in order. -/
theorem conversions_append (parts parts' : List Part) :
    conversions (parts ++ parts') = conversions parts ++ conversions parts' :=
  List.map_append

section

variable {job : Job} {c : Context} {n : Ast} {ns : List Ast} {parts parts' : List Part}
  {α β : Type}

/-! ### Services -/

/-- Under a context every part is converted under it. -/
theorem conversions_partsUnder :
    conversions (partsUnder c ns) = ns.map (.convert c) :=
  List.map_map

/-- One program after another. -/
theorem follows_seq {p : Writing α} {f : α → Writing β} {post : β → Prop}
    (h : p.Follows Context.merge c (conversions parts) fun a =>
      (f a).Follows Context.merge c (conversions parts') post) :
    (p >>= f).Follows Context.merge c (conversions (parts ++ parts')) post := by
  rw [conversions_append]
  exact Program.follows_bind h

/-- One node, and what goes on after it. -/
theorem follows_convertNode {f : Tree → Writing α} {post : α → Prop}
    (h : ∀ t, (f t).Follows Context.merge c (conversions parts) post) :
    (convertNode n >>= f).Follows Context.merge c (conversions (partsUnder c [n] ++ parts)) post :=
  ⟨_, rfl, h⟩

/-- One node under an update, and what goes on after it. -/
theorem follows_convertUnder {update : Context} {f : Tree → Writing α} {post : α → Prop}
    (h : ∀ t, (f t).Follows Context.merge c (conversions parts) post) :
    (convertUnder update n >>= f).Follows Context.merge c
      (conversions (partsUnder (c.merge update) [n] ++ parts)) post :=
  ⟨_, _, rfl, _, rfl, fun t => ⟨rfl, h t⟩⟩

/-- What goes on after a look at the context. -/
theorem follows_context {f : Context → Writing α} {steps : List (Step Kind Context)}
    {post : α → Prop} (h : (f c).Follows Context.merge c steps post) :
    (Program.context >>= f).Follows Context.merge c steps post := by
  rintro v rfl
  exact h

/-- What goes on after a diagnostic. -/
theorem follows_record {entry : Diagnostic} {f : Unit → Writing α}
    {steps : List (Step Kind Context)}
    {post : α → Prop} (h : (f ()).Follows Context.merge c steps post) :
    (Program.record entry >>= f).Follows Context.merge c (.report entry :: steps) post :=
  ⟨_, rfl, h⟩

/-- Nodes in order are converted in order. -/
theorem follows_convertAll :
    (convertAll ns : Writing (List Tree)).Follows Context.merge c (conversions (partsUnder c ns))
      fun _ => True := by
  rw [conversions_partsUnder]
  exact Program.follows_askAll

/-! ### Suites and clauses -/

/-- Joined statements are converted in order, with nothing else in between. -/
theorem follows_joinAfter {source : String} {previous : Option Ast} :
    (joinAfter source previous ns : Writing (List Fragment)).Follows Context.merge c
      (conversions (partsUnder c ns)) fun _ => True := by
  induction ns generalizing previous with
  | nil => exact ⟨rfl, trivial⟩
  | cons n ns ih =>
    rw [joinAfter]
    refine follows_convertNode fun t => ?_
    split
    · exact ih
    · exact follows_map (ih.mono fun _ _ => ⟨rfl, trivial⟩)

/-- A suite converts its statements. -/
theorem follows_suite {s : Ast} :
    (suite job s).Follows Context.merge c (conversions (suiteParts c s)) fun _ => True :=
  follows_map (follows_joinAfter.mono fun _ _ => ⟨rfl, trivial⟩)

/-- Something made of an output that there is if the parts are there. -/
theorem follows_some {f : Tree → Tree} {p : Writing (Option Tree)} {o : Option (List Part)}
    (h : p.Follows Context.merge c (conversions (o.getD [])) fun t => t.isSome = o.isSome) :
    (p >>= fun t => pure (t.map f)).Follows Context.merge c (conversions (o.getD []))
      fun t => t.isSome = o.isSome :=
  follows_map (h.mono fun _ ht => ⟨rfl, Option.isSome_map.trans ht⟩)

/-- A clause converts its condition, its suite and what comes in its `else`, by induction on that.
    -/
theorem follows_ifClause {keyword : String} :
    (ifClause job keyword n).Follows Context.merge c (conversions ((ifParts c n).getD []))
      fun t => t.isSome = (ifParts c n).isSome := by
  induction keyword, n using ifClause.induct with
  | case1 keyword kind fullStart start stop condition branch rest ih =>
    rw [ifClause]
    cases rest with
    | nil =>
      rw [ifParts, Option.getD_some, ← List.append_nil (_ ++ _), List.append_assoc]
      refine follows_convertNode fun a => follows_seq (follows_suite.mono fun b _ => ?_)
      exact ⟨rfl, rfl⟩
    | cons otherwise rest =>
      rw [ifParts, Option.getD_some, List.append_assoc]
      refine follows_convertNode fun a => follows_seq (follows_suite.mono fun b _ => ?_)
      by_cases hkind : otherwise.kind = .ifStatement
      · simp only [if_pos hkind]
        exact follows_map (ih.mono fun _ _ => ⟨rfl, rfl⟩)
      · simp only [if_neg hkind]
        exact follows_map (follows_suite.mono fun _ _ => ⟨rfl, rfl⟩)
  | case2 n keyword hn =>
    rw [ifClause, ifParts]
    · exact ⟨rfl, rfl⟩
    · exact fun _ _ _ _ condition branch => hn _ _ _ _ condition branch []
    · exact fun _ _ _ _ condition branch first rest => hn _ _ _ _ condition branch (first :: rest)
    · exact hn

/-! ### Calls, objects and lists -/

/-- Arguments are converted as values, the last one perhaps as a list of keywords. -/
theorem follows_convertArguments :
    (convertArguments ns).Follows Context.merge c (conversions (argumentParts c ns))
      fun _ => True := by
  induction ns using convertArguments.induct with
  | case1 => exact ⟨rfl, trivial⟩
  | case2 last => exact follows_convertUnder fun t => ⟨rfl, trivial⟩
  | case3 argument rest hrest ih =>
    rw [convertArguments, argumentParts]
    · exact follows_convertUnder fun t => follows_map (ih.mono fun _ _ => ⟨rfl, trivial⟩)
    · exact hrest
    · exact hrest

/-- What a handler does: the conversions of its parts if there are any to speak of, and then there
    is an output, and nothing otherwise. -/
def Handles (p : Writing (Option Tree)) (c : Context) (parts : Option (List Part)) : Prop :=
  p.Follows Context.merge c (conversions (parts.getD [])) fun t => t.isSome = parts.isSome

/-- A handler that declines. -/
theorem handles_none : Handles (pure none) c none :=
  ⟨rfl, rfl⟩

/-- A call converts what it calls and then the arguments. -/
theorem handles_call : Handles (call ns) c (callParts c ns) := by
  cases ns with
  | nil => exact handles_none
  | cons callee arguments =>
    exact follows_convertUnder fun t => follows_map (follows_convertArguments.mono fun _ _ =>
      ⟨rfl, rfl⟩)

/-- Keyword arguments are converted in order, each with the comments before it or without. -/
theorem follows_keywordArguments {led : Bool} :
    (keywordArguments job ns).Follows Context.merge c
      (conversions (ns.map fun p => { context := c, node := p, led := led })) fun _ => True := by
  induction ns with
  | nil => exact ⟨rfl, trivial⟩
  | cons n ns ih =>
    have hargument : (keywordArgument job n).Follows Context.merge c
        (conversions (partsUnder c [n] ++ [])) fun _ => True :=
      follows_convertNode fun t =>
        follows_map ((silent_attachLeadingTrivia ..).follows.mono fun _ _ => ⟨rfl, trivial⟩)
    refine Program.follows_bind (hargument.mono fun _ _ => ?_)
    exact follows_map (ih.mono fun _ _ => ⟨rfl, trivial⟩)

/-- Elements are converted in order, under an update or not. -/
theorem follows_convertElements {source : String} {update : Option Context} {start : Nat} :
    (convertElements source update start ns : Writing (List Fragment)).Follows Context.merge c
      (conversions (partsUnder (update.elim c c.merge) ns)) fun _ => True := by
  induction ns generalizing start with
  | nil => exact ⟨rfl, trivial⟩
  | cons n ns ih =>
    cases update with
    | none =>
      exact follows_convertNode fun t => follows_map (ih.mono fun _ _ => ⟨rfl, trivial⟩)
    | some update =>
      exact follows_convertUnder fun t => follows_map (ih.mono fun _ _ => ⟨rfl, trivial⟩)

/-- So are the elements between delimiters. -/
theorem follows_convertDelimited {source : String} {parent : Ast} {layout : Delimited Context} :
    (convertDelimited source parent ns layout : Writing Tree).Follows Context.merge c
      (conversions (partsUnder (layout.context.elim c c.merge) ns)) fun _ => True :=
  follows_map (follows_convertElements.mono fun _ _ => ⟨rfl, trivial⟩)

/-- An object converts its properties. -/
theorem handles_object :
    Handles (object job n) c
      (some (n.children.map fun p => { context := c, node := p, led := c.keywordArgs })) := by
  refine follows_context ?_
  by_cases hkeywords : c.keywordArgs
  · rw [if_pos hkeywords]
    exact follows_map (follows_keywordArguments.mono fun _ _ => ⟨rfl, rfl⟩)
  · rw [if_neg hkeywords]
    have hparts : conversions
        (n.children.map fun p => { context := c, node := p, led := c.keywordArgs })
          = conversions (partsUnder c n.children) := by
      rw [conversions_partsUnder, conversions, List.map_map]
      rfl
    rw [Option.getD_some, hparts]
    exact follows_map (follows_convertDelimited.mono fun _ _ => ⟨rfl, rfl⟩)

/-- A property converts its value. -/
theorem handles_property {key value : Ast} :
    Handles (property job [key, value]) c (some (partsUnder (c.merge .value) [value])) := by
  rw [Handles, Option.getD_some, ← List.append_nil (partsUnder _ _)]
  refine follows_convertUnder fun t => follows_context ?_
  by_cases hkeywords : c.keywordArgs
  · rw [if_pos hkeywords]
    exact ⟨rfl, rfl⟩
  · rw [if_neg hkeywords]
    exact ⟨rfl, rfl⟩

/-! ### Operators and members -/

/-- A binary expression converts its operands if it has an operator. -/
theorem handles_binary {left operator right : Ast} :
    Handles (binary job [left, operator, right]) c
      ((operatorOf operator).map fun _ => partsUnder c [left, right]) := by
  rw [binary]
  cases operatorOf operator with
  | none => exact handles_none
  | some token => exact follows_convertNode fun l => follows_convertNode fun r => ⟨rfl, rfl⟩

/-- An operator in front has its operand converted. -/
theorem handles_prefixed {operator operand : Ast} :
    Handles (prefixed job [operator, operand]) c
      ((operatorOf operator).map fun _ => partsUnder c [operand]) := by
  rw [prefixed]
  cases operatorOf operator with
  | none => exact handles_none
  | some token => exact follows_convertNode fun t => ⟨rfl, rfl⟩

/-- A member converts its object and its name, unless it is printed as a whole. -/
theorem handles_access : Handles (access job n) c (accessParts job.source c n) := by
  rw [access, accessParts]
  by_cases hlog : n.textIn job.source = "console.log"
  · rw [if_pos hlog, if_pos hlog]
    exact ⟨rfl, rfl⟩
  · rw [if_neg hlog, if_neg hlog]
    rcases n.children with _ | ⟨object, _ | ⟨name, _ | ⟨third, rest⟩⟩⟩
    · exact handles_none
    · exact handles_none
    · exact follows_convertUnder fun o => follows_convertNode fun m => ⟨rfl, rfl⟩
    · exact handles_none

/-! ### Statements -/

/-- A declaration converts its name and its value if it has one. -/
theorem handles_declaration : Handles (declaration ns) c (declarationParts c ns) := by
  match ns with
  | [] => exact handles_none
  | [name] => exact follows_convertNode fun a => ⟨rfl, rfl⟩
  | name :: init :: _ =>
    exact follows_convertNode fun a => follows_convertUnder fun v => ⟨rfl, rfl⟩

/-- The first child is converted if there is one. -/
theorem handles_withFirst {f : Tree → Tree} :
    Handles (withFirst f ns) c (ns.head?.map fun e => partsUnder c [e]) := by
  cases ns with
  | nil => exact handles_none
  | cons e rest => exact follows_convertNode fun t => ⟨rfl, rfl⟩

/-- The steps of a `return` begin with the report, if there is one. -/
theorem follows_returned :
    (returned n).Follows Context.merge c
      ((if c.inFunction then [] else [.report (strayReturn n)])
        ++ conversions (partsUnder (c.merge .value) (n.children.take 1)))
      fun t => t.isSome = true := by
  rw [returned]
  refine follows_context ?_
  generalize n.children = ns
  cases c.inFunction with
  | true =>
    cases ns with
    | nil => exact ⟨rfl, rfl⟩
    | cons value rest => exact follows_convertUnder fun v => ⟨rfl, rfl⟩
  | false =>
    refine ⟨_, rfl, ?_⟩
    cases ns with
    | nil => exact ⟨rfl, rfl⟩
    | cons value rest => exact follows_convertUnder fun v => ⟨rfl, rfl⟩

/-- The steps of a function end with its name. -/
theorem follows_function :
    (function job ns).Follows Context.merge c
      (conversions (((functionParts c ns).getD []).drop 1)
        ++ conversions (((functionParts c ns).getD []).take 1))
      fun t => t.isSome = (functionParts c ns).isSome := by
  match ns with
  | [] => exact handles_none
  | [_] => exact handles_none
  | name :: p :: more =>
    rw [← conversions_append, functionParts, Option.getD_some]
    -- The name is the first of the parts, and converted last.
    simp only [partsUnder, List.map_cons, List.cons_append, List.drop_one, List.tail_cons,
      List.take_succ_cons, List.take_zero]
    rw [List.append_assoc]
    refine follows_seq (follows_convertAll.mono fun _ _ => ?_)
    refine follows_seq ⟨_, _, (List.append_nil _).symm, follows_suite.mono fun _ _ => ⟨rfl, ?_⟩⟩
    exact follows_convertNode fun a => ⟨rfl, rfl⟩

/-! ### All kinds of nodes -/

/-- Most handlers do the conversions of their parts and nothing else. -/
theorem handles_handle (hreturn : n.kind ≠ .returnStatement)
    (hfunction : n.kind ≠ .functionDeclaration) :
    Handles (handle job n) c (partsOf job.source c n) := by
  rw [handle, partsOf]
  cases hkind : n.kind with
  | sourceFile | block => exact follows_map (follows_joinAfter.mono fun _ _ => ⟨rfl, rfl⟩)
  | expressionStatement | parameter | parenthesized => exact handles_withFirst
  | variableStatement => exact follows_map (follows_convertAll.mono fun _ _ => ⟨rfl, rfl⟩)
  | variableDeclaration => exact handles_declaration
  | ifStatement => exact follows_some follows_ifClause
  | whileStatement | operator => exact handles_none
  | returnStatement => exact absurd hkind hreturn
  | functionDeclaration => exact absurd hkind hfunction
  | callExpression | newExpression => exact handles_call
  | propertyAccess => exact handles_access
  | objectLiteral => exact handles_object
  | propertyAssignment =>
    rcases n.children with _ | ⟨key, _ | ⟨value, _ | ⟨third, rest⟩⟩⟩
    · exact handles_none
    · exact handles_none
    · exact handles_property
    · exact handles_none
  | arrayLiteral => exact follows_map (follows_convertDelimited.mono fun _ _ => ⟨rfl, rfl⟩)
  | binaryExpression =>
    rcases n.children with _ | ⟨left, _ | ⟨operator, _ | ⟨right, _ | ⟨fourth, rest⟩⟩⟩⟩
    · exact handles_none
    · exact handles_none
    · exact handles_none
    · exact handles_binary
    · exact handles_none
  | prefixUnary =>
    rcases n.children with _ | ⟨operator, _ | ⟨operand, _ | ⟨third, rest⟩⟩⟩
    · exact handles_none
    · exact handles_none
    · exact handles_prefixed
    · exact handles_none
  | identifier | thisKeyword | stringLiteral | numericLiteral | trueKeyword | falseKeyword
  | emptyStatement => exact ⟨rfl, rfl⟩

/-- The steps of a handler. -/
theorem follows_handle :
    (handle job n).Follows Context.merge c
      ((partsOf job.source c n).elim [] (handledSteps c n))
      fun t => t.isSome = (partsOf job.source c n).isSome := by
  -- A `return` may report first, and a function has its name converted last.
  by_cases hreturn : n.kind = .returnStatement
  · have hsteps := follows_returned (n := n) (c := c)
    rw [handle, partsOf]
    simp only [hreturn, handledSteps, Option.elim_some, Option.isSome_some]
    exact hsteps
  by_cases hfunction : n.kind = .functionDeclaration
  · rw [handle, partsOf]
    simp only [hfunction]
    have hsteps : (function job n.children).Follows Context.merge c _ _ := follows_function
    generalize functionParts c n.children = parts at hsteps ⊢
    cases parts with
    | none => exact hsteps
    | some parts =>
      rw [Option.elim_some, handledSteps]
      simp only [hfunction]
      exact hsteps
  · have hsteps : Handles (handle job n) c (partsOf job.source c n) :=
      handles_handle hreturn hfunction
    rw [Handles] at hsteps
    generalize partsOf job.source c n = parts at hsteps ⊢
    cases parts with
    | none => exact hsteps
    | some parts =>
      have hplain : handledSteps c n parts = conversions parts := by
        rw [handledSteps]
        split
        · exact absurd ‹_› hreturn
        · exact absurd ‹_› hfunction
        · rfl
      rw [Option.elim_some, hplain]
      exact hsteps

/-- A node that nothing handles is reported before its children are converted. -/
theorem follows_convertUnknown :
    (convertUnknown job n : Writing Tree).Follows Context.merge c
      (.report (unsupported n) :: conversions (unknownParts job.settings c n)) fun _ => True := by
  refine follows_record ?_
  rw [standIn, unknownParts]
  cases job.settings.unknownNodes with
  | bestEffort => exact ⟨rfl, trivial⟩
  | strict =>
    cases n.children with
    | nil => exact ⟨rfl, trivial⟩
    | cons child rest => exact follows_map (follows_convertAll.mono fun _ _ => ⟨rfl, trivial⟩)

/-- **What a node has done.**  The dispatch of a node goes through its steps. -/
theorem follows_dispatch :
    (backend.dispatch job n).Follows backend.merge c (stepsOf job c n) fun _ => True := by
  have hhandle : (handle job n).Follows Context.merge c _ _ := follows_handle
  rw [stepsOf]
  generalize partsOf job.source c n = parts at hhandle ⊢
  -- A handler without parts has no steps and declines, and what is unknown has its own.
  cases parts with
  | none =>
    rw [← List.nil_append (_ :: _)]
    refine Program.follows_bind (hhandle.mono fun o ho => ?_)
    cases o with
    | some output => cases ho
    | none => exact follows_convertUnknown
  | some parts =>
    refine follows_map (hhandle.mono fun o ho => ?_)
    cases o with
    | some output => exact ⟨rfl, trivial⟩
    | none => cases ho

end

end Transcode.Target
