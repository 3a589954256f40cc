import Transcode.Proofs.Forms
import Transcode.Proofs.Meaning
import Transcode.Proofs.Reports
import Transcode.Proofs.Steps
import Transcode.Proofs.Strategies

namespace Transcode.Target

open Output Engine Script

/-!
# Outputs without a run

The handlers look at nothing of a run but the context (`lexical_backend`), so that
`outputOf job refused left c n` is the output of the node `n` under the context `c`, whatever else
was converted before it.  Where comments are asked for, they are put in front as `finished` says.
-/

variable {job : Job} {source : String} {n : Ast} {ns : List Ast}

/-! ### Handlers look at contexts only -/

/-- A conversion is a request alone. -/
theorem lexical_convertNode : (convertNode n : Writing Tree).Lexical :=
  Program.lexical_ask

/-- Pushing a context and popping it looks at no other. -/
theorem lexical_convertUnder {update : Context} : (convertUnder update n : Writing Tree).Lexical :=
  lexical_convertNode.under

/-- Conversions in order are requests. -/
theorem lexical_convertAll : (convertAll ns : Writing (List Tree)).Lexical :=
  Program.lexical_askAll

/-- Joining statements looks at outputs and at the source. -/
theorem lexical_joinAfter {previous : Option Ast} :
    (joinAfter source previous ns : Writing (List Fragment)).Lexical := by
  induction ns generalizing previous with
  | nil => exact trivial
  | cons n ns ih =>
    rw [joinAfter]
    refine Program.lexical_bind lexical_convertNode fun t => ?_
    split
    · exact ih
    · exact ih.map

/-- A suite is joined statements. -/
theorem lexical_suite {statement : Ast} : (suite job statement).Lexical :=
  lexical_joinAfter.map

/-- A clause, by induction on the choices in its `else`. -/
theorem lexical_ifClause {keyword : String} : (ifClause job keyword n).Lexical := by
  induction keyword, n using ifClause.induct with
  | case1 keyword kind fullStart start stop condition branch rest ih =>
    rw [ifClause]
    refine Program.lexical_bind lexical_convertNode fun a => ?_
    refine Program.lexical_bind lexical_suite fun b => ?_
    cases rest with
    | nil => exact trivial
    | cons otherwise rest =>
      by_cases hkind : otherwise.kind = .ifStatement
      · simp only [if_pos hkind]
        exact ih.map
      · simp only [if_neg hkind]
        exact lexical_suite.map
  | case2 n keyword hn =>
    rw [ifClause]
    · exact trivial
    · exact hn

/-- Arguments are conversions under a context. -/
theorem lexical_convertArguments : (convertArguments ns).Lexical := by
  induction ns using convertArguments.induct with
  | case1 => exact trivial
  | case2 last => exact lexical_convertUnder.map
  | case3 argument rest hrest ih =>
    rw [convertArguments]
    · exact Program.lexical_bind lexical_convertUnder fun t => ih.map
    · exact hrest

/-- A call is conversions of what it calls and of the arguments. -/
theorem lexical_call : (call ns).Lexical := by
  cases ns with
  | nil => exact trivial
  | cons callee arguments =>
    exact Program.lexical_bind lexical_convertUnder fun t =>
      lexical_convertArguments.map

/-- Keyword arguments ask for conversions and for comments. -/
theorem lexical_keywordArguments : (keywordArguments job ns).Lexical := by
  induction ns with
  | nil => exact trivial
  | cons n ns ih =>
    have hargument : (keywordArgument job n).Lexical :=
      Program.lexical_bind lexical_convertNode fun t =>
        (lexical_attachLeadingTrivia ..).mapRequests.map
    exact Program.lexical_bind hargument fun t => ih.map

/-- Elements are conversions, under a context or not. -/
theorem lexical_convertElements {update : Option Context} {start : Nat} :
    (convertElements source update start ns : Writing (List Fragment)).Lexical := by
  induction ns generalizing start with
  | nil => exact trivial
  | cons n ns ih =>
    cases update with
    | none => exact Program.lexical_bind lexical_convertNode fun t => ih.map
    | some update => exact Program.lexical_bind lexical_convertUnder fun t => ih.map

/-- A list is its elements with text around them. -/
theorem lexical_convertDelimited {parent : Ast} {layout : Delimited Context} :
    (convertDelimited source parent ns layout : Writing Tree).Lexical :=
  lexical_convertElements.map

/-- An object depends on whether it is at the end of a call. -/
theorem lexical_object : (object job n).Lexical := by
  refine Program.lexical_bind Program.lexical_context fun c => ?_
  split
  · exact lexical_keywordArguments.map
  · exact lexical_convertDelimited.map

/-- A property depends on whether it is a keyword argument. -/
theorem lexical_property : (property job ns).Lexical := by
  rcases ns with _ | ⟨key, _ | ⟨value, _ | ⟨third, rest⟩⟩⟩
  · exact trivial
  · exact trivial
  · refine Program.lexical_bind lexical_convertUnder fun t =>
      Program.lexical_bind Program.lexical_context fun c => ?_
    split <;> exact trivial
  · exact trivial

/-- A binary expression is conversions of its operands. -/
theorem lexical_binary : (binary job ns).Lexical := by
  rcases ns with _ | ⟨left, _ | ⟨operator, _ | ⟨right, _ | ⟨fourth, rest⟩⟩⟩⟩
  · exact trivial
  · exact trivial
  · exact trivial
  · rw [binary]
    cases operatorOf operator with
    | none => exact trivial
    | some token =>
      exact Program.lexical_bind lexical_convertNode fun l =>
        lexical_convertNode.map
  · exact trivial

/-- An operator in front leaves one operand to convert. -/
theorem lexical_prefixed : (prefixed job ns).Lexical := by
  rcases ns with _ | ⟨operator, _ | ⟨operand, _ | ⟨third, rest⟩⟩⟩
  · exact trivial
  · exact trivial
  · rw [prefixed]
    cases operatorOf operator with
    | none => exact trivial
    | some token => exact lexical_convertNode.map
  · exact trivial

/-- A member leaves an object and a name to convert. -/
theorem lexical_access : (access job n).Lexical := by
  rw [access]
  split
  · exact trivial
  · split
    · exact Program.lexical_bind lexical_convertUnder fun o =>
        lexical_convertNode.map
    · exact trivial

/-- A declaration leaves a name and perhaps a value to convert. -/
theorem lexical_declaration : (declaration ns).Lexical := by
  match ns with
  | [] => exact trivial
  | [name] => exact lexical_convertNode.map
  | name :: init :: _ =>
    exact Program.lexical_bind lexical_convertNode fun a =>
      lexical_convertUnder.map

/-- A result depends on whether a function is around it. -/
theorem lexical_returned : (returned n).Lexical := by
  refine Program.lexical_bind Program.lexical_context fun c => ?_
  cases c.inFunction <;> cases n.children with
  | nil => exact trivial
  | cons value rest => exact lexical_convertUnder.map

/-- A function has its body under a context that is popped again. -/
theorem lexical_function : (function job ns).Lexical := by
  match ns with
  | [] | [_] => exact trivial
  | name :: p :: more =>
    exact Program.lexical_bind lexical_convertAll fun ps => Program.lexical_bind
      lexical_suite.under fun body => lexical_convertNode.map

/-- What only has its first child converted. -/
theorem lexical_withFirst {f : Tree → Tree} : (withFirst f ns).Lexical := by
  cases ns with
  | nil => exact trivial
  | cons e rest => exact lexical_convertNode.map

/-- Every handler looks at contexts only, by the sort of the node. -/
theorem lexical_handle : (handle job n).Lexical := by
  rw [handle]
  cases n.kind with
  | sourceFile | block => exact lexical_joinAfter.map
  | expressionStatement | parameter | parenthesized => exact lexical_withFirst
  | variableStatement => exact lexical_convertAll.map
  | variableDeclaration => exact lexical_declaration
  | ifStatement => exact lexical_ifClause.map
  | returnStatement => exact lexical_returned
  | functionDeclaration => exact lexical_function
  | callExpression | newExpression => exact lexical_call
  | propertyAccess => exact lexical_access
  | objectLiteral => exact lexical_object
  | propertyAssignment => exact lexical_property
  | arrayLiteral => exact lexical_convertDelimited.map
  | binaryExpression => exact lexical_binary
  | prefixUnary => exact lexical_prefixed
  | whileStatement | operator | identifier | thisKeyword | stringLiteral | numericLiteral
  | trueKeyword | falseKeyword | emptyStatement => exact trivial

/-- So does what stands in for a node that nothing handles. -/
theorem lexical_convertUnknown : (convertUnknown job n : Writing Tree).Lexical := by
  refine Program.lexical_bind Program.lexical_record fun _ => ?_
  rw [standIn]
  cases job.settings.unknownNodes with
  | bestEffort => exact trivial
  | strict =>
    cases n.children with
    | nil => exact trivial
    | cons child rest => exact lexical_convertAll.map

/-- The backend's programs look at nothing of a run but the context. -/
theorem lexical_backend : backend.Lexical job where
  comment _ := trivial
  dispatch n := by
    refine Program.lexical_bind lexical_handle fun output => ?_
    cases output with
    | some output => exact trivial
    | none => exact lexical_convertUnknown

/-! ### What handlers decline -/

/-- Handlers take all nodes but loops and operators. -/
theorem isSome_partsOf {c : Context} (hform : Form n.kind n.children)
    (hwhile : n.kind ≠ .whileStatement) (hoperator : ∀ t, n.kind ≠ .operator t) :
    (partsOf source c n).isSome = true := by
  obtain ⟨kind, fullStart, start, stop, children⟩ := n
  cases hform with
  | whileDo => exact absurd rfl hwhile
  | leaf ht =>
    cases kind with
    | operator t => exact absurd rfl (hoperator t)
    | _ => first | rfl | cases ht
  | member =>
    show (accessParts source c _).isSome = true
    rw [accessParts]
    split <;> rfl
  | @function name ns body => cases ns <;> rfl
  | binary _ hop | prefixed hop _ =>
    obtain ⟨t, ht⟩ := hop.token
    simp only [partsOf, operatorOf, ht]
    rfl
  | _ => rfl

/-! ### Statements in order -/

/-- Some nodes with their outputs, laid out with line breaks in between.  An output that is empty is
    passed over; `previous` is the last node before whose output was not. -/
def laid (source : String) (previous : Option Ast) : List (Ast × Tree) → List Fragment
  | [] => []
  | (n, t) :: rest =>
    if t.isEmpty then laid source previous rest
    else
      (previous.map fun p =>
          .text (Trivia.blankLineSeparator (blankLinesBetween source p n))).toList
        ++ t.toFragment :: laid source (some n) rest

section

variable {previous : Option Ast} {p : Ast × Tree} {ps qs : List (Ast × Tree)}

/-- An output that is empty leaves no line. -/
theorem laid_of_isEmpty (h : p.2.isEmpty = true) :
    laid source previous (p :: ps) = laid source previous ps :=
  if_pos h

/-- The first line has no break before it. -/
theorem laid_none (h : p.2.isEmpty = false) :
    laid source none (p :: ps) = p.2.toFragment :: laid source (some p.1) ps :=
  if_neg (by rw [h]; exact Bool.false_ne_true)

/-- A later line has the break before it that keeps its blank line. -/
theorem laid_some {q : Ast} (h : p.2.isEmpty = false) :
    laid source (some q) (p :: ps)
      = .text (Trivia.blankLineSeparator (blankLinesBetween source q p.1)) :: p.2.toFragment
        :: laid source (some p.1) ps :=
  if_neg (by rw [h]; exact Bool.false_ne_true)

/-- Joining nodes lays out what they become. -/
theorem ensures_laid {R : Context → Ast → Tree → Prop} {c : Context}
    {post : List Fragment → Prop}
    (h : ∀ ts, List.Forall₂ (R c) ns ts → post (laid source previous (ns.zip ts))) :
    (joinAfter source previous ns).Ensures backend.merge (backend.Answers job R) c post := by
  induction ns generalizing previous post with
  | nil => exact h [] .nil
  | cons n ns ih =>
    rw [joinAfter]
    refine Program.ensures_bind.mpr (ensures_convertNode.mpr fun t ht => ?_)
    split
    · rename_i hempty
      refine ih fun ts hts => ?_
      have hpost := h (t :: ts) (.cons ht hts)
      rwa [List.zip_cons_cons, laid_of_isEmpty hempty] at hpost
    · rename_i hempty
      rw [Bool.not_eq_true] at hempty
      refine Program.ensures_bind.mpr (ih fun ts hts => ?_)
      have hpost := h (t :: ts) (.cons ht hts)
      cases previous with
      | none => rwa [List.zip_cons_cons, laid_none hempty] at hpost
      | some q => rwa [List.zip_cons_cons, laid_some hempty] at hpost

end

/-! ### Requests -/

section

variable {output : Context → Ast → Option Tree} {c : Context}

/-- A conversion is answered with the output of the node. -/
@[simp] theorem answer?_convert : backend.answer? job output c (.convert n) = output c n := rfl

/-- A comment is answered with its lines. -/
@[simp] theorem answer?_comment {span : Trivia.Span} :
    backend.answer? job output c (.comment span) = some (comment job.source span) := rfl

/-- The comments before a node are put in front of its output. -/
@[simp] theorem value?_attachLeadingTrivia {merge : Context → Context → Context} {t : Tree} :
    (attachLeadingTrivia source n t).value? merge (fun _ span => some (comment source span)) c
      = some (withLeading source (comment source) n t) := by
  have hsome : ((attachLeadingTrivia source n t).value? merge
      (fun _ span => some (comment source span)) c).isSome = true :=
    Program.isSome_value? fun _ _ => rfl
  obtain ⟨u, hu⟩ := Option.isSome_iff_exists.mp hsome
  have hensures : (attachLeadingTrivia source n t).Ensures merge
      (fun _ span u => u = comment source span) c
      (· = withLeading source (comment source) n t) :=
    ensures_attach (fun _ _ _ h => h) rfl
  rw [hu, hensures.of_value? (fun _ _ _ h => (Option.some.inj h).symm) hu]

end

/-- What it takes for a program to have a value: a source, and what nodes come to. -/
structure Setting where
  job : Job
  output : Context → Ast → Option Tree

/-- The value of a program. -/
def Setting.value? (I : Setting) {α : Type} (p : Writing α) (c : Context) : Option α :=
  p.value? Context.merge (backend.answer? I.job I.output) c

/-- The output of a node is what its dispatch comes to, given the outputs with one level less, with
    the comments before the node in front of it if it asks for them. -/
theorem output?_succ {refused : Ast → Option Tree} {left : Nat} {c : Context} :
    backend.output? job refused (left + 1) c n
      = (Setting.value? ⟨job, backend.output? job refused left⟩ (backend.dispatch job n) c).map
          (finished job.source n) := by
  have hattach : ∀ t : Tree,
      (attachLeadingTrivia job.source n t).value? backend.merge (backend.comment? job) c
        = some (withLeading job.source (comment job.source) n t) := fun t =>
    value?_attachLeadingTrivia
  have hfinish : backend.finish? job c n = fun t => some (finished job.source n t) := by
    funext t
    rw [Backend.finish?, finished, hattach t]
    split <;> rfl
  rw [Backend.output?, hfinish]
  exact Option.map_eq_bind.symm

/-- What the dispatch of a node ensures, given what the outputs with one level less are, holds of the
    output before it is finished. -/
theorem exists_dispatched {refused : Ast → Option Tree} {left : Nat} {c : Context} {t : Tree}
    (ht : backend.output? job refused (left + 1) c n = some t) :
    ∃ u, t = finished job.source n u ∧ ∀ post : Tree → Prop,
      (backend.dispatch job n).Ensures backend.merge
        (backend.Answers job fun c m t => backend.output? job refused left c m = some t) c post →
      post u := by
  rw [output?_succ] at ht
  obtain ⟨u, hu, rfl⟩ := Option.map_eq_some_iff.mp ht
  refine ⟨u, rfl, fun post hpost => hpost.of_value? (fun c request t hrequest => ?_) hu⟩
  cases request with
  | convert m => exact hrequest
  | comment span => exact Backend.renders_of_comment? hrequest

/-- The code of a source is what the output of its tree renders to. -/
theorem exists_conversion {settings : Settings} {refused : Ast → Option Tree} {root : Ast}
    {t : Tree} (h : parse source = .ok root)
    (hrefused : ∀ n t, refused n = some t → t = .ofText (n.textIn source))
    (ht : backend.output? { source, settings } refused settings.depthLimit backend.initial root
      = some t) :
    ∃ conversion, toPython source settings = .ok conversion ∧ conversion.code = render t := by
  have hlexical : backend.Lexical { source, settings } := lexical_backend
  obtain ⟨outcome, houtcome, rfl⟩ := Backend.convertRoot_of_output? hlexical hrefused ht
  exact ⟨_, toPython_of_parse h houtcome, renderWith_eq _ _⟩

end Transcode.Target
