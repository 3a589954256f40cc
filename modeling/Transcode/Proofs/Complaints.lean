import Transcode.Proofs.CommentOrder
import Transcode.Proofs.Copies
import Transcode.Proofs.Steps

namespace Transcode

/-!
# What is reported elsewhere

The steps of a node are those of its parts, which handlers find by the kinds of nodes.  So a node
elsewhere goes through the same steps with the nodes that are elsewhere too (`stepsOf_relocate`),
and what is reported on the way is the same about these nodes (`complaints_relocate`).
-/

open Engine Script

namespace Engine

variable {κ C : Type}

/-- A step with nodes elsewhere, and what it reports about them. -/
def Step.relocate (m : Relocation) (f : Diagnostic → Diagnostic) : Step κ C → Step κ C
  | convert c n => convert c (n.relocate m)
  | report entry => report (f entry)

end Engine

namespace Target

section

variable {m : Relocation} {c : Context} {n : Ast} {ns : List Ast} {source source' : String}
  {parts : List Part}

/-- A part elsewhere. -/
def Part.relocate (m : Relocation) (p : Part) : Part :=
  { p with node := p.node.relocate m }

/-- The parts under a context move with the nodes, -/
theorem partsUnder_relocate :
    partsUnder c (ns.map (Node.relocate m)) = (partsUnder c ns).map (Part.relocate m) := by
  rw [partsUnder, partsUnder, List.map_map, List.map_map]
  rfl

/-- and so do those of a suite, -/
theorem suiteParts_relocate :
    suiteParts c (n.relocate m) = (suiteParts c n).map (Part.relocate m) := by
  rw [suiteParts, suiteParts, Node.kind_relocate, Node.children_relocate, ← partsUnder_relocate]
  split <;> rfl

/-- of a choice, by induction on what comes in its `else`, -/
theorem ifParts_relocate :
    ifParts c (n.relocate m) = (ifParts c n).map (List.map (Part.relocate m)) := by
  induction n using ifParts.induct c with
  | case1 kind fullStart start stop condition branch =>
    rw [Node.relocate_mk]
    simp only [List.map_cons, List.map_nil, ifParts, Option.map_some, List.map_append,
      suiteParts_relocate]
    rfl
  | case2 kind fullStart start stop condition branch otherwise rest ih =>
    rw [Node.relocate_mk]
    simp only [List.map_cons, ifParts, Option.map_some, List.map_append, suiteParts_relocate,
      Node.kind_relocate, ih]
    split
    · cases ifParts c otherwise <;> rfl
    · rfl
  | case3 n hnone hshort =>
    -- With fewer than two children there are no clauses, here or there.
    obtain ⟨kind, fullStart, start, stop, children⟩ := n
    rw [Node.relocate_mk]
    rcases children with _ | ⟨first, _ | ⟨second, _ | ⟨third, rest⟩⟩⟩
    · rfl
    · rfl
    · exact absurd rfl (hnone _ _ _ _ _ _)
    · exact absurd rfl (hshort _ _ _ _ _ _ _ _)

/-- of arguments, -/
theorem argumentParts_relocate :
    argumentParts c (ns.map (Node.relocate m)) = (argumentParts c ns).map (Part.relocate m) := by
  induction ns using argumentParts.induct with
  | case1 => rfl
  | case2 last =>
    simp only [List.map_cons, List.map_nil, argumentParts, Node.kind_relocate]
    rfl
  | case3 argument rest hrest ih =>
    rw [List.map_cons, argumentParts, argumentParts, ih, List.map_append]
    · rfl
    · exact hrest
    · exact fun hnil => hrest (List.map_eq_nil_iff.mp hnil)

/-- of a call, -/
theorem callParts_relocate :
    callParts c (ns.map (Node.relocate m))
      = (callParts c ns).map (List.map (Part.relocate m)) := by
  cases ns with
  | nil => rfl
  | cons callee arguments =>
    rw [List.map_cons, callParts, callParts, argumentParts_relocate, Option.map_some,
      List.map_append]
    rfl

/-- of a member that is printed in both places or in neither, -/
theorem accessParts_relocate
    (hlog : (n.relocate m).textIn source' = "console.log" ↔ n.textIn source = "console.log") :
    accessParts source' c (n.relocate m)
      = (accessParts source c n).map (List.map (Part.relocate m)) := by
  rw [accessParts, accessParts, Node.children_relocate]
  by_cases hprint : n.textIn source = "console.log"
  · rw [if_pos hprint, if_pos (hlog.mpr hprint)]
    rfl
  · rw [if_neg hprint, if_neg (mt hlog.mp hprint)]
    rcases n.children with _ | ⟨object, _ | ⟨name, _ | ⟨third, rest⟩⟩⟩ <;> rfl

/-- of a declaration -/
theorem declarationParts_relocate :
    declarationParts c (ns.map (Node.relocate m))
      = (declarationParts c ns).map (List.map (Part.relocate m)) := by
  rcases ns with _ | ⟨name, _ | ⟨init, rest⟩⟩ <;> rfl

/-- and of a function. -/
theorem functionParts_relocate :
    functionParts c (ns.map (Node.relocate m))
      = (functionParts c ns).map (List.map (Part.relocate m)) := by
  match ns with
  | [] | [_] => rfl
  | name :: p :: more =>
    rw [List.map_cons, List.map_cons, functionParts, functionParts, Node.getLast_relocate,
      ← List.map_cons, ← List.map_dropLast, ← List.map_cons, partsUnder_relocate,
      suiteParts_relocate, Option.map_some, List.map_append]

/-- The parts of a node elsewhere. -/
theorem partsOf_relocate
    (hlog : (n.relocate m).textIn source' = "console.log" ↔ n.textIn source = "console.log") :
    partsOf source' c (n.relocate m)
      = (partsOf source c n).map (List.map (Part.relocate m)) := by
  rw [partsOf, partsOf, Node.kind_relocate, Node.children_relocate]
  cases n.kind with
  | sourceFile | block | variableStatement => exact congrArg some partsUnder_relocate
  | expressionStatement | parameter | parenthesized => cases n.children <;> rfl
  | variableDeclaration => exact declarationParts_relocate
  | ifStatement => exact ifParts_relocate
  | returnStatement =>
    rw [← List.map_take]
    exact congrArg some partsUnder_relocate
  | functionDeclaration => exact functionParts_relocate
  | callExpression | newExpression => exact callParts_relocate
  | propertyAccess => exact accessParts_relocate hlog
  | objectLiteral =>
    simp only [Option.map_some, List.map_map]
    rfl
  | propertyAssignment =>
    rcases n.children with _ | ⟨key, _ | ⟨value, _ | ⟨third, rest⟩⟩⟩ <;> rfl
  | arrayLiteral => exact congrArg some partsUnder_relocate
  | binaryExpression =>
    rcases n.children with _ | ⟨left, _ | ⟨operator, _ | ⟨right, _ | ⟨fourth, rest⟩⟩⟩⟩
    · rfl
    · rfl
    · rfl
    · simp only [List.map_cons, List.map_nil, operatorOf_relocate, Option.map_map]
      rfl
    · rfl
  | prefixUnary =>
    rcases n.children with _ | ⟨operator, _ | ⟨operand, _ | ⟨third, rest⟩⟩⟩
    · rfl
    · rfl
    · simp only [List.map_cons, List.map_nil, operatorOf_relocate, Option.map_map]
      rfl
    · rfl
  | identifier | thisKeyword | stringLiteral | numericLiteral | trueKeyword | falseKeyword
  | emptyStatement => rfl
  | whileStatement | operator => rfl

/-! ### Steps -/

variable {job job' : Job} {f : Diagnostic → Diagnostic}

/-- Parts that have moved are converted where they are. -/
theorem conversions_relocate (f : Diagnostic → Diagnostic) :
    conversions (parts.map (Part.relocate m)) = (conversions parts).map (Step.relocate m f) := by
  rw [conversions, conversions, List.map_map, List.map_map]
  rfl

section

variable (hf : ∀ severity message, diagnosticAt (n.relocate m) severity message
  = f (diagnosticAt n severity message))

include hf

/-- What a handler does first and last moves with its node. -/
theorem handledSteps_relocate :
    handledSteps c (n.relocate m) (parts.map (Part.relocate m))
      = (handledSteps c n parts).map (Step.relocate m f) := by
  rw [handledSteps, handledSteps, Node.kind_relocate]
  split
  · rw [List.map_append, conversions_relocate f, strayReturn, strayReturn, hf]
    split <;> rfl
  · rw [List.map_append, ← conversions_relocate f, ← conversions_relocate f, List.map_drop,
      List.map_take]
  · exact conversions_relocate f

/-- The steps of a node elsewhere. -/
theorem stepsOf_relocate (hsettings : job'.settings = job.settings)
    (hlog : (n.relocate m).textIn job'.source = "console.log"
      ↔ n.textIn job.source = "console.log") :
    stepsOf job' c (n.relocate m) = (stepsOf job c n).map (Step.relocate m f) := by
  have hparts : partsOf job'.source c (n.relocate m) = _ := partsOf_relocate hlog
  have hunknown : unknownParts job'.settings c (n.relocate m)
      = (unknownParts job.settings c n).map (Part.relocate m) := by
    rw [unknownParts, unknownParts, hsettings, Node.children_relocate]
    split
    · rfl
    · exact partsUnder_relocate
  rw [stepsOf, stepsOf, hparts]
  cases partsOf job.source c n with
  | some parts => exact handledSteps_relocate hf
  | none =>
    simp only [Option.map_none]
    rw [unsupported, hf, Node.kindName_relocate, hunknown, conversions_relocate f]
    rfl

end

/-- What is converted for a node lies below it. -/
theorem mem_preorder_of_mem_stepsOf {c' : Context} {k : Ast} (h : ∀ k ∈ n.preorder, Nests k)
    (hk : .convert c' k ∈ stepsOf job c n) : k ∈ n.preorder := by
  obtain ⟨p, hp, -, rfl⟩ := mem_stepsOf.mp hk
  have hmem := List.mem_map_of_mem (f := Part.node) hp
  rw [allPartsOf] at hmem
  cases hparts : partsOf job.source c n with
  | some parts =>
    rw [hparts] at hmem
    exact (spread_partsOf h hparts).mem _ hmem
  | none =>
    rw [hparts] at hmem
    exact (spread_unknownParts h).mem _ hmem

/-- **What is reported elsewhere.**  The diagnostics about nodes elsewhere are those about the
    nodes, but for the places. -/
theorem complaints_relocate {nodes : Ast → Prop} (hsettings : job'.settings = job.settings)
    (hbelow : ∀ n, nodes n → ∀ k ∈ n.preorder, nodes k) (hnests : ∀ n, nodes n → Nests n)
    (hlog : ∀ n, nodes n → ((n.relocate m).textIn job'.source = "console.log"
      ↔ n.textIn job.source = "console.log"))
    (hf : ∀ n, nodes n → ∀ severity message, diagnosticAt (n.relocate m) severity message
      = f (diagnosticAt n severity message)) {left : Nat} (hn : nodes n) :
    Backend.complaints job' (stepsOf job') left c (n.relocate m)
      = (Backend.complaints job (stepsOf job) left c n).map f := by
  -- With no level left the node is refused; else its steps are the same, and so on below it.
  induction left generalizing c n with
  | zero =>
    rw [Backend.complaints, Backend.complaints, Backend.refusal, Backend.refusal, Engine.tooDeep,
      Engine.tooDeep, hsettings, List.map_singleton, ← hf n hn]
  | succ left ih =>
    rw [Backend.complaints, Backend.complaints, stepsOf_relocate (hf n hn) hsettings (hlog n hn),
      List.flatMap_map, List.map_flatMap]
    refine List.flatMap_congr fun step hstep => ?_
    cases step with
    | convert c' k =>
      exact ih (hbelow n hn k (mem_preorder_of_mem_stepsOf
        (fun k hk => hnests k (hbelow n hn k hk)) hstep))
    | report entry => rfl

end

end Target

end Transcode
