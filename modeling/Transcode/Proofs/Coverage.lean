import Transcode.Proofs.Assembly
import Transcode.Proofs.Forms

namespace Transcode.Target

open Output Engine Script

/-!
# Which nodes are heard

A node asks for the comments before it if its kind does and it is written as a node of its own.
`heard` says which nodes of a tree these are, without a word about handlers; it leaves out what a
handler takes in its parent's stead, such as the block of a function or the `if` after an `else`.
The parts of a node cover what is heard in it (`exists_full`), given that every node has its
form and that there are no loops, no empty statements and no empty blocks.
-/

/-! ### Heard nodes -/

/-- Whether nodes of a kind ask for the comments before them. -/
def asks (k : Kind) : Bool :=
  asksFor {} k

/-- The arguments of a call without an object at the end, which becomes keyword arguments. -/
def positional : List Ast → List Ast
  | [] => []
  | [last] => if last.kind = .objectLiteral then [] else [last]
  | argument :: rest => argument :: positional rest

/-- The condition of a conditional statement, and its branches unless they are blocks or the `if`
    after an `else`. -/
def spokenClauses : List Ast → List Ast
  | condition :: branch :: rest =>
    condition :: [branch].filter (·.kind ≠ .block)
      ++ rest.filter fun m => m.kind ≠ .block ∧ m.kind ≠ .ifStatement
  | ns => ns

/-- The children of a node that are written as nodes of their own.  Blocks are not where a suite is
    expected, nor are the `if` after an `else`, an object that becomes keyword arguments and the
    name of a property. -/
def spoken (n : Ast) : List Ast :=
  match n.kind with
  | .ifStatement => spokenClauses n.children
  | .functionDeclaration => n.children.dropLast
  | .callExpression | .newExpression => n.children.take 1 ++ positional (n.children.drop 1)
  | .propertyAssignment => n.children.drop 1
  | _ => n.children

/-- Whether a node is the `log` of the console, which is written as a whole. -/
def isConsoleLog (source : String) (n : Ast) : Prop :=
  n.kind = .propertyAccess ∧ n.textIn source = "console.log"

instance (source : String) (n : Ast) : Decidable (isConsoleLog source n) :=
  inferInstanceAs (Decidable (_ ∧ _))

mutual

/-- The nodes in a tree, below its root, that have the comments before them put in front. -/
def heard (source : String) : Ast → List Ast
  | ⟨kind, fullStart, start, stop, children⟩ =>
    if isConsoleLog source ⟨kind, fullStart, start, stop, children⟩ then []
    else
      (spoken ⟨kind, fullStart, start, stop, children⟩).filter (asks ·.kind)
        ++ heardAll source children

/-- The nodes below the roots of some trees that have. -/
def heardAll (source : String) : List Ast → List Ast
  | [] => []
  | n :: rest => heard source n ++ heardAll source rest

end

/-- The nodes of a part that have: its own, if it asks, and those below. -/
def Part.heard (source : String) (p : Part) : List Ast :=
  (if p.led || asksFor p.context p.node.kind then [p.node] else []) ++ Target.heard source p.node

section

variable {source : String} {n : Ast}

theorem mem_heardAll {m : Ast} {ns : List Ast} :
    m ∈ heardAll source ns ↔ ∃ n ∈ ns, m ∈ heard source n := by
  induction ns with
  | nil => simp [heardAll]
  | cons n ns ih => simp [heardAll, ih]

theorem heard_eq (source : String) (n : Ast) : heard source n =
    if isConsoleLog source n then []
    else (spoken n).filter (asks ·.kind) ++ heardAll source n.children := by
  obtain ⟨kind, fullStart, start, stop, children⟩ := n
  rw [heard]

/-- What is heard in a node is what is heard of its children and in them. -/
theorem heard_subset {ms : List Ast}
    (hspoken : ∀ m ∈ spoken n, asks m.kind = true → m ∈ ms)
    (hchildren : ∀ m ∈ n.children, heard source m ⊆ ms) : heard source n ⊆ ms := by
  intro m hm
  rw [heard_eq] at hm
  split at hm
  · cases hm
  · rcases List.mem_append.mp hm with hm | hm
    · obtain ⟨hm, hasks⟩ := List.mem_filter.mp hm
      exact hspoken m hm hasks
    · obtain ⟨child, hchild, hm⟩ := mem_heardAll.mp hm
      exact hchildren child hchild hm

theorem heard_of_isConsoleLog (h : isConsoleLog source n) : heard source n = [] := by
  rw [heard_eq, if_pos h]

/-- Nothing is heard in a node without children. -/
theorem heard_of_children_eq_nil (h : n.children = []) : heard source n = [] := by
  have hspoken : spoken n = [] := by
    rw [spoken]
    split <;> simp [h, spokenClauses, positional]
  refine List.subset_nil.mp (heard_subset (fun m hm => ?_) fun m hm => ?_)
  · rw [hspoken] at hm
    cases hm
  · rw [h] at hm
    cases hm

end

/-! ### Coverage -/

/-- A context that a node of a kind can come under: keyword arguments are objects and their
    properties. -/
def Admits (c : Context) (k : Kind) : Prop :=
  c.keywordArgs = true → k = .objectLiteral ∨ k = .propertyAssignment

/-- What some parts have the comments before put in front of. -/
def heardBy (source : String) (parts : List Part) : List Ast :=
  parts.flatMap (Part.heard source)

/-- Some parts cover some nodes: they are nodes of their own, the `voiced` ones among the nodes are
    heard if they ask, and so is all that is heard in the nodes. -/
structure Covers (source : String) (ns voiced : List Ast) (parts : List Part) : Prop where
  admits : ∀ p ∈ parts, p.node.kind.isWhole = true ∧ Admits p.context p.node.kind
  voiced : ∀ m ∈ voiced, asks m.kind = true → m ∈ heardBy source parts
  below : ∀ m ∈ ns, heard source m ⊆ heardBy source parts

section

variable {source : String} {c : Context} {n m s : Ast} {ns ms voiced voiced' : List Ast}
  {parts parts' : List Part}

theorem asksFor_eq_asks (hc : c.keywordArgs = false) (k : Kind) : asksFor c k = asks k := by
  cases k with
  | objectLiteral | propertyAssignment => exact congrArg not hc
  | _ => rfl

theorem heardBy_append : heardBy source (parts ++ parts')
    = heardBy source parts ++ heardBy source parts' :=
  List.flatMap_append

/-- What is heard in a part. -/
theorem heard_subset_heardBy {p : Part} (h : p ∈ parts) :
    heard source p.node ⊆ heardBy source parts := fun _ hm =>
  List.mem_flatMap.mpr ⟨p, h, List.mem_append_right _ hm⟩

/-- A part that asks for comments. -/
theorem mem_heardBy {p : Part} (h : p ∈ parts)
    (hasks : (p.led || asksFor p.context p.node.kind) = true) : p.node ∈ heardBy source parts := by
  refine List.mem_flatMap.mpr ⟨p, h, List.mem_append_left _ ?_⟩
  rw [if_pos hasks]
  exact List.mem_cons_self

/-- Parts that cover the children of a node cover what is heard in it. -/
theorem Covers.heard_subset (h : Covers source n.children voiced parts)
    (hspoken : spoken n ⊆ voiced) : heard source n ⊆ heardBy source parts :=
  Target.heard_subset (fun m hm => h.voiced m (hspoken hm)) h.below

theorem Covers.append (h : Covers source ns voiced parts) (h' : Covers source ms voiced' parts') :
    Covers source (ns ++ ms) (voiced ++ voiced') (parts ++ parts') := by
  refine ⟨List.forall_mem_append.mpr ⟨h.admits, h'.admits⟩, ?_, ?_⟩
  · rw [heardBy_append, List.forall_mem_append]
    exact ⟨fun m hm hasks => List.mem_append_left _ (h.voiced m hm hasks),
      fun m hm hasks => List.mem_append_right _ (h'.voiced m hm hasks)⟩
  · rw [heardBy_append, List.forall_mem_append]
    exact ⟨fun m hm => List.subset_append_of_subset_left _ (h.below m hm),
      fun m hm => List.subset_append_of_subset_right _ (h'.below m hm)⟩

/-- Nodes without children need no parts, unless they ask. -/
theorem covers_leaf (source : String) (h : m.children = [])
    (hvoiced : ∀ k ∈ voiced, asks k.kind = false) :
    Covers source [m] voiced [] := by
  refine ⟨nofun, fun k hk hasks => ?_, List.forall_mem_singleton.mpr ?_⟩
  · rw [hvoiced k hk] at hasks
    cases hasks
  · rw [heard_of_children_eq_nil h]
    exact List.nil_subset _

theorem covers_operator (h : IsOperator m) : Covers source [m] [m] [] := by
  obtain ⟨t, ht⟩ := h.token
  exact covers_leaf source h.children (List.forall_mem_singleton.mpr (by rw [ht]; rfl))

theorem operatorOf_isSome (h : IsOperator m) : ∃ t, operatorOf m = some t := by
  obtain ⟨t, ht⟩ := h.token
  exact ⟨t, by rw [operatorOf, ht]⟩

theorem covers_nil : Covers source [] [] [] :=
  ⟨nofun, nofun, nofun⟩

/-- Parts under a context cover their nodes. -/
theorem covers_partsUnder (source : String) (hc : c.keywordArgs = false) (hns : Whole ns) :
    Covers source ns ns (partsUnder c ns) := by
  have hmem : ∀ m ∈ ns, { context := c, node := m } ∈ partsUnder c ns := fun m hm =>
    List.mem_map_of_mem hm
  refine ⟨?_, fun m hm hasks => ?_, fun m hm => heard_subset_heardBy (hmem m hm)⟩
  · refine List.forall_mem_map.mpr fun m hm => ⟨hns m hm, fun hkeywords => ?_⟩
    rw [hc] at hkeywords
    cases hkeywords
  · exact mem_heardBy (hmem m hm) (by rw [asksFor_eq_asks hc, hasks, Bool.or_true])

/-- The parts of a suite cover the statement that it is made of. -/
theorem covers_suiteParts (source : String) (hc : c.keywordArgs = false) (hs : Whole [s])
    (hform : WellFormed s) :
    Covers source [s] ([s].filter (·.kind ≠ .block)) (suiteParts c s) := by
  rw [suiteParts]
  by_cases hkind : s.kind = .block
  -- The statements in the block take its place; the block itself is not among what must be heard.
  · have hwhole := (hform s s.self_mem_preorder).of_block hkind
    have hspoken : spoken s = s.children := by rw [spoken, hkind]
    have hstatements := covers_partsUnder source hc hwhole
    rw [if_pos hkind, List.filter_cons_of_neg (by simpa using hkind)]
    refine ⟨hstatements.admits, nofun, List.forall_mem_singleton.mpr ?_⟩
    exact hstatements.heard_subset (hspoken ▸ List.Subset.refl _)
  · rw [if_neg hkind, List.filter_cons_of_pos (by simpa using hkind)]
    exact covers_partsUnder source hc hs

/-- The parts of a conditional statement cover it. -/
theorem exists_ifParts (hc : c.keywordArgs = false) (hform : WellFormed n)
    (hkind : n.kind = .ifStatement) :
    ∃ parts, ifParts c n = some parts ∧ Covers source n.children (spoken n) parts := by
  -- The induction goes along the `else if`s.
  induction n using ifParts.induct c with
  | case1 kind fullStart start stop condition branch =>
    obtain rfl : kind = .ifStatement := hkind
    have hwhole : Whole [condition, branch] := by
      cases hform _ (Node.self_mem_preorder _) with
      | ifThen h => exact h
    obtain ⟨hcondition, hbranch⟩ := whole_cons.mp hwhole
    have hsuite := covers_suiteParts source hc hbranch (hform.of_mem_children (by simp))
    have hclause := ((covers_partsUnder source hc hcondition).append hsuite).append covers_nil
    rw [List.append_nil (partsUnder c [condition] ++ suiteParts c branch)] at hclause
    exact ⟨_, rfl, hclause⟩
  | case2 kind fullStart start stop condition branch otherwise rest ih =>
    obtain rfl : kind = .ifStatement := hkind
    obtain ⟨rfl, hwhole⟩ : rest = [] ∧ Whole [condition, branch, otherwise] := by
      cases hform _ (Node.self_mem_preorder _) with
      | ifElse h => exact ⟨rfl, h⟩
    obtain ⟨hcondition, hbranches⟩ := whole_cons.mp hwhole
    obtain ⟨hbranch, hotherwise⟩ := whole_cons.mp hbranches
    have hform' : WellFormed otherwise := hform.of_mem_children (by simp)
    have hsuite := covers_suiteParts source hc hbranch (hform.of_mem_children (by simp))
    have hlater : Covers source [otherwise]
        ([otherwise].filter fun m => m.kind ≠ .block ∧ m.kind ≠ .ifStatement)
        (if otherwise.kind = .ifStatement then (ifParts c otherwise).getD []
          else suiteParts c otherwise) := by
      by_cases hkind : otherwise.kind = .ifStatement
      · obtain ⟨parts, hparts, hcovers⟩ := ih hform' hkind
        rw [if_pos hkind, hparts, List.filter_cons_of_neg (by simp [hkind])]
        exact ⟨hcovers.admits, nofun,
          List.forall_mem_singleton.mpr (hcovers.heard_subset (List.Subset.refl _))⟩
      · rw [if_neg hkind]
        have hvoiced : ([otherwise].filter fun m => m.kind ≠ .block ∧ m.kind ≠ .ifStatement)
            = [otherwise].filter (·.kind ≠ .block) :=
          List.filter_congr (by simp [hkind])
        exact hvoiced ▸ covers_suiteParts source hc hotherwise hform'
    exact ⟨_, rfl, ((covers_partsUnder source hc hcondition).append hsuite).append hlater⟩
  | case3 n htwo hthree =>
    obtain ⟨kind, fullStart, start, stop, children⟩ := n
    obtain rfl : kind = .ifStatement := hkind
    cases hform _ (Node.self_mem_preorder _) with
    | leaf h => cases h
    | ifThen => exact absurd rfl (htwo _ _ _ _ _ _)
    | ifElse => exact absurd rfl (hthree _ _ _ _ _ _ _ _)

/-- The parts of arguments cover them. -/
theorem covers_argumentParts (hns : Whole ns) :
    Covers source ns (positional ns) (argumentParts c ns) := by
  induction ns using argumentParts.induct with
  | case1 => exact covers_nil
  | case2 last =>
    rw [argumentParts, positional]
    by_cases hkind : last.kind = .objectLiteral
    -- Keyword arguments do not ask for comments, so the object is not heard; what is in it is.
    · rw [if_pos hkind, if_pos hkind]
      refine ⟨List.forall_mem_singleton.mpr ⟨hns last List.mem_cons_self, fun _ => .inl hkind⟩,
        List.forall_mem_nil _, List.forall_mem_singleton.mpr ?_⟩
      exact heard_subset_heardBy (p := { context := c.merge .keywords, node := last })
        List.mem_cons_self
    · rw [if_neg hkind, if_neg hkind]
      exact covers_partsUnder source rfl hns
  | case3 argument rest hrest ih =>
    obtain ⟨hargument, hrest'⟩ := whole_cons.mp hns
    rw [argumentParts, positional]
    · exact (covers_partsUnder source rfl hargument).append (ih hrest')
    · exact hrest
    · exact hrest

/-- The properties of an object cover it.  Where they do not ask for comments themselves, they are
    given them. -/
theorem covers_properties (source : String) (h : ∀ m ∈ ns, m.kind = .propertyAssignment) :
    Covers source ns ns
      (ns.map fun m => { context := c, node := m, led := c.keywordArgs }) := by
  have hmem : ∀ m ∈ ns, { context := c, node := m, led := c.keywordArgs }
      ∈ ns.map fun m => ({ context := c, node := m, led := c.keywordArgs } : Part) :=
    fun m hm => List.mem_map_of_mem hm
  refine ⟨?_, fun m hm _ => ?_, fun m hm => heard_subset_heardBy (hmem m hm)⟩
  · refine List.forall_mem_map.mpr fun m hm => ⟨?_, fun _ => .inr (h m hm)⟩
    rw [h m hm]
    rfl
  · refine mem_heardBy (hmem m hm) ?_
    rw [h m hm]
    exact Bool.or_not_self _

theorem functionParts_concat (name : Ast) (ns : List Ast) (body : Ast) :
    functionParts c (name :: ns ++ [body])
      = some (partsUnder c (name :: ns) ++ suiteParts (c.merge .body) body) := by
  cases ns with
  | nil => rfl
  | cons p more =>
    rw [List.cons_append, List.cons_append, functionParts]
    simp only [← List.cons_append, List.dropLast_concat, List.getLast_concat]

/-- The parts of a function cover it.  Its body is a block, which is not written as such. -/
theorem covers_functionParts (source : String) (hc : c.keywordArgs = false) (hns : Whole ns)
    (hs : s.kind = .block) (hform : WellFormed s) :
    Covers source (ns ++ [s]) ns (partsUnder c ns ++ suiteParts (c.merge .body) s) := by
  have hwhole : Whole [s] := whole_singleton.mpr (by rw [hs]; rfl)
  have hsuite := covers_suiteParts source (c := c.merge .body) rfl hwhole hform
  have hparts := (covers_partsUnder source hc hns).append hsuite
  rwa [List.filter_cons_of_neg (by simp [hs]), List.filter_nil, List.append_nil] at hparts

end

/-! ### All kinds of nodes -/

/-- The parts of a node are nodes of their own and cover it, and if there is nothing in its output
    but what they give, one of them gives something. -/
structure Full (source : String) (c : Context) (n : Ast) (parts : List Part) : Prop where
  admits : ∀ p ∈ parts, p.node.kind.isWhole = true ∧ Admits p.context p.node.kind
  heard : heard source n ⊆ heardBy source parts
  solid : mayVanish source c n = true →
    n.kind = .sourceFile ∨ c.keywordArgs = true ∨ ∃ p ∈ parts, p.context.keywordArgs = false

/-- A node that comes to something: no loop, no empty statement and no empty block, and a text if
    it is a leaf. -/
structure Lasting (source : String) (n : Ast) : Prop where
  kind_ne_while : n.kind ≠ .whileStatement
  kind_ne_empty : n.kind ≠ .emptyStatement
  block : n.kind = .block → n.children ≠ []
  text : n.kind.isWhole = true → (n.textIn source).isEmpty = false

section

variable {source : String} {c : Context} {n : Ast} {parts : List Part}

/-- Parts that cover the children that are spoken. -/
theorem Covers.full (h : Covers source n.children (spoken n) parts)
    (hsolid : mayVanish source c n = true →
      n.kind = .sourceFile ∨ c.keywordArgs = true ∨ ∃ p ∈ parts, p.context.keywordArgs = false) :
    Full source c n parts :=
  ⟨h.admits, h.heard_subset (List.Subset.refl _), hsolid⟩

/-- Keyword arguments are never a node of another kind. -/
theorem Admits.keywordArgs (h : Admits c n.kind) (hobject : n.kind ≠ .objectLiteral)
    (hproperty : n.kind ≠ .propertyAssignment) : c.keywordArgs = false := by
  cases hc : c.keywordArgs with
  | false => rfl
  | true =>
    rcases h hc with hkind | hkind
    · exact absurd hkind hobject
    · exact absurd hkind hproperty

/-- A part under a context without keyword arguments gives something. -/
theorem exists_partsUnder {ns : List Ast} (hc : c.keywordArgs = false) (h : ns ≠ []) :
    n.kind = .sourceFile ∨ c.keywordArgs = true
      ∨ ∃ p ∈ partsUnder c ns, p.context.keywordArgs = false := by
  obtain ⟨m, hm⟩ := List.exists_mem_of_ne_nil ns h
  exact .inr (.inr ⟨_, List.mem_map_of_mem hm, hc⟩)

/-- Leaves have no parts, and their text is in the output. -/
theorem full_nil (h : n.children = []) (hsolid : mayVanish source c n = false) :
    Full source c n [] := by
  refine ⟨nofun, ?_, fun hvanish => ?_⟩
  · rw [heard_of_children_eq_nil h]
    exact List.nil_subset _
  · rw [hsolid] at hvanish
    cases hvanish

/-- The parts of a member of an object are all that there is in it.  Nothing is heard in the `log`
    of the console. -/
theorem exists_accessParts {e name : Ast} (hc : c.keywordArgs = false)
    (hkind : n.kind = .propertyAccess) (hchildren : n.children = [e, name])
    (h : Whole [e, name]) :
    ∃ parts, accessParts source c n = some parts ∧ Full source c n parts := by
  have hsolid : mayVanish source c n ≠ true := by
    rw [mayVanish, hkind]
    exact Bool.false_ne_true
  by_cases hlog : isConsoleLog source n
  · refine ⟨[], by rw [accessParts, if_pos hlog.2], List.forall_mem_nil _, ?_,
      fun hvanish => absurd hvanish hsolid⟩
    rw [heard_of_isConsoleLog hlog]
    exact List.nil_subset _
  · obtain ⟨he, hname⟩ := whole_cons.mp h
    have hparts := (covers_partsUnder source (c := c.merge .value) rfl he).append
      (covers_partsUnder source hc hname)
    have hspoken : spoken n = [e, name] := by rw [spoken, hkind, hchildren]
    refine ⟨_, by rw [accessParts, if_neg fun htext => hlog ⟨hkind, htext⟩, hchildren],
      Covers.full ?_ fun hvanish => absurd hvanish hsolid⟩
    rw [hspoken, hchildren]
    exact hparts

/-- The parts of a node with a form are all that there is in it. -/
theorem exists_full (hform : WellFormed n) (hlasting : Lasting source n)
    (hoperator : ∀ t, n.kind ≠ .operator t) (hadmits : Admits c n.kind) :
    ∃ parts, partsOf source c n = some parts ∧ Full source c n parts := by
  -- By its form the node has the children that its handler matches on.
  have hroot : Form n.kind n.children := hform n n.self_mem_preorder
  obtain ⟨kind, fullStart, start, stop, children⟩ := n
  cases hroot with
  | leaf h =>
    cases kind with
    | identifier | stringLiteral | numericLiteral =>
      exact ⟨_, rfl, full_nil rfl (hlasting.text rfl)⟩
    | thisKeyword | trueKeyword | falseKeyword => exact ⟨_, rfl, full_nil rfl rfl⟩
    | emptyStatement => exact absurd rfl hlasting.kind_ne_empty
    | operator t => exact absurd rfl (hoperator t)
    | _ => cases h
  | sourceFile h =>
    have hc := hadmits.keywordArgs nofun nofun
    exact ⟨_, rfl, (covers_partsUnder source hc h).full fun _ => .inl rfl⟩
  | block h =>
    have hc := hadmits.keywordArgs nofun nofun
    exact ⟨_, rfl, (covers_partsUnder source hc h).full fun _ =>
      exists_partsUnder hc (hlasting.block rfl)⟩
  | array h => exact ⟨_, rfl, (covers_partsUnder source rfl h).full nofun⟩
  | object h => exact ⟨_, rfl, (covers_properties source h).full fun hc => .inr (.inl hc)⟩
  | variableStatement hne h =>
    have hc := hadmits.keywordArgs nofun nofun
    exact ⟨_, rfl, (covers_partsUnder source hc h).full fun _ => exists_partsUnder hc hne⟩
  | expressionStatement h =>
    have hc := hadmits.keywordArgs nofun nofun
    exact ⟨_, rfl, (covers_partsUnder source hc h).full fun _ => exists_partsUnder hc nofun⟩
  | parenthesized h =>
    have hc := hadmits.keywordArgs nofun nofun
    exact ⟨_, rfl, (covers_partsUnder source hc h).full nofun⟩
  | parameter h =>
    have hc := hadmits.keywordArgs nofun nofun
    exact ⟨_, rfl, (covers_partsUnder source hc h).full fun _ => exists_partsUnder hc nofun⟩
  | declared h =>
    have hc := hadmits.keywordArgs nofun nofun
    have hnone : Covers source [] [] (partsUnder (c.merge .value) []) :=
      covers_partsUnder source rfl (List.forall_mem_nil _)
    exact ⟨_, rfl, ((covers_partsUnder source hc h).append hnone).full nofun⟩
  | initialized h =>
    have hc := hadmits.keywordArgs nofun nofun
    obtain ⟨hname, he⟩ := whole_cons.mp h
    have hparts := (covers_partsUnder source hc hname).append
      (covers_partsUnder source (c := c.merge .value) rfl he)
    exact ⟨_, rfl, hparts.full nofun⟩
  | ifThen | ifElse =>
    obtain ⟨parts, hparts, hcovers⟩ :=
      exists_ifParts (hadmits.keywordArgs nofun nofun) hform rfl
    exact ⟨parts, hparts, hcovers.full nofun⟩
  | whileDo => exact absurd rfl hlasting.kind_ne_while
  | returnNothing =>
    exact ⟨_, rfl, (covers_partsUnder source rfl (List.forall_mem_nil _)).full nofun⟩
  | returnValue h => exact ⟨_, rfl, (covers_partsUnder source rfl h).full nofun⟩
  | @function name ns body h hbody =>
    have hc := hadmits.keywordArgs nofun nofun
    refine ⟨_, functionParts_concat name ns body, Covers.full ?_ nofun⟩
    show Covers source _ (name :: ns ++ [body]).dropLast _
    rw [List.dropLast_concat]
    exact covers_functionParts source hc h hbody (hform.of_mem_children (by simp))
  | call h | new h =>
    obtain ⟨hcallee, harguments⟩ := whole_cons.mp h
    exact ⟨_, rfl,
      ((covers_partsUnder source rfl hcallee).append (covers_argumentParts harguments)).full nofun⟩
  | member h => exact exists_accessParts (hadmits.keywordArgs nofun nofun) rfl rfl h
  | property hkey h =>
    have hname := covers_leaf source hkey (List.forall_mem_nil _)
    exact ⟨_, rfl, (hname.append (covers_partsUnder source rfl h)).full nofun⟩
  | @binary e operator e' h hop =>
    have hc := hadmits.keywordArgs nofun nofun
    obtain ⟨he, he'⟩ := whole_cons.mp h
    have hparts := ((covers_partsUnder source hc he).append (covers_operator hop)).append
      (covers_partsUnder source hc he')
    obtain ⟨t, htoken⟩ := operatorOf_isSome hop
    exact ⟨_, congrArg (Option.map fun _ => partsUnder c [e, e']) htoken, hparts.full nofun⟩
  | @prefixed operator e hop h =>
    have hc := hadmits.keywordArgs nofun nofun
    have hparts := (covers_operator hop).append (covers_partsUnder source hc h)
    obtain ⟨t, htoken⟩ := operatorOf_isSome hop
    exact ⟨_, congrArg (Option.map fun _ => partsUnder c [e]) htoken,
      hparts.full fun _ => exists_partsUnder hc nofun⟩

end

end Transcode.Target
