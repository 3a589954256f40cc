import Transcode.Proofs.CommentsCarried
import Transcode.Proofs.Parents
import Transcode.Proofs.Reports

namespace Transcode.Target

open Output Engine Script

/-!
# Objects

An object comes out as keyword arguments or as a dictionary, and its properties accordingly.  Which
of the two it is depends on a flag in the context that every handler on the way can change.  It is
not the flag that matters in the end but where the object stands: the last argument of a call or of
a `new` expression becomes keyword arguments, and any other object a dictionary
(`objects_by_place`).

The invariant of the visits of a run is `Situated`, which says what the flag means for the node that
is converted under it.
-/

/-! ### Two ways to write an object -/

section

variable (source : String)

/-- The name of a property as that of a keyword argument. -/
def keywordName (key : Ast) : String :=
  snakeCase (if key.kind = .stringLiteral then unquote (key.textIn source) else key.textIn source)

/-- The name of a property as the key of an entry, in double quotes. -/
def entryKey (key : Ast) : String :=
  if key.kind = .stringLiteral then doubleQuoted (key.textIn source)
  else "\"" ++ key.textIn source ++ "\""

/-- A property as a keyword argument. -/
def keywordTree (key : Ast) (value : Tree) : Tree :=
  .ofFragments [.text (keywordName source key), .text "=", value.toFragment]

/-- A property as an entry of a dictionary. -/
def entryTree (key : Ast) (value : Tree) : Tree :=
  Tree.withComments (.ofFragments [.text (entryKey source key), .text ": ", value.toFragment])

/-- A keyword argument among others, with the comments before it, and on a new line if the property
    is on one. -/
def keywordItem (p : Ast) (output : Tree) : Tree :=
  .ofFragments [.text (echoBreak source (some p) ""),
    (withLeading source (comment source) p output).toFragment]

/-- Properties as keyword arguments. -/
def keywordList (ps : List Ast) (outputs : List Tree) : Tree :=
  Tree.empty.withBody (fragmentsOf (List.zipWith (keywordItem source) ps outputs))
    |>.withSeparator ", "

/-- Entries of a dictionary, each after the line breaks that separate it from what comes before. -/
def entryFragments (start : Nat) : List Ast → List Tree → List Fragment
  | p :: ps, t :: ts =>
    let lead := breaksBefore source start p
    let entry := if lead.isEmpty then t else .ofFragments [.text lead, t.toFragment]
    entry.toFragment :: entryFragments p.stop ps ts
  | _, _ => []

/-- An object as a dictionary. -/
def dictionary (n : Ast) (outputs : List Tree) : Tree :=
  let lead := (n.children.head?.map (breaksBefore source n.start)).getD ""
  Tree.ofText "\x7b"
    |>.withBody (entryFragments source n.start n.children outputs)
    |>.withIndent indentWidth
    |>.withSeparator ", "
    |>.withSuffix (if lead.isEmpty then "\x7d" else "\n\x7d")
    |>.withComments

end

section

variable {source : String} {n key key' : Ast} {value value' t : Tree} {ps : List Ast}
  {outputs outputs' : List Tree}

/-- Leading trivia take nothing away. -/
theorem lead_withLeading_ne_nil (h : t.lead ≠ []) :
    (withLeading source (comment source) n t).lead ≠ [] := by
  rw [withLeading]
  split
  · exact h
  · refine List.ne_nil_of_mem (mem_nonempty (List.mem_append_right _ List.mem_cons_self) ?_)
    show Tree.isEmpty t = false
    rw [Tree.isEmpty, List.isEmpty_eq_false_iff.mpr h]
    rfl

/-- Keyword arguments begin with nothing, and a dictionary with a brace or with comments. -/
theorem keywordList_ne_dictionary :
    keywordList source ps outputs
      ≠ withLeading source (comment source) n (dictionary source n outputs') := fun h =>
  have hbrace : (dictionary source n outputs').lead ≠ [] :=
    List.ne_nil_of_mem
      (mem_nonempty (f := .text "\x7b") List.mem_cons_self (by simp [Fragment.isEmpty]))
  lead_withLeading_ne_nil hbrace (congrArg Tree.lead h).symm

/-- A keyword argument has an equals sign, and asks for no comments. -/
theorem keywordTree_ne_entry :
    keywordTree source key value
      ≠ withLeading source (comment source) n (entryTree source key' value') := fun h => by
  have hsign : .text "=" ∈ (keywordTree source key value).lead :=
    mem_nonempty (by simp) (by simp [Fragment.isEmpty])
  rw [h, withLeading] at hsign
  split at hsign
  · rename_i hpieces
    rw [withLeading, hpieces] at h
    exact absurd (congrArg Tree.wantsComments h) Bool.false_ne_true
  · -- Behind comments, a property is a tree among trees.
    rcases List.mem_append.mp (List.mem_filter.mp hsign).1 with hsign | hsign
    · obtain ⟨p, -, hp⟩ := List.mem_map.mp hsign
      cases hp
    · cases List.mem_singleton.mp hsign

end

/-! ### What handlers make of objects -/

section

variable {job : Job} {R : Context → Ast → Tree → Prop} {c : Context} {n : Ast} {ns : List Ast}

/-- Keyword arguments are what properties become, each with its comments and its line break. -/
theorem ensures_keywordArguments_eq {post : List Tree → Prop}
    (h : ∀ outputs, List.Forall₂ (R c) ns outputs →
      post (List.zipWith (keywordItem job.source) ns outputs)) :
    (keywordArguments job ns).Ensures backend.merge (backend.Answers job R) c post := by
  induction ns generalizing post with
  | nil => exact h [] .nil
  | cons n ns ih =>
    rw [keywordArguments, Program.ensures_bind, keywordArgument, Program.ensures_bind,
      ensures_convertNode]
    intro t ht
    simp only [Program.ensures_bind, Program.ensures_mapRequests]
    refine ensures_attach eq_comment_of_renders (ih fun ts hts => ?_)
    exact h (t :: ts) (.cons ht hts)

/-- The entries of a list are what its elements become, each with its line breaks. -/
theorem ensures_entries {update : Option Context} {start : Nat} {post : List Fragment → Prop}
    (h : ∀ outputs, List.Forall₂ (R (update.elim c c.merge)) ns outputs →
      post (entryFragments job.source start ns outputs)) :
    (convertElements job.source update start ns).Ensures backend.merge (backend.Answers job R) c
      post := by
  induction ns generalizing start post with
  | nil => exact h [] .nil
  | cons n ns ih =>
    cases update <;>
    · rw [convertElements, Program.ensures_bind]
      intro t ht
      refine Program.ensures_bind.mpr (ih fun ts hts => ?_)
      exact h (t :: ts) (.cons ht hts)

/-- An object is made of what its properties become, as the context says. -/
theorem ensures_object_eq :
    (object job n).Ensures backend.merge (backend.Answers job R) c fun o =>
      ∃ outputs, List.Forall₂ (R c) n.children outputs
        ∧ o = some (if c.keywordArgs then keywordList job.source n.children outputs
            else dictionary job.source n outputs) := by
  rw [object, Program.ensures_bind, Program.ensures_context]
  by_cases hkeywords : c.keywordArgs
  · rw [if_pos hkeywords, Program.ensures_bind]
    refine ensures_keywordArguments_eq fun ts hts => ⟨ts, hts, ?_⟩
    rw [if_pos hkeywords]
    rfl
  · rw [if_neg hkeywords, Program.ensures_bind, convertDelimited, Program.ensures_bind]
    refine ensures_entries fun ts hts => ⟨ts, hts, ?_⟩
    rw [if_neg hkeywords]
    rfl

/-- A property is made of its name and what its value becomes. -/
theorem ensures_property_eq {key value : Ast} :
    (property job [key, value]).Ensures backend.merge (backend.Answers job R) c fun o =>
      ∃ output, R (c.merge .value) value output
        ∧ o = some (if c.keywordArgs then keywordTree job.source key output
            else entryTree job.source key output) := by
  rw [property, Program.ensures_bind, ensures_convertUnder]
  intro t ht
  simp only
  rw [Program.ensures_bind, Program.ensures_context]
  by_cases hkeywords : c.keywordArgs
  · rw [if_pos hkeywords]
    exact ⟨t, ht, by rw [if_pos hkeywords]; rfl⟩
  · rw [if_neg hkeywords]
    exact ⟨t, ht, by rw [if_neg hkeywords]; rfl⟩

end

/-! ### What conversions make of objects -/

section

variable (job : Job)

/-- The tree is what a node becomes under a context, with so many levels of conversions left. -/
def Converted (left : Nat) (c : Context) (n : Ast) (t : Tree) : Prop :=
  ∃ s : State Context, s.contexts.top = c ∧ t = (backend.convert job left n s).1

/-- The tree is an object as keyword arguments. -/
def IsKeywordList (left : Nat) (c : Context) (n : Ast) (t : Tree) : Prop :=
  ∃ outputs, List.Forall₂ (Converted job left c) n.children outputs
    ∧ t = keywordList job.source n.children outputs

/-- The tree is an object as a dictionary, with the comments before it. -/
def IsDictionary (left : Nat) (c : Context) (n : Ast) (t : Tree) : Prop :=
  ∃ outputs, List.Forall₂ (Converted job left c) n.children outputs
    ∧ t = withLeading job.source (comment job.source) n (dictionary job.source n outputs)

/-- The tree is a property as `name=value`. -/
def IsKeyword (left : Nat) (c : Context) (n : Ast) (t : Tree) : Prop :=
  ∃ key value output, n.children = [key, value] ∧ Converted job left (c.merge .value) value output
    ∧ t = keywordTree job.source key output

/-- The tree is a property as `"key": value`, with the comments before it. -/
def IsEntry (left : Nat) (c : Context) (n : Ast) (t : Tree) : Prop :=
  ∃ key value output, n.children = [key, value] ∧ Converted job left (c.merge .value) value output
    ∧ t = withLeading job.source (comment job.source) n (entryTree job.source key output)

variable {job} {source : String} {root n m k : Ast} {c c' : Context} {ns : List Ast}
  {parts parts' : List Part} {p : Part} {left : Nat} {v : Visit Kind Context}

/-- What a node becomes that its handler takes is the output of the handler, finished. -/
theorem convert_of_handle {s : State Context} {P : Tree → Prop}
    (h : (handle job n).Ensures backend.merge (backend.Answers job (Converted job left))
      s.contexts.top fun o => ∃ t, o = some t ∧ P (finished job.source n t)) :
    P (backend.convert job (left + 1) n s).1 := by
  have hconvert : ∀ m (s : State Context),
      (backend.convert job left m s).2.Reports (fun _ => True) →
        Converted job left s.contexts.top m (backend.convert job left m s).1 :=
    fun m s _ => ⟨s, rfl, rfl⟩
  exact backend.convert_succ_of_ensures job hconvert (finishes_of_handle h) fun _ _ => trivial

/-- An object is written as the flag says. -/
theorem convert_object {s : State Context} (hkind : n.kind = .objectLiteral) :
    if s.contexts.top.keywordArgs then
      IsKeywordList job left s.contexts.top n (backend.convert job (left + 1) n s).1
    else IsDictionary job left s.contexts.top n (backend.convert job (left + 1) n s).1 := by
  have hhandle : handle job n = object job n := by rw [handle, hkind]
  by_cases hkeywords : s.contexts.top.keywordArgs
  · rw [if_pos hkeywords]
    refine convert_of_handle (hhandle ▸ ensures_object_eq.mono fun o ho => ?_)
    obtain ⟨outputs, houtputs, rfl⟩ := ho
    rw [if_pos hkeywords]
    exact ⟨_, rfl, outputs, houtputs, rfl⟩
  · rw [if_neg hkeywords]
    refine convert_of_handle (hhandle ▸ ensures_object_eq.mono fun o ho => ?_)
    obtain ⟨outputs, houtputs, rfl⟩ := ho
    rw [if_neg hkeywords]
    exact ⟨_, rfl, outputs, houtputs, if_pos rfl⟩

/-- So is a property. -/
theorem convert_property {s : State Context} (hkind : n.kind = .propertyAssignment)
    {key value : Ast} (hchildren : n.children = [key, value]) :
    if s.contexts.top.keywordArgs then
      IsKeyword job left s.contexts.top n (backend.convert job (left + 1) n s).1
    else IsEntry job left s.contexts.top n (backend.convert job (left + 1) n s).1 := by
  have hhandle : handle job n = property job [key, value] := by rw [handle, hkind, hchildren]
  by_cases hkeywords : s.contexts.top.keywordArgs
  · rw [if_pos hkeywords]
    refine convert_of_handle (hhandle ▸ ensures_property_eq.mono fun o ho => ?_)
    obtain ⟨output, houtput, rfl⟩ := ho
    rw [if_pos hkeywords]
    exact ⟨_, rfl, key, value, output, hchildren, houtput, rfl⟩
  · rw [if_neg hkeywords]
    refine convert_of_handle (hhandle ▸ ensures_property_eq.mono fun o ho => ?_)
    obtain ⟨output, houtput, rfl⟩ := ho
    rw [if_neg hkeywords]
    refine ⟨_, rfl, key, value, output, hchildren, houtput, if_pos ?_⟩
    have hsolid : (entryTree job.source key output).isEmpty = false :=
      Tree.isEmpty_eq_false_of_text rfl (s := ": ") (by simp) (by simp)
    rw [hsolid]
    rfl

/-- A list of keywords is no dictionary, -/
theorem not_isDictionary {t : Tree} (h : IsKeywordList job left c n t) :
    ¬ IsDictionary job left c n t := by
  rintro ⟨outputs', -, hdict⟩
  obtain ⟨outputs, -, hlist⟩ := h
  exact keywordList_ne_dictionary (hlist.symm.trans hdict)

/-- and a keyword is no entry of one. -/
theorem not_isEntry {t : Tree} (h : IsKeyword job left c n t) : ¬ IsEntry job left c n t := by
  rintro ⟨key', value', output', -, -, hentry⟩
  obtain ⟨key, value, output, -, -, hkeyword⟩ := h
  exact keywordTree_ne_entry (hkeyword.symm.trans hentry)

/-- Of two things that exclude each other, a flag says which one it is. -/
theorem iff_and_iff_not {flag : Bool} {A B : Prop} (h : if flag then A else B) (hAB : A → ¬ B) :
    (A ↔ flag = true) ∧ (B ↔ ¬ flag = true) := by
  cases flag with
  | true => exact ⟨iff_of_true h rfl, iff_of_false (hAB h) (fun h => h rfl)⟩
  | false => exact ⟨iff_of_false (fun hA => hAB hA h) nofun, iff_of_true h nofun⟩

/-! ### Where objects stand -/

/-- Whether nodes of a kind tell the nodes below them how to be written: calls tell their arguments,
    and objects their properties. -/
def tells : Kind → Bool
  | .callExpression | .newExpression | .objectLiteral => true
  | _ => false

/-- The node is the last argument of a call or of a `new` expression. -/
def LastArgument (root n : Ast) : Prop :=
  ∃ call ∈ root.preorder, (call.kind = .callExpression ∨ call.kind = .newExpression)
    ∧ (call.children.drop 1).getLast? = some n

/-- The node is a property of an object that is a last argument. -/
def InLastArgument (root n : Ast) : Prop :=
  ∃ object ∈ root.preorder, object.kind = .objectLiteral ∧ n ∈ object.children
    ∧ LastArgument root object

/-- No flag is set for the parts, and none of them is a child of a node that tells. -/
def Stems (n : Ast) (parts : List Part) : Prop :=
  ∀ p ∈ parts, p.context.keywordArgs = false
    ∧ ∃ k ∈ n.preorder, p.node ∈ k.children ∧ tells k.kind = false

/-- The last argument is a child of its call. -/
theorem LastArgument.exists_childOf (h : LastArgument root n) :
    ∃ call, ChildOf root call n ∧ (call.kind = .callExpression ∨ call.kind = .newExpression)
      ∧ (call.children.drop 1).getLast? = some n := by
  obtain ⟨call, hcall, hkind, hlast⟩ := h
  exact ⟨call, ⟨hcall, List.mem_of_mem_drop (List.mem_of_getLast? hlast)⟩, hkind, hlast⟩

/-! #### Parts that are told nothing -/

/-- Parts stem from a node if they do in two parts. -/
theorem Stems.append (h : Stems n parts) (h' : Stems n parts') : Stems n (parts ++ parts') :=
  List.forall_mem_append.mpr ⟨h, h'⟩

/-- The parts of a node below count for the node. -/
theorem Stems.above (h : Stems m parts) (hm : m ∈ n.preorder) : Stems n parts := fun p hp => by
  obtain ⟨hc, k, hk, hchild⟩ := h p hp
  exact ⟨hc, k, Node.mem_preorder_trans hm hk, hchild⟩

/-- Children stem from their node, -/
theorem stems_partsUnder (hc : c.keywordArgs = false) (hkind : tells n.kind = false)
    (hns : ns ⊆ n.children) : Stems n (partsUnder c ns) :=
  List.forall_mem_map.mpr fun _ hm => ⟨hc, n, n.self_mem_preorder, hns hm, hkind⟩

/-- and so do the statements of a suite, -/
theorem stems_suiteParts (hc : c.keywordArgs = false) (hkind : tells n.kind = false)
    (hm : m ∈ n.children) : Stems n (suiteParts c m) := by
  rw [suiteParts]
  by_cases hblock : m.kind = .block
  · rw [if_pos hblock]
    have hbelow : Stems m (partsUnder c m.children) :=
      stems_partsUnder hc (by rw [hblock]; rfl) (List.Subset.refl _)
    exact hbelow.above (Node.mem_preorder_of_mem_children hm)
  · rw [if_neg hblock]
    exact stems_partsUnder hc hkind (by simpa using hm)

/-- the parts of a choice, by induction on what comes in its `else`, -/
theorem stems_ifParts (hc : c.keywordArgs = false) (hkind : n.kind = .ifStatement)
    (hparts : ifParts c n = some parts) : Stems n parts := by
  induction n using ifParts.induct c generalizing parts with
  | case1 kind fullStart start stop condition branch =>
    obtain rfl : kind = .ifStatement := hkind
    obtain rfl := Option.some.inj hparts
    exact (stems_partsUnder hc rfl (by simp)).append (stems_suiteParts hc rfl (by simp))
  | case2 kind fullStart start stop condition branch otherwise rest ih =>
    obtain rfl : kind = .ifStatement := hkind
    obtain rfl := Option.some.inj hparts
    refine ((stems_partsUnder hc rfl (by simp)).append
      (stems_suiteParts hc rfl (by simp))).append ?_
    by_cases hkind : otherwise.kind = .ifStatement
    · rw [if_pos hkind]
      cases hclause : ifParts c otherwise with
      | none => exact List.forall_mem_nil _
      | some parts =>
        exact (ih hkind hclause).above (Node.mem_preorder_of_mem_children (by simp))
    · rw [if_neg hkind]
      exact stems_suiteParts hc rfl (by simp)
  | case3 n htwo hthree =>
    rw [ifParts] at hparts
    · cases hparts
    · exact htwo
    · exact hthree

/-- those of a function, -/
theorem stems_functionParts (hc : c.keywordArgs = false) (hkind : tells n.kind = false)
    (hparts : functionParts c n.children = some parts) : Stems n parts := by
  generalize hns : n.children = ns at hparts
  match ns with
  | [] => cases hparts
  | [_] => cases hparts
  | name :: p :: more =>
    obtain rfl := Option.some.inj hparts
    have hbody : (p :: more).getLast (List.cons_ne_nil p more) ∈ n.children := by
      rw [hns]
      exact List.mem_cons_of_mem _ (List.getLast_mem _)
    refine (stems_partsUnder hc hkind ?_).append (stems_suiteParts rfl hkind hbody)
    rw [hns]
    exact List.cons_subset_cons _ (List.dropLast_subset _)

/-- those of a declaration -/
theorem stems_declarationParts (hc : c.keywordArgs = false) (hkind : tells n.kind = false)
    (hparts : declarationParts c n.children = some parts) : Stems n parts := by
  generalize hns : n.children = ns at hparts
  cases ns with
  | nil => cases hparts
  | cons name rest =>
    obtain rfl := Option.some.inj hparts
    refine (stems_partsUnder hc hkind (by simp [hns])).append (stems_partsUnder rfl hkind ?_)
    rw [hns]
    exact List.Subset.trans (List.take_subset _ _) (List.subset_cons_self _ _)

/-- and those of a member. -/
theorem stems_accessParts (hc : c.keywordArgs = false) (hkind : tells n.kind = false)
    (hparts : accessParts source c n = some parts) : Stems n parts := by
  rw [accessParts] at hparts
  split at hparts
  · obtain rfl := Option.some.inj hparts
    exact List.forall_mem_nil _
  · split at hparts
    · rename_i hchildren
      obtain rfl := Option.some.inj hparts
      exact (stems_partsUnder rfl hkind (by simp [hchildren])).append
        (stems_partsUnder hc hkind (by simp [hchildren]))
    · cases hparts

/-- The parts of a node that does not tell. -/
theorem stems_partsOf (hkind : tells n.kind = false)
    (hc : n.kind ≠ .propertyAssignment → c.keywordArgs = false)
    (hparts : partsOf source c n = some parts) : Stems n parts := by
  have hunder : ∀ {c ns}, c.keywordArgs = false → ns ⊆ n.children →
      some (partsUnder c ns) = some parts → Stems n parts := by
    intro c ns hc hns hparts
    obtain rfl := Option.some.inj hparts
    exact stems_partsUnder hc hkind hns
  -- Arrays, returned values and properties reset the flag.  All others pass on the context of the
  -- node, in which it is off.
  rw [partsOf] at hparts
  cases hn : n.kind with
  | sourceFile | block | variableStatement =>
    rw [hn] at hparts hc
    exact hunder (hc (by decide)) (List.Subset.refl _) hparts
  | arrayLiteral =>
    rw [hn] at hparts
    exact hunder rfl (List.Subset.refl _) hparts
  | expressionStatement | parameter | parenthesized =>
    rw [hn] at hparts hc
    obtain ⟨e, he, hparts⟩ := Option.map_eq_some_iff.mp hparts
    exact hunder (hc (by decide)) (by simpa using List.mem_of_head? he) (congrArg some hparts)
  | variableDeclaration =>
    rw [hn] at hparts hc
    exact stems_declarationParts (hc (by decide)) hkind hparts
  | ifStatement =>
    rw [hn] at hparts hc
    exact stems_ifParts (hc (by decide)) hn hparts
  | returnStatement =>
    rw [hn] at hparts
    exact hunder rfl (List.take_subset _ _) hparts
  | functionDeclaration =>
    rw [hn] at hparts hc
    exact stems_functionParts (hc (by decide)) hkind hparts
  | propertyAccess =>
    rw [hn] at hparts hc
    exact stems_accessParts (hc (by decide)) hkind hparts
  | propertyAssignment =>
    rw [hn] at hparts
    simp only at hparts
    split at hparts
    · rename_i hchildren
      exact hunder rfl (by simp [hchildren]) hparts
    · cases hparts
  | binaryExpression =>
    rw [hn] at hparts hc
    simp only at hparts
    split at hparts
    · rename_i hchildren
      obtain ⟨_, _, hparts⟩ := Option.map_eq_some_iff.mp hparts
      exact hunder (hc (by decide)) (by simp [hchildren]) (congrArg some hparts)
    · cases hparts
  | prefixUnary =>
    rw [hn] at hparts hc
    simp only at hparts
    split at hparts
    · rename_i hchildren
      obtain ⟨_, _, hparts⟩ := Option.map_eq_some_iff.mp hparts
      exact hunder (hc (by decide)) (by simp [hchildren]) (congrArg some hparts)
    · cases hparts
  | identifier | thisKeyword | stringLiteral | numericLiteral | trueKeyword | falseKeyword
  | emptyStatement =>
    rw [hn] at hparts
    obtain rfl := Option.some.inj hparts
    exact List.forall_mem_nil _
  | whileStatement | operator =>
    rw [hn] at hparts
    cases hparts
  | callExpression | newExpression | objectLiteral =>
    rw [hn] at hkind
    cases hkind

/-! #### Arguments -/

/-- An argument before others is converted as a value. -/
theorem argumentParts_cons_cons :
    argumentParts c (n :: m :: ns)
      = partsUnder (c.merge .value) [n] ++ argumentParts c (m :: ns) := by
  rw [argumentParts]
  exact List.cons_ne_nil m ns

/-- The flag is set for the last argument, if it is an object, and for no other. -/
theorem keywordArgs_of_mem_argumentParts (hns : ns.Nodup) (hp : p ∈ argumentParts c ns) :
    p.context.keywordArgs = true ↔ p.node.kind = .objectLiteral ∧ ns.getLast? = some p.node := by
  induction ns using argumentParts.induct with
  | case1 => cases hp
  | case2 last =>
    rw [argumentParts] at hp
    obtain rfl := List.mem_singleton.mp hp
    by_cases hkind : last.kind = .objectLiteral
    · simp [hkind, Context.merge, Context.keywords]
    · simp [hkind, Context.merge, Context.value]
  | case3 argument rest hrest ih =>
    obtain ⟨hargument, hrest'⟩ := List.nodup_cons.mp hns
    obtain ⟨second, later, rfl⟩ := List.exists_cons_of_ne_nil hrest
    -- The first argument is not the last one too, because arguments differ.
    rw [List.getLast?_cons_cons]
    rcases List.mem_append.mp (argumentParts_cons_cons ▸ hp) with hp | hp
    · obtain rfl := List.mem_singleton.mp hp
      refine iff_of_false Bool.false_ne_true fun h => hargument ?_
      exact List.mem_of_getLast? h.2
    · exact ih hrest' hp

/-- What is called is no argument, so that the flag is not set for it. -/
theorem keywordArgs_of_mem_callParts (hns : ns.Nodup) (hparts : callParts c ns = some parts)
    (hp : p ∈ parts) : p.context.keywordArgs = true
      ↔ p.node.kind = .objectLiteral ∧ (ns.drop 1).getLast? = some p.node := by
  cases ns with
  | nil => cases hparts
  | cons callee arguments =>
    obtain ⟨hcallee, harguments⟩ := List.nodup_cons.mp hns
    obtain rfl := Option.some.inj hparts
    rcases List.mem_append.mp hp with hp | hp
    · obtain rfl := List.mem_singleton.mp hp
      refine iff_of_false Bool.false_ne_true fun h => hcallee ?_
      exact List.mem_of_getLast? h.2
    · exact keywordArgs_of_mem_argumentParts harguments hp

/-! #### The invariant -/

/-- What is known of a node that is converted under a context: where the flag is set, it is because
    of where the node stands. -/
structure Situated (root : Ast) (c : Context) (n : Ast) : Prop where
  mem : n ∈ root.preorder
  operator : ∀ t, n.kind ≠ .operator t
  admits : Admits c n.kind
  object : n.kind = .objectLiteral → (c.keywordArgs = true ↔ LastArgument root n)
  property : n.kind = .propertyAssignment → (c.keywordArgs = true ↔ InLastArgument root n)

section

variable (hparse : parse source = .ok root)

include hparse

/-- A child of a node that does not tell, without a flag. -/
theorem situated_of_tells (hn : ChildOf root k n) (hkind : tells k.kind = false)
    (hoperator : ∀ t, n.kind ≠ .operator t) (hc : c.keywordArgs = false) : Situated root c n := by
  -- The node has no other parent that could tell it something.
  have hnone : ∀ {m}, ChildOf root m n → tells m.kind = true → False := by
    intro m hm htells
    rw [parent_unique hparse hm hn, hkind] at htells
    cases htells
  refine ⟨hn.mem_preorder, hoperator, fun h => ?_, fun _ => ?_, fun _ => ?_⟩
  · rw [hc] at h
    cases h
  · rw [hc]
    refine iff_of_false Bool.false_ne_true fun hlast => ?_
    obtain ⟨call, hcall, hkind | hkind, -⟩ := hlast.exists_childOf
    · exact hnone hcall (by rw [hkind]; rfl)
    · exact hnone hcall (by rw [hkind]; rfl)
  · rw [hc]
    refine iff_of_false Bool.false_ne_true ?_
    rintro ⟨object, hobject, hkind, hchild, -⟩
    exact hnone ⟨hobject, hchild⟩ (by rw [hkind]; rfl)

/-- The parts of a call. -/
theorem situated_of_callParts (hn : n ∈ root.preorder)
    (hkind : n.kind = .callExpression ∨ n.kind = .newExpression)
    (hparts : callParts c n.children = some parts)
    (hwhole : ∀ p ∈ parts, p.node.kind.isWhole = true ∧ Admits p.context p.node.kind)
    (hp : p ∈ parts) : Situated root p.context p.node := by
  obtain ⟨hwhole, hadmits⟩ := hwhole p hp
  have hnodup := nodup_children_of_parse hparse hn
  have hchild : p.node ∈ n.children :=
    (sublist_callParts hparts).subset (List.mem_map_of_mem hp)
  have hunique : ∀ {m}, ChildOf root m p.node → m = n := fun hm =>
    parent_unique hparse hm ⟨hn, hchild⟩
  have hflag : p.context.keywordArgs = true
      ↔ p.node.kind = .objectLiteral ∧ (n.children.drop 1).getLast? = some p.node :=
    keywordArgs_of_mem_callParts hnodup hparts hp
  refine ⟨Node.mem_preorder_child hn hchild, fun t ht => ?_,
    hadmits, fun hobject => ?_, fun hproperty => ?_⟩
  · rw [ht] at hwhole
    cases hwhole
  · rw [hflag, and_iff_right hobject]
    refine ⟨fun hlast => ⟨n, hn, hkind, hlast⟩, fun hlast => ?_⟩
    obtain ⟨call, hcall, -, hlast⟩ := hlast.exists_childOf
    rwa [hunique hcall] at hlast
  · -- A property is no argument, and its parent is no object.
    refine iff_of_false (fun h => ?_) ?_
    · rw [hflag, hproperty] at h
      cases h.1
    · rintro ⟨object, hobject, hobjectKind, hmem, -⟩
      rw [hunique ⟨hobject, hmem⟩] at hobjectKind
      rcases hkind with hkind | hkind
      all_goals
        rw [hkind] at hobjectKind
        cases hobjectKind

/-- The properties of an object stand where it does. -/
theorem situated_of_object (hn : Situated root c n) (hkind : n.kind = .objectLiteral)
    (hm : m ∈ n.children) : Situated root c m := by
  have hproperty : m.kind = .propertyAssignment :=
    (wellFormed_of_parse hparse n hn.mem).of_object hkind m hm
  have hchild : ChildOf root n m := ⟨hn.mem, hm⟩
  refine ⟨hchild.mem_preorder, ?_, fun _ => .inr hproperty, ?_, fun _ => ?_⟩
  · rw [hproperty]
    exact nofun
  · rw [hproperty]
    exact nofun
  · rw [hn.object hkind]
    refine ⟨fun hlast => ⟨n, hn.mem, hkind, hm, hlast⟩, ?_⟩
    rintro ⟨object, hobject, -, hmem, hlast⟩
    rwa [parent_unique hparse ⟨hobject, hmem⟩ hchild] at hlast

/-- The parts of a node that its handler takes. -/
theorem situated_of_partsOf (hn : Situated root c n) (hwhile : n.kind ≠ .whileStatement)
    (hparts : partsOf source c n = some parts) (hp : p ∈ parts) :
    Situated root p.context p.node := by
  have hwhole : ∀ p ∈ parts, p.node.kind.isWhole = true ∧ Admits p.context p.node.kind := by
    obtain ⟨parts', hparts', hwhole⟩ := exists_parts hparse hn.mem hn.operator hn.admits hwhile
    obtain rfl := Option.some.inj (hparts.symm.trans hparts')
    exact hwhole
  cases htells : tells n.kind with
  | true =>
    by_cases hobject : n.kind = .objectLiteral
    · rw [partsOf, hobject] at hparts
      obtain rfl := Option.some.inj hparts
      obtain ⟨m, hm, rfl⟩ := List.mem_map.mp hp
      exact situated_of_object hparse hn hobject hm
    · have hcall : n.kind = .callExpression ∨ n.kind = .newExpression := by
        generalize n.kind = kind at htells hobject
        cases kind with
        | callExpression => exact .inl rfl
        | newExpression => exact .inr rfl
        | objectLiteral => exact absurd rfl hobject
        | _ => cases htells
      have hcallParts : callParts c n.children = some parts := by
        rw [partsOf] at hparts
        rcases hcall with hcall | hcall
        all_goals
          rw [hcall] at hparts
          exact hparts
      exact situated_of_callParts hparse hn.mem hcall hcallParts hwhole hp
  | false =>
    have hc : n.kind ≠ .propertyAssignment → c.keywordArgs = false := fun hproperty => by
      refine hn.admits.keywordArgs (fun hobject => ?_) hproperty
      rw [hobject] at htells
      cases htells
    obtain ⟨hflag, k, hk, hchild, hkind⟩ := stems_partsOf htells hc hparts p hp
    refine situated_of_tells hparse ⟨Node.mem_preorder_trans hn.mem hk, hchild⟩ hkind
      (fun t ht => ?_) hflag
    have hwhole := (hwhole p hp).1
    rw [ht] at hwhole
    cases hwhole

/-- The parts of a loop. -/
theorem situated_of_unknownParts {settings : Settings} (hn : Situated root c n)
    (hkind : n.kind = .whileStatement) (hp : p ∈ unknownParts settings c n) :
    Situated root p.context p.node := by
  have hc : c.keywordArgs = false := by
    refine hn.admits.keywordArgs ?_ ?_
    all_goals
      rw [hkind]
      exact nofun
  obtain ⟨e, s, hchildren, hwhole⟩ := (wellFormed_of_parse hparse n hn.mem).of_while hkind
  rw [← hchildren] at hwhole
  rw [unknownParts] at hp
  split at hp
  · cases hp
  · obtain ⟨m, hm, rfl⟩ := List.mem_map.mp hp
    refine situated_of_tells hparse ⟨hn.mem, hm⟩ (by rw [hkind]; rfl) (fun t ht => ?_) hc
    have hwhole := hwhole m hm
    rw [ht] at hwhole
    cases hwhole

/-- What is known of a node is known of those that are converted in its steps. -/
theorem situated_of_mem_stepsOf {settings : Settings} (hn : Situated root c n)
    (hstep : .convert c' m ∈ stepsOf { source, settings } c n) : Situated root c' m := by
  obtain ⟨p, hp, rfl, rfl⟩ := mem_stepsOf.mp hstep
  rw [allPartsOf] at hp
  by_cases hwhile : n.kind = .whileStatement
  · have hnone : partsOf source c n = none := by rw [partsOf, hwhile]
    rw [hnone] at hp
    exact situated_of_unknownParts hparse hn hwhile hp
  · obtain ⟨parts, hparts, -⟩ := exists_parts hparse hn.mem hn.operator hn.admits hwhile
    rw [hparts] at hp
    exact situated_of_partsOf hparse hn hwhile hparts hp

/-- **The flag.**  Of each node that a run converts, it is known why it is converted under its
    context. -/
theorem situated_of_visitsOf {settings : Settings} :
    ∀ v ∈ backend.visitsOf { source, settings } root, Situated root v.context v.node := by
  have hroot : Situated root backend.initial root := by
    obtain ⟨lexemes, ss, -, -, rfl⟩ := parse_eq_ok.mp hparse
    exact ⟨Node.self_mem_preorder _, nofun, nofun, nofun, nofun⟩
  exact backend.visits_invariant { source, settings } (fun c n => follows_dispatch)
    (fun c n c' m hn hstep => situated_of_mem_stepsOf hparse hn hstep) hroot

/-- **Objects by their place.**  An object that a run converts comes out as keyword arguments
    exactly if it is the last argument of a call or of a `new` expression, and otherwise as a
    dictionary; its properties come out as `name=value` or as `"key": value` accordingly. -/
theorem objects_by_place (settings : Settings) :
    ∀ v ∈ backend.visitsOf { source, settings } root, ∀ left, v.left = left + 1 →
      let output := backend.outputOf { source, settings } v
      (v.node.kind = .objectLiteral →
        (IsKeywordList { source, settings } left v.context v.node output
            ↔ LastArgument root v.node)
          ∧ (IsDictionary { source, settings } left v.context v.node output
            ↔ ¬ LastArgument root v.node))
      ∧ (v.node.kind = .propertyAssignment →
        (IsKeyword { source, settings } left v.context v.node output
            ↔ InLastArgument root v.node)
          ∧ (IsEntry { source, settings } left v.context v.node output
            ↔ ¬ InLastArgument root v.node)) := by
  intro v hv left hleft
  have hsituated := situated_of_visitsOf hparse v hv
  refine ⟨fun hkind => ?_, fun hkind => ?_⟩
  · have hwritten : if v.context.keywordArgs then
          IsKeywordList { source, settings } left v.context v.node
            (backend.convert { source, settings } (left + 1) v.node v.state).1
        else IsDictionary { source, settings } left v.context v.node
            (backend.convert { source, settings } (left + 1) v.node v.state).1 :=
      convert_object hkind
    rw [← hleft] at hwritten
    -- The flag of the context is what is known to hold exactly in the places named; the two outputs
    -- cannot be had at once, so each form occurs in its place only.
    rw [← hsituated.object hkind]
    exact iff_and_iff_not hwritten fun hlist hdict => not_isDictionary hlist hdict
  · obtain ⟨key, value, -, hchildren, -, -⟩ :=
      (wellFormed_of_parse hparse v.node hsituated.mem).of_property hkind
    have hwritten : if v.context.keywordArgs then
          IsKeyword { source, settings } left v.context v.node
            (backend.convert { source, settings } (left + 1) v.node v.state).1
        else IsEntry { source, settings } left v.context v.node
            (backend.convert { source, settings } (left + 1) v.node v.state).1 :=
      convert_property hkind hchildren
    rw [← hleft] at hwritten
    rw [← hsituated.property hkind]
    exact iff_and_iff_not hwritten fun hkeyword hentry => not_isEntry hkeyword hentry

end

/-- The object that is the argument, and the one in the array that is the value of its property. -/
theorem objects_by_place_nested :
    ∃ root, parse "f({a:[{b:1}]})" = .ok root
      ∧ ∃ outer ∈ backend.visitsOf { source := "f({a:[{b:1}]})" } root,
        ∃ inner ∈ backend.visitsOf { source := "f({a:[{b:1}]})" } root,
          (outer.node.kind = .objectLiteral ∧ outer.node.start = 2
            ∧ IsKeywordList { source := "f({a:[{b:1}]})" } 252 outer.context outer.node
                (backend.outputOf { source := "f({a:[{b:1}]})" } outer))
          ∧ inner.node.kind = .objectLiteral ∧ inner.node.start = 6
            ∧ IsDictionary { source := "f({a:[{b:1}]})" } 249 inner.context inner.node
                (backend.outputOf { source := "f({a:[{b:1}]})" } inner) := by
  have hrun : (parse "f({a:[{b:1}]})").toOption.map (fun root =>
      ((backend.visitsOf { source := "f({a:[{b:1}]})" } root).filter
        (fun v => v.node.kind = .objectLiteral)).map fun v =>
          (v.node.start, v.left, v.context.keywordArgs))
      = some [(2, 253, true), (6, 250, false)] := by
    decide +kernel
  obtain ⟨root, hroot, hrun⟩ := Option.map_eq_some_iff.mp hrun
  have hroot := eq_ok_of_toOption hroot
  -- Each object of the list is one that the run converts, and its place tells what it becomes.
  have hobject : ∀ start left flag, (start, left + 1, flag) ∈ [(2, 253, true), (6, 250, false)] →
      ∃ v ∈ backend.visitsOf { source := "f({a:[{b:1}]})" } root, v.node.kind = .objectLiteral
        ∧ v.node.start = start ∧ if flag
          then IsKeywordList { source := "f({a:[{b:1}]})" } left v.context v.node
            (backend.outputOf { source := "f({a:[{b:1}]})" } v)
          else IsDictionary { source := "f({a:[{b:1}]})" } left v.context v.node
            (backend.outputOf { source := "f({a:[{b:1}]})" } v) := by
    intro start left flag hmem
    rw [← hrun] at hmem
    obtain ⟨v, hv, hwhat⟩ := List.mem_map.mp hmem
    obtain ⟨hv, hkind⟩ := List.mem_filter.mp hv
    have hkind := of_decide_eq_true hkind
    simp only [Prod.mk.injEq] at hwhat
    obtain ⟨hstart, hleft, rfl⟩ := hwhat
    obtain ⟨hlist, hdict⟩ := (objects_by_place hroot {} v hv left hleft).1 hkind
    have hsituated := (situated_of_visitsOf hroot v hv).object hkind
    refine ⟨v, hv, hkind, hstart, ?_⟩
    split
    · exact hlist.mpr (hsituated.mp ‹_›)
    · exact hdict.mpr (mt hsituated.mpr ‹_›)
  obtain ⟨outer, houter, hkind, hstart, hlist⟩ := hobject 2 252 true List.mem_cons_self
  obtain ⟨inner, hinner, hkind', hstart', hdict⟩ :=
    hobject 6 249 false (List.mem_cons_of_mem _ List.mem_cons_self)
  exact ⟨root, hroot, outer, houter, inner, hinner, ⟨hkind, hstart, hlist⟩, hkind', hstart', hdict⟩

end

end Transcode.Target
