import Transcode.Proofs.Forms
import Transcode.Proofs.Outputs
import Transcode.Proofs.Rekeying
import Transcode.Proofs.Relocation

namespace Transcode.Target

open Output Engine Script

/-!
# What a node becomes elsewhere

Handlers look at a source in a few ways only: at the text of leaves, at the comments before a node
and at the line breaks around it.  Where a source shows the same in these ways of some nodes as
another one does of the nodes at other places (`Copies`), the nodes have the same output there,
but for the keys of their comments (`output?_relocate`).
-/

/-- What handlers see of some nodes in a source, they see in another of the nodes elsewhere. -/
structure Copies (source source' : String) (m : Relocation) (ρ : String → String)
    (nodes : Ast → Prop) : Prop where
  children : ∀ n, nodes n → ∀ child ∈ n.children, nodes child
  form : ∀ n, nodes n → Form n.kind n.children
  text : ∀ n, nodes n → n.kind.leaf?.isSome = true ∨ n.kind = .whileStatement →
    (n.relocate m).textIn source' = n.textIn source
  log : ∀ n, nodes n →
    ((n.relocate m).textIn source' = "console.log" ↔ n.textIn source = "console.log")
  leading : ∀ n t, nodes n → withLeading source' (comment source') (n.relocate m) (t.mapKeys ρ)
    = (withLeading source (comment source) n t).mapKeys ρ
  breakPrecedes : ∀ n, nodes n → n.kind = .propertyAssignment →
    breakPrecedes source' (n.relocate m) = breakPrecedes source n
  blankLines : ∀ a b, nodes a → nodes b →
    blankLinesBetween source' (a.relocate m) (b.relocate m) = blankLinesBetween source a b
  breaksAfterStart : ∀ a b, nodes a → nodes b →
    breaksBefore source' (m.start a.start) (b.relocate m) = breaksBefore source a.start b
  breaksAfterStop : ∀ a b, nodes a → nodes b →
    breaksBefore source' (m.edge a.stop) (b.relocate m) = breaksBefore source a.stop b

section

variable {m : Relocation} {n : Ast} {ρ : String → String} {t : Tree}

/-- Operators are told by their sort, which moves with the node. -/
theorem operatorOf_relocate : operatorOf (n.relocate m) = operatorOf n := by
  rw [operatorOf, operatorOf, Node.kind_relocate]

/-- The type of a literal depends on sorts of nodes only. -/
theorem ofNode?_relocate : LiteralType.ofNode? (n.relocate m) = LiteralType.ofNode? n := by
  induction n using Node.induction with
  | h n ih =>
    obtain ⟨kind, fullStart, start, stop, children⟩ := n
    rw [Node.relocate_mk]
    cases kind with
    | parenthesized =>
      cases children with
      | nil => rfl
      | cons inner rest => exact ih inner List.mem_cons_self
    | prefixUnary =>
      cases children with
      | nil => rfl
      | cons operator rest => exact congrArg (·.bind LiteralType.ofPrefix?) operatorOf_relocate
    | binaryExpression =>
      rcases children with _ | ⟨left, _ | ⟨operator, _ | ⟨right, _ | ⟨fourth, rest⟩⟩⟩⟩
      · rfl
      · rfl
      · rfl
      · simp only [List.map_cons, List.map_nil, LiteralType.ofNode?, operatorOf_relocate,
          ih left List.mem_cons_self, ih right (by simp)]
      · rfl
    | _ => rfl

/-- A conversion to a string adds text without keys. -/
theorem mapKeys_asString {needed : Bool} :
    (asString needed t).mapKeys ρ = asString needed (t.mapKeys ρ) := by
  cases needed <;> simp [asString]

/-- The keys of trees as fragments are the keys of the trees. -/
@[simp] theorem mapKeysAll_fragmentsOf {ts : List Tree} :
    mapKeysAll ρ (fragmentsOf ts) = fragmentsOf (ts.map (Tree.mapKeys ρ)) := by
  rw [mapKeysAll_eq_map, fragmentsOf, fragmentsOf, List.map_map, List.map_map]
  rfl

end

namespace Setting

/-- In the other setting, the other program has the value of this one, changed by `g`. -/
def Turns (I I' : Setting) {α β : Type} (g : α → β) (c : Context) (p : Writing α)
    (p' : Writing β) : Prop :=
  I'.value? p' c = (I.value? p c).map g

/-- Some nodes come to the same elsewhere in another setting. -/
structure CopiedBy (I I' : Setting) (m : Relocation) (ρ : String → String) (nodes : Ast → Prop) :
    Prop where
  source : Copies I.job.source I'.job.source m ρ nodes
  settings : I'.job.settings = I.job.settings
  output : ∀ c n, nodes n → I'.output c (n.relocate m) = (I.output c n).map (Tree.mapKeys ρ)

variable {I I' : Setting} {m : Relocation} {ρ : String → String} {nodes : Ast → Prop}
  {c : Context} {n : Ast} {ns : List Ast} {α β γ δ : Type}

/-! ### Services -/

/-- A program that only has a value. -/
theorem turns_pure {g : α → β} {a : α} {b : β} (h : b = g a) :
    I.Turns I' g c (pure a) (pure b) := by
  subst h
  rfl

/-- One program after another, which only matters for what the first one comes to. -/
theorem Turns.bind_of_value {g : α → β} {g' : γ → δ} {p : Writing α} {p' : Writing β}
    {k : α → Writing γ} {k' : β → Writing δ} (h : I.Turns I' g c p p')
    (hk : ∀ a, I.value? p c = some a → I.Turns I' g' c (k a) (k' (g a))) :
    I.Turns I' g' c (p >>= k) (p' >>= k') := by
  have hp : I'.value? p' c = (I.value? p c).map g := h
  rw [value?, value?] at hp
  rw [Turns, value?, value?, Program.value?_bind, Program.value?_bind, hp, Option.bind_map,
    Option.map_bind]
  exact Option.bind_congr hk

/-- One program after another. -/
theorem Turns.bind {g : α → β} {g' : γ → δ} {p : Writing α} {p' : Writing β}
    {k : α → Writing γ} {k' : β → Writing δ} (h : I.Turns I' g c p p')
    (hk : ∀ a, I.Turns I' g' c (k a) (k' (g a))) : I.Turns I' g' c (p >>= k) (p' >>= k') :=
  h.bind_of_value fun a _ => hk a

/-- A program with something done to its value. -/
theorem Turns.map {g : α → β} {g' : γ → δ} {p : Writing α} {p' : Writing β} {k : α → γ}
    {k' : β → δ} (h : I.Turns I' g c p p') (hk : ∀ a, k' (g a) = g' (k a)) :
    I.Turns I' g' c (p >>= fun a => pure (k a)) (p' >>= fun b => pure (k' b)) :=
  h.bind fun a => turns_pure (hk a)

/-- A look at the context. -/
theorem turns_context {g : α → β} {k : Context → Writing α} {k' : Context → Writing β}
    (h : I.Turns I' g c (k c) (k' c)) :
    I.Turns I' g c (Program.context >>= k) (Program.context >>= k') :=
  h

variable (h : I.CopiedBy I' m ρ nodes)
include h

/-- A conversion comes to the same elsewhere, as the setting says. -/
theorem turns_convertNode (hn : nodes n) :
    I.Turns I' (Tree.mapKeys ρ) c (convertNode n) (convertNode (n.relocate m)) := by
  rw [Turns, value?, value?, convertNode, convertNode, Program.value?_ask, Program.value?_ask]
  exact h.output c n hn

/-- So does one under a context pushed. -/
theorem turns_convertUnder {update : Context} (hn : nodes n) :
    I.Turns I' (Tree.mapKeys ρ) c (convertUnder update n) (convertUnder update (n.relocate m)) := by
  rw [Turns, value?, value?, convertUnder, convertUnder, Program.value?_under,
    Program.value?_under]
  exact turns_convertNode h hn

/-- Conversions of nodes in order. -/
theorem turns_convertAll (hns : ∀ n ∈ ns, nodes n) :
    I.Turns I' (List.map (Tree.mapKeys ρ)) c (convertAll ns)
      (convertAll (ns.map (Node.relocate m))) := by
  induction ns with
  | nil => exact turns_pure rfl
  | cons n ns ih =>
    obtain ⟨hn, hns⟩ := List.forall_mem_cons.mp hns
    exact (turns_convertNode h hn).bind fun t => (ih hns).map fun ts => rfl

/-! ### Suites and clauses -/

/-- Statements joined after the last one that was not empty, which moves with them. -/
theorem turns_joinAfter {previous : Option Ast} (hprevious : ∀ p ∈ previous, nodes p)
    (hns : ∀ n ∈ ns, nodes n) :
    I.Turns I' (mapKeysAll ρ) c (joinAfter I.job.source previous ns)
      (joinAfter I'.job.source (previous.map (Node.relocate m)) (ns.map (Node.relocate m))) := by
  induction ns generalizing previous with
  | nil => exact turns_pure rfl
  | cons n ns ih =>
    obtain ⟨hn, hns⟩ := List.forall_mem_cons.mp hns
    rw [List.map_cons, joinAfter, joinAfter]
    refine (turns_convertNode h hn).bind fun t => ?_
    rw [Tree.isEmpty_mapKeys]
    split
    · exact ih hprevious hns
    · have hn' : ∀ p ∈ some n, nodes p := fun p hp => Option.some.inj hp ▸ hn
      refine (ih hn' hns).map fun later => ?_
      cases previous with
      | none => rfl
      | some p =>
        simp only [Option.map_some, h.source.blankLines p n (hprevious p rfl) hn]
        rfl

/-- Statements joined from the first one on. -/
theorem turns_joinWithBlankLines (hns : ∀ n ∈ ns, nodes n) :
    I.Turns I' (mapKeysAll ρ) c (joinWithBlankLines I.job.source ns)
      (joinWithBlankLines I'.job.source (ns.map (Node.relocate m))) := by
  have hnone : ∀ p ∈ (none : Option Ast), nodes p := nofun
  exact turns_joinAfter h hnone hns

/-- A suite: it has the statements of a block, or one statement alone. -/
theorem turns_suite (hn : nodes n) :
    I.Turns I' (Tree.mapKeys ρ) c (suite I.job n) (suite I'.job (n.relocate m)) := by
  have hstatements : (if (n.relocate m).kind = .block then (n.relocate m).children
      else [n.relocate m])
        = (if n.kind = .block then n.children else [n]).map (Node.relocate m) := by
    rw [Node.kind_relocate, Node.children_relocate]
    split <;> rfl
  rw [suite, suite, hstatements]
  refine (turns_joinWithBlankLines h ?_).map fun lines => ?_
  · split
    · exact h.source.children n hn
    · exact List.forall_mem_singleton.mpr hn
  · rw [isEmpty_mapKeysAll]
    split <;> simp

/-- A clause of a choice, by induction on the choices in its `else`. -/
theorem turns_ifClause {keyword : String} (hn : nodes n) :
    I.Turns I' (Option.map (Tree.mapKeys ρ)) c (ifClause I.job keyword n)
      (ifClause I'.job keyword (n.relocate m)) := by
  induction keyword, n using ifClause.induct with
  | case1 keyword kind fullStart start stop condition branch rest ih =>
    have hchildren := h.source.children _ hn
    obtain ⟨hcondition, hbranch, hrest⟩ := by
      simpa only [List.forall_mem_cons] using hchildren
    rw [Node.relocate_mk, List.map_cons, List.map_cons, ifClause, ifClause]
    refine (turns_convertNode h hcondition).bind fun a => (turns_suite h hbranch).bind fun b => ?_
    cases rest with
    | nil => exact turns_pure (by simp)
    | cons otherwise rest =>
      have hotherwise := hrest otherwise List.mem_cons_self
      simp only [List.map_cons, Node.kind_relocate]
      by_cases hkind : otherwise.kind = .ifStatement
      · simp only [if_pos hkind]
        refine (ih hotherwise).map fun clause => ?_
        cases clause <;> simp
      · simp only [if_neg hkind]
        exact (turns_suite h hotherwise).map fun t => by simp
  | case2 n keyword hshort =>
    -- With fewer than two children there is no clause, here or there.
    obtain ⟨kind, fullStart, start, stop, children⟩ := n
    rcases children with _ | ⟨first, _ | ⟨second, rest⟩⟩
    · exact turns_pure rfl
    · exact turns_pure rfl
    · exact absurd rfl (hshort kind fullStart start stop first second rest)

/-! ### Calls, objects and lists -/

/-- Arguments, the last of which may be written as keywords. -/
theorem turns_convertArguments (hns : ∀ n ∈ ns, nodes n) :
    I.Turns I' (List.map (Tree.mapKeys ρ)) c (convertArguments ns)
      (convertArguments (ns.map (Node.relocate m))) := by
  induction ns using convertArguments.induct with
  | case1 => exact turns_pure rfl
  | case2 last =>
    simp only [List.map_cons, List.map_nil, convertArguments, Node.kind_relocate]
    exact (turns_convertUnder h (hns last List.mem_cons_self)).map fun t => rfl
  | case3 argument rest hrest ih =>
    obtain ⟨hargument, hns⟩ := List.forall_mem_cons.mp hns
    rw [List.map_cons, convertArguments, convertArguments]
    · exact (turns_convertUnder h hargument).bind fun t => (ih hns).map fun ts => rfl
    · exact fun hnil => hrest (List.map_eq_nil_iff.mp hnil)
    · exact hrest

/-- A call of anything. -/
theorem turns_call (hns : ∀ n ∈ ns, nodes n) :
    I.Turns I' (Option.map (Tree.mapKeys ρ)) c (call ns) (call (ns.map (Node.relocate m))) := by
  cases ns with
  | nil => exact turns_pure rfl
  | cons callee arguments =>
    obtain ⟨hcallee, harguments⟩ := List.forall_mem_cons.mp hns
    refine (turns_convertUnder h hcallee).bind fun t =>
      (turns_convertArguments h harguments).map fun ts => ?_
    simp

/-- A keyword argument, with the comments before it and the break in front. -/
theorem turns_keywordArgument (hn : nodes n) (hkind : n.kind = .propertyAssignment) :
    I.Turns I' (Tree.mapKeys ρ) c (keywordArgument I.job n)
      (keywordArgument I'.job (n.relocate m)) := by
  refine (turns_convertNode h hn).bind fun t => Turns.map (g := Tree.mapKeys ρ) ?_ fun u => ?_
  · rw [Turns, value?, value?, Program.value?_mapRequests, Program.value?_mapRequests]
    simp only [answer?_comment, value?_attachLeadingTrivia, Option.map_some,
      h.source.leading n t hn]
  · simp [echoBreak, h.source.breakPrecedes n hn hkind]

/-- Keyword arguments in order. -/
theorem turns_keywordArguments (hns : ∀ n ∈ ns, nodes n)
    (hkinds : ∀ n ∈ ns, n.kind = .propertyAssignment) :
    I.Turns I' (List.map (Tree.mapKeys ρ)) c (keywordArguments I.job ns)
      (keywordArguments I'.job (ns.map (Node.relocate m))) := by
  induction ns with
  | nil => exact turns_pure rfl
  | cons n ns ih =>
    obtain ⟨hn, hns⟩ := List.forall_mem_cons.mp hns
    obtain ⟨hkind, hkinds⟩ := List.forall_mem_cons.mp hkinds
    exact (turns_keywordArgument h hn hkind).bind fun t => (ih hns hkinds).map fun ts => rfl

/-- The elements of a list after an offset that shows the same before all of them. -/
theorem turns_convertElements {update : Option Context} {start start' : Nat}
    (hstart : ∀ b, nodes b → breaksBefore I'.job.source start' (b.relocate m)
      = breaksBefore I.job.source start b) (hns : ∀ n ∈ ns, nodes n) :
    I.Turns I' (mapKeysAll ρ) c (convertElements I.job.source update start ns)
      (convertElements I'.job.source update start' (ns.map (Node.relocate m))) := by
  induction ns generalizing start start' with
  | nil => exact turns_pure rfl
  | cons n ns ih =>
    obtain ⟨hn, hns⟩ := List.forall_mem_cons.mp hns
    have hlater := ih (fun b hb => h.source.breaksAfterStop n b hn hb) hns
    rw [← Node.stop_relocate] at hlater
    cases update with
    | none =>
      refine (turns_convertNode h hn).bind fun t => hlater.map fun later => ?_
      rw [hstart n hn]
      split <;> simp
    | some update =>
      refine (turns_convertUnder h hn).bind fun t => hlater.map fun later => ?_
      rw [hstart n hn]
      split <;> simp

/-- A list between delimiters, on one line or on several. -/
theorem turns_convertDelimited {layout : Delimited Context} (hn : nodes n)
    (hns : ∀ n ∈ ns, nodes n) :
    I.Turns I' (Tree.mapKeys ρ) c (convertDelimited I.job.source n ns layout)
      (convertDelimited I'.job.source (n.relocate m) (ns.map (Node.relocate m)) layout) := by
  have hstart := fun b => h.source.breaksAfterStart n b hn
  rw [convertDelimited, convertDelimited, Node.start_relocate]
  refine (turns_convertElements h hstart hns).map fun body => ?_
  cases ns with
  | nil => simp
  | cons e ns => simp [hstart e (hns e List.mem_cons_self)]

/-- An object, which is keyword arguments at the end of a call. -/
theorem turns_object (hn : nodes n) (hkind : n.kind = .objectLiteral) :
    I.Turns I' (Option.map (Tree.mapKeys ρ)) c (object I.job n)
      (object I'.job (n.relocate m)) := by
  have hchildren := h.source.children n hn
  have hkinds : ∀ p ∈ n.children, p.kind = .propertyAssignment :=
    (h.source.form n hn).of_object hkind
  refine turns_context ?_
  rw [Node.children_relocate]
  split
  · exact (turns_keywordArguments h hchildren hkinds).map fun ts => by simp
  · exact (turns_convertDelimited h hn hchildren).map fun t => rfl

/-- An array is a list between brackets. -/
theorem turns_array (hn : nodes n) :
    I.Turns I' (Option.map (Tree.mapKeys ρ)) c (array I.job n) (array I'.job (n.relocate m)) := by
  rw [array, array, Node.children_relocate]
  exact (turns_convertDelimited h hn (h.source.children n hn)).map fun t => rfl

/-- The text of a leaf. -/
theorem textIn_leaf {t : Token} (hn : nodes n) (ht : n.kind.leaf? = some t) :
    (n.relocate m).textIn I'.job.source = n.textIn I.job.source :=
  h.source.text n hn (.inl (by rw [ht]; rfl))

/-! ### Operators and members -/

/-- A property: the text of its name is that of a leaf. -/
theorem turns_property {key value : Ast} {t : Token} (hkey : nodes key)
    (ht : key.kind.leaf? = some t) (hvalue : nodes value) :
    I.Turns I' (Option.map (Tree.mapKeys ρ)) c (property I.job [key, value])
      (property I'.job [key.relocate m, value.relocate m]) := by
  refine (turns_convertUnder h hvalue).bind fun v => turns_context ?_
  rw [textIn_leaf h hkey ht, Node.kind_relocate]
  split <;> exact turns_pure (by simp)

/-- A binary expression: what it becomes depends on the operator and on literal types. -/
theorem turns_binary {left operator right : Ast} {t : Token} (hleft : nodes left)
    (hoperator : nodes operator) (ht : operator.kind.leaf? = some t) (hright : nodes right) :
    I.Turns I' (Option.map (Tree.mapKeys ρ)) c (binary I.job [left, operator, right])
      (binary I'.job [left.relocate m, operator.relocate m, right.relocate m]) := by
  simp only [binary, operatorOf_relocate, ofNode?_relocate, textIn_leaf h hoperator ht]
  cases operatorOf operator with
  | none => exact turns_pure rfl
  | some token =>
    refine (turns_convertNode h hleft).bind fun l => (turns_convertNode h hright).map fun r => ?_
    simp [mapKeys_asString]

/-- An operator in front of its operand. -/
theorem turns_prefixed {operator operand : Ast} {t : Token} (hoperator : nodes operator)
    (ht : operator.kind.leaf? = some t) (hoperand : nodes operand) :
    I.Turns I' (Option.map (Tree.mapKeys ρ)) c (prefixed I.job [operator, operand])
      (prefixed I'.job [operator.relocate m, operand.relocate m]) := by
  simp only [prefixed, operatorOf_relocate, textIn_leaf h hoperator ht]
  cases operatorOf operator with
  | none => exact turns_pure rfl
  | some token => exact (turns_convertNode h hoperand).map fun o => by simp

/-- A member: it is compared with `console.log` by its text. -/
theorem turns_access (hn : nodes n) :
    I.Turns I' (Option.map (Tree.mapKeys ρ)) c (access I.job n) (access I'.job (n.relocate m)) := by
  have hchildren := h.source.children n hn
  have hlog := h.source.log n hn
  rw [access, access, Node.children_relocate]
  generalize n.children = ns at hchildren ⊢
  by_cases hprint : n.textIn I.job.source = "console.log"
  · rw [if_pos hprint, if_pos (hlog.mpr hprint)]
    exact turns_pure (by simp)
  · rw [if_neg hprint, if_neg (mt hlog.mp hprint)]
    rcases ns with _ | ⟨object, _ | ⟨name, _ | ⟨third, rest⟩⟩⟩
    · exact turns_pure rfl
    · exact turns_pure rfl
    · obtain ⟨hobject, hname, -⟩ := by simpa only [List.forall_mem_cons] using hchildren
      refine (turns_convertUnder h hobject).bind fun o => ?_
      refine (turns_convertNode h hname).map fun a => ?_
      simp
    · exact turns_pure rfl

/-! ### Statements -/

/-- The declaration of one variable. -/
theorem turns_declaration (hns : ∀ n ∈ ns, nodes n) :
    I.Turns I' (Option.map (Tree.mapKeys ρ)) c (declaration ns)
      (declaration (ns.map (Node.relocate m))) := by
  match ns with
  | [] => exact turns_pure rfl
  | [name] =>
    exact (turns_convertNode h (hns name List.mem_cons_self)).map fun a => by simp
  | name :: init :: _ =>
    obtain ⟨hname, hinit, -⟩ := by simpa only [List.forall_mem_cons] using hns
    refine (turns_convertNode h hname).bind fun a => (turns_convertUnder h hinit).map fun v => ?_
    simp

/-- A result given back: the report of one outside a function is not part of its value. -/
theorem turns_returned (hn : nodes n) :
    I.Turns I' (Option.map (Tree.mapKeys ρ)) c (returned n) (returned (n.relocate m)) := by
  have hchildren := h.source.children n hn
  refine turns_context ?_
  rw [Node.children_relocate]
  generalize n.children = ns at hchildren ⊢
  -- A report changes nothing about the value.
  cases c.inFunction <;> cases ns with
  | nil => exact turns_pure (by simp)
  | cons value rest =>
    exact (turns_convertUnder h (hchildren value List.mem_cons_self)).map fun v => by simp

/-- A function: its body is under the context of functions. -/
theorem turns_function (hns : ∀ n ∈ ns, nodes n) :
    I.Turns I' (Option.map (Tree.mapKeys ρ)) c (function I.job ns)
      (function I'.job (ns.map (Node.relocate m))) := by
  match ns with
  | [] | [_] => exact turns_pure rfl
  | name :: p :: more =>
    obtain ⟨hname, hrest⟩ := List.forall_mem_cons.mp hns
    have hbody := hrest _ (List.getLast_mem (List.cons_ne_nil p more))
    have hparameters : ∀ n ∈ (p :: more).dropLast, nodes n := fun n hn =>
      hrest n (List.mem_of_mem_dropLast hn)
    rw [List.map_cons, List.map_cons, function, function, Node.getLast_relocate, ← List.map_cons,
      ← List.map_dropLast]
    refine (turns_convertAll h hparameters).bind fun ps => ?_
    refine Turns.bind (g := Tree.mapKeys ρ) ?_ fun body => ?_
    · rw [Turns, value?, value?, Program.value?_under, Program.value?_under]
      exact turns_suite h hbody
    · exact (turns_convertNode h hname).map fun a => by simp

/-- What becomes of the first child, with something around it. -/
theorem turns_withFirst {f : Tree → Tree} (hf : ∀ t, f (t.mapKeys ρ) = (f t).mapKeys ρ)
    (hns : ∀ n ∈ ns, nodes n) :
    I.Turns I' (Option.map (Tree.mapKeys ρ)) c (withFirst f ns)
      (withFirst f (ns.map (Node.relocate m))) := by
  cases ns with
  | nil => exact turns_pure rfl
  | cons e rest =>
    exact (turns_convertNode h (hns e List.mem_cons_self)).map fun t => congrArg some (hf t)

/-! ### All kinds of nodes -/

/-- Every handler comes to the same elsewhere, by the sort of the node. -/
theorem turns_handle (hn : nodes n) :
    I.Turns I' (Option.map (Tree.mapKeys ρ)) c (handle I.job n)
      (handle I'.job (n.relocate m)) := by
  have hchildren := h.source.children n hn
  have hform := h.source.form n hn
  -- Handlers that tell children by their number rely on the form of the node.
  rw [handle, handle, Node.kind_relocate, Node.children_relocate]
  cases hkind : n.kind with
  | sourceFile | block =>
    exact (turns_joinWithBlankLines h hchildren).map fun lines => by simp
  | expressionStatement | parameter | parenthesized =>
    exact turns_withFirst h (fun t => by simp) hchildren
  | variableStatement => exact (turns_convertAll h hchildren).map fun ts => by simp
  | variableDeclaration => exact turns_declaration h hchildren
  | ifStatement =>
    refine (turns_ifClause h hn).map fun t => ?_
    cases t <;> rfl
  | whileStatement | operator => exact turns_pure rfl
  | returnStatement => exact turns_returned h hn
  | functionDeclaration => exact turns_function h hchildren
  | callExpression | newExpression => exact turns_call h hchildren
  | propertyAccess => exact turns_access h hn
  | objectLiteral => exact turns_object h hn hkind
  | propertyAssignment =>
    obtain ⟨key, value, t, hpair, ht, -⟩ := hform.of_property hkind
    rw [hpair] at hchildren ⊢
    obtain ⟨hkey, hvalue, -⟩ := by simpa only [List.forall_mem_cons] using hchildren
    exact turns_property h hkey ht hvalue
  | arrayLiteral => exact turns_array h hn
  | binaryExpression =>
    obtain ⟨left, operator, right, htriple, hop, -⟩ := hform.of_binary hkind
    rw [htriple] at hchildren ⊢
    obtain ⟨t, ht⟩ := hop.token
    obtain ⟨hleft, hoperator, hright, -⟩ := by simpa only [List.forall_mem_cons] using hchildren
    exact turns_binary h hleft hoperator (congrArg Kind.leaf? ht) hright
  | prefixUnary =>
    obtain ⟨operator, operand, hpair, hop, -⟩ := hform.of_prefixed hkind
    rw [hpair] at hchildren ⊢
    obtain ⟨t, ht⟩ := hop.token
    obtain ⟨hoperator, hoperand, -⟩ := by simpa only [List.forall_mem_cons] using hchildren
    exact turns_prefixed h hoperator (congrArg Kind.leaf? ht) hoperand
  | identifier | stringLiteral | numericLiteral =>
    have htext := h.source.text n hn (.inl (by rw [hkind]; rfl))
    simp only [htext]
    exact turns_pure (by simp)
  | thisKeyword | trueKeyword | falseKeyword | emptyStatement => exact turns_pure (by simp)

/-- A node that nothing handles: its text or its children stand in for it. -/
theorem turns_convertUnknown (hn : nodes n)
    (htext : n.kind.leaf?.isSome = true ∨ n.kind = .whileStatement) :
    I.Turns I' (Tree.mapKeys ρ) c (convertUnknown I.job n)
      (convertUnknown I'.job (n.relocate m)) := by
  have hchildren := h.source.children n hn
  have hreport : I.Turns I' id c (reportUnsupported n) (reportUnsupported (n.relocate m)) := rfl
  rw [convertUnknown, convertUnknown, standIn, standIn, h.settings, h.source.text n hn htext,
    Node.kindName_relocate, Node.children_relocate]
  refine hreport.bind fun _ => ?_
  cases I.job.settings.unknownNodes with
  | bestEffort => exact turns_pure (by simp)
  | strict =>
    generalize n.children = ns at hchildren ⊢
    cases ns with
    | nil => exact turns_pure (by simp)
    | cons child rest =>
      exact (turns_convertAll h hchildren).map fun ts => by simp [linesUnder]

/-- What becomes of a node is the same elsewhere. -/
theorem turns_dispatch (hn : nodes n) :
    I.Turns I' (Tree.mapKeys ρ) c (backend.dispatch I.job n)
      (backend.dispatch I'.job (n.relocate m)) := by
  rw [Backend.dispatch, Backend.dispatch]
  refine (turns_handle h hn).bind_of_value fun o ho => ?_
  cases o with
  | some t => exact turns_pure rfl
  | none =>
    refine turns_convertUnknown h hn ?_
    have hfollows : (handle I.job n).Follows Context.merge c _ _ := follows_handle
    have hnone : none.isSome = (partsOf I.job.source c n).isSome := hfollows.of_value? ho
    by_contra! hkind
    rw [isSome_partsOf (h.source.form n hn) hkind.2] at hnone
    · exact Bool.false_ne_true hnone
    -- An operator with a token is a leaf, and one without has no form.
    · intro t ht
      have hform := h.source.form n hn
      rw [ht] at hform hkind
      generalize n.children = ns at hform
      cases hform with
      | leaf hleaf => exact hkind.1 (by rw [hleaf]; rfl)

end Setting

/-- **The output of a node elsewhere.**  If a source shows what another one shows of some nodes,
    these have the output elsewhere that they have here, but for its keys. -/
theorem output?_relocate {job job' : Job} {m : Relocation} {ρ : String → String}
    {nodes : Ast → Prop} {refused refused' : Ast → Option Tree}
    (h : Copies job.source job'.source m ρ nodes)
    (hsettings : job'.settings = job.settings)
    (hrefused : ∀ n, nodes n → refused' (n.relocate m) = (refused n).map (Tree.mapKeys ρ))
    {left : Nat} {c : Context} {n : Ast} (hn : nodes n) :
    backend.output? job' refused' left c (n.relocate m)
      = (backend.output? job refused left c n).map (Tree.mapKeys ρ) := by
  induction left generalizing c n with
  | zero => exact hrefused n hn
  | succ left ih =>
    let I : Setting := ⟨job, backend.output? job refused left⟩
    let I' : Setting := ⟨job', backend.output? job' refused' left⟩
    have hcopied : I.CopiedBy I' m ρ nodes := ⟨h, hsettings, fun c n hn => ih hn⟩
    have hdispatch : I'.value? (backend.dispatch job' (n.relocate m)) c
        = (I.value? (backend.dispatch job n) c).map (Tree.mapKeys ρ) :=
      Setting.turns_dispatch hcopied hn
    have hfinished : ∀ t : Tree, finished job'.source (n.relocate m) (t.mapKeys ρ)
        = (finished job.source n t).mapKeys ρ := fun t => by
      rw [finished, finished, Tree.wantsComments_mapKeys, Tree.isEmpty_mapKeys, h.leading n t hn]
      split <;> rfl
    rw [output?_succ, output?_succ]
    apply (congrArg (Option.map _) hdispatch).trans
    simp only [Option.map_map, Function.comp_def, hfinished]
    rfl

end Transcode.Target
