import Transcode.Proofs.Assembly
import Transcode.Proofs.Gaps
import Transcode.Proofs.Placement

namespace Transcode.Target

open Output Engine Script

/-!
# Comments keep their order

Nodes that begin with the same token have the same leading trivia, and many of them ask for the
comments there, so that the output tree holds a comment many times over.  Rendering writes each of
them once, where it comes first.  What makes this the order of the source is an invariant of every
conversion, `Fits`: each comment in the output of a node is in the leading trivia of a node of its
tree, and it was there before or comes after all those that were (`Climbs`).  Outputs that stand
one after the other fit together (`fits_of_spread`), and so does an output with the comments
before its node (`Fits.led`).
-/

/-! ### Sequences that climb -/

/-- Each number is one of those before or greater than all of them; `seen` came before the list. -/
def Climbs (seen : List Nat) : List Nat → Prop
  | [] => True
  | k :: rest => (k ∈ seen ∨ ∀ j ∈ seen, j < k) ∧ Climbs (k :: seen) rest

section

variable {seen ks ks' : List Nat}

/-- A sequence climbs if its parts do, the second one after the first. -/
theorem climbs_append :
    Climbs seen (ks ++ ks') ↔ Climbs seen ks ∧ Climbs (ks.reverse ++ seen) ks' := by
  induction ks generalizing seen with
  | nil => exact ⟨fun h => ⟨trivial, h⟩, And.right⟩
  | cons k ks ih =>
    rw [List.cons_append, Climbs, Climbs, ih, List.reverse_cons, List.append_assoc, and_assoc]
    rfl

/-- What climbs by itself climbs after other numbers, if each number is one of them or greater. -/
theorem Climbs.after {before : List Nat} (h : Climbs before ks)
    (hks : ∀ k ∈ ks, k ∈ seen ∨ ∀ j ∈ seen, j < k) : Climbs (before ++ seen) ks := by
  induction ks generalizing before with
  | nil => trivial
  | cons k ks ih =>
    obtain ⟨hk, hrest⟩ := h
    obtain ⟨hk', hks'⟩ := List.forall_mem_cons.mp hks
    refine ⟨?_, ih hrest hks'⟩
    rcases hk with hk | hk
    · exact .inl (List.mem_append_left _ hk)
    · rcases hk' with hk' | hk'
      · exact .inl (List.mem_append_right _ hk')
      · exact .inr (List.forall_mem_append.mpr ⟨hk, hk'⟩)

/-- What climbs by itself climbs after numbers that it has or exceeds. -/
theorem Climbs.after_nil (h : Climbs [] ks) (hks : ∀ k ∈ ks, k ∈ seen ∨ ∀ j ∈ seen, j < k) :
    Climbs seen ks :=
  h.after hks

/-- Numbers in strict order climb. -/
theorem climbs_of_pairwise (h : ks.Pairwise (· < ·)) (hseen : ∀ k ∈ ks, ∀ j ∈ seen, j < k) :
    Climbs seen ks := by
  induction ks generalizing seen with
  | nil => trivial
  | cons k ks ih =>
    obtain ⟨hk, hks⟩ := List.pairwise_cons.mp h
    obtain ⟨hk', hks'⟩ := List.forall_mem_cons.mp hseen
    refine ⟨.inr hk', ih hks fun k' hmem => List.forall_mem_cons.mpr ⟨hk k' hmem, hks' k' hmem⟩⟩

/-- First occurrences in a list that climbs are in strict order. -/
theorem Climbs.pairwise (h : Climbs seen ks) (hseen : seen.dedup.Pairwise (· > ·)) :
    (ks.reverse ++ seen).dedup.Pairwise (· > ·) := by
  induction ks generalizing seen with
  | nil => exact hseen
  | cons k ks ih =>
    obtain ⟨hk, hrest⟩ := h
    rw [List.reverse_cons, List.append_assoc, List.singleton_append]
    refine ih hrest ?_
    rw [List.dedup_cons]
    split
    · exact hseen
    · rename_i hnot
      refine List.pairwise_cons.mpr ⟨fun j hj => ?_, hseen⟩
      exact (hk.resolve_left hnot) j (List.mem_dedup.mp hj)

end

/-! ### Nodes in a tree -/

variable {source : String} {root n m : Ast} {ms : List Ast}

/-- Children nest as their node does. -/
theorem nests_of_mem_children {child : Ast} (h : ∀ k ∈ n.preorder, Nests k)
    (hchild : child ∈ n.children) : ∀ k ∈ child.preorder, Nests k :=
  fun k hk => h k (Node.mem_preorder_of_child hchild hk)

/-- How the nodes of a tree stand to its root. -/
theorem place_of_mem_preorder (h : ∀ k ∈ n.preorder, Nests k) (hm : m ∈ n.preorder) :
    n.fullStart ≤ m.fullStart ∧ m.stop ≤ n.stop
      ∧ (m.fullStart = n.fullStart ∧ m.start = n.start ∨ n.start < m.fullStart) := by
  induction n using Node.induction with
  | h n ih =>
    rcases Node.mem_preorder.mp hm with rfl | ⟨child, hchild, hm⟩
    · exact ⟨Nat.le_refl _, Nat.le_refl _, .inl ⟨rfl, rfl⟩⟩
    -- The first child may share the leading trivia of its parent; the others begin later.
    · have hn := h n n.self_mem_preorder
      have hbelow := nests_of_mem_children h hchild
      have hplace := ih child hchild hbelow hm
      have hfull := hn.fullStart_le
      have hfull' := (hbelow child child.self_mem_preorder).fullStart_le
      have hinside := hn.inside child hchild
      have hleading := hn.leading child hchild
      omega

/-- Some nodes of a tree that stand one after the other. -/
structure Spread (n : Ast) (ms : List Ast) : Prop where
  mem : ∀ m ∈ ms, m ∈ n.preorder
  apart : ms.Pairwise fun a b => a.stop ≤ b.fullStart

/-- Children, or some of them. -/
theorem spread_of_sublist (h : Nests n) (hms : ms.Sublist n.children) : Spread n ms :=
  ⟨fun _ hm => Node.mem_preorder_of_mem_children (hms.subset hm), h.apart.sublist hms⟩

/-- A node may be replaced by nodes of its own. -/
theorem Spread.replace (as cs : List Ast) {bs : List Ast} {b : Ast}
    (h : ∀ k ∈ n.preorder, Nests k) (hall : Spread n (as ++ b :: cs)) (hb : Spread b bs) :
    Spread n (as ++ bs ++ cs) := by
  have hmem := hall.mem
  have hapart := hall.apart
  rw [List.forall_mem_append, List.forall_mem_cons] at hmem
  rw [List.pairwise_append, List.pairwise_cons] at hapart
  obtain ⟨has, hbmem, hcs⟩ := hmem
  obtain ⟨hasApart, ⟨hbcs, hcsApart⟩, hasbcs⟩ := hapart
  have hbelow := Node.forall_preorder_of_mem h hbmem
  have hplace := fun k hk => place_of_mem_preorder hbelow (hb.mem k hk)
  refine ⟨?_, ?_⟩
  · rw [List.forall_mem_append, List.forall_mem_append]
    exact ⟨⟨has, fun k hk => Node.mem_preorder_trans hbmem (hb.mem k hk)⟩, hcs⟩
  · rw [List.pairwise_append, List.pairwise_append]
    refine ⟨⟨hasApart, hb.apart, fun a ha k hk => ?_⟩, hcsApart, fun a ha c hc => ?_⟩
    · exact Nat.le_trans (hasbcs a ha b List.mem_cons_self) (hplace k hk).1
    · rcases List.mem_append.mp ha with ha | ha
      · exact hasbcs a ha c (List.mem_cons_of_mem _ hc)
      · exact Nat.le_trans (hplace a ha).2.1 (hbcs c hc)

/-! ### Parts stand one after the other -/

section Parts

variable {c : Context} {ns : List Ast} {parts : List Part}

/-- The parts under a context are the nodes given, -/
theorem map_node_partsUnder (c : Context) (ns : List Ast) :
    (partsUnder c ns).map (·.node) = ns := by
  rw [partsUnder, List.map_map]
  exact List.map_id ns

/-- and arguments are theirs. -/
theorem map_node_argumentParts : (argumentParts c ns).map (·.node) = ns := by
  induction ns using argumentParts.induct with
  | case1 => rfl
  | case2 last => rfl
  | case3 argument rest hrest ih =>
    rw [argumentParts, List.map_append, ih, map_node_partsUnder]
    · rfl
    · exact hrest

/-- The statements of a suite stand one after the other. -/
theorem spread_suiteParts (h : ∀ k ∈ n.preorder, Nests k) :
    Spread n ((suiteParts c n).map (·.node)) := by
  rw [suiteParts, map_node_partsUnder]
  split
  · exact spread_of_sublist (h n n.self_mem_preorder) (List.Sublist.refl _)
  · exact ⟨List.forall_mem_singleton.mpr n.self_mem_preorder, List.pairwise_singleton _ _⟩

/-- The parts of a conditional statement stand one after the other. -/
theorem spread_ifParts (h : ∀ k ∈ n.preorder, Nests k) (hparts : ifParts c n = some parts) :
    Spread n (parts.map (·.node)) := by
  induction n using ifParts.induct c generalizing parts with
  | case1 kind fullStart start stop condition branch =>
    obtain rfl := Option.some.inj hparts
    have hbranch := nests_of_mem_children h (List.mem_cons_of_mem _ List.mem_cons_self)
    have hall := spread_of_sublist (h _ (Node.self_mem_preorder _)) (List.Sublist.refl _)
    have hspread := hall.replace [condition] [] h (spread_suiteParts (c := c) hbranch)
    rwa [List.append_nil, ← map_node_partsUnder c [condition], ← List.map_append] at hspread
  | case2 kind fullStart start stop condition branch otherwise rest ih =>
    obtain rfl := Option.some.inj hparts
    -- The branches are replaced by their parts one after the other.
    have hbranch := nests_of_mem_children h (List.mem_cons_of_mem _ List.mem_cons_self)
    have hotherwise := nests_of_mem_children h
      (List.mem_cons_of_mem _ (List.mem_cons_of_mem _ List.mem_cons_self))
    have hlater : Spread otherwise ((if otherwise.kind = .ifStatement then
        (ifParts c otherwise).getD [] else suiteParts c otherwise).map (·.node)) := by
      split
      · cases hclause : ifParts c otherwise with
        | none => exact ⟨nofun, .nil⟩
        | some parts => exact ih hotherwise hclause
      · exact spread_suiteParts hotherwise
    have hthree :
        [condition, branch, otherwise].Sublist (condition :: branch :: otherwise :: rest) :=
      (((List.nil_sublist rest).cons_cons _).cons_cons _).cons_cons _
    have hall := spread_of_sublist (h _ (Node.self_mem_preorder _)) hthree
    have hfirst := hall.replace [condition] [otherwise] h (spread_suiteParts (c := c) hbranch)
    have hspread := hfirst.replace _ [] h hlater
    rwa [List.append_nil, ← map_node_partsUnder c [condition], ← List.map_append,
      ← List.map_append] at hspread
  | case3 n htwo hthree =>
    rw [ifParts] at hparts
    · cases hparts
    · exact htwo
    · exact hthree

/-- The parts of a function stand one after the other. -/
theorem spread_functionParts (h : ∀ k ∈ n.preorder, Nests k)
    (hparts : functionParts c n.children = some parts) : Spread n (parts.map (·.node)) := by
  generalize hns : n.children = ns at hparts
  match ns with
  | [] => cases hparts
  | [_] => cases hparts
  | name :: p :: more =>
    obtain rfl := Option.some.inj hparts
    have hsplit : name :: (p :: more).dropLast ++ [(p :: more).getLast (by simp)] = n.children := by
      rw [List.cons_append, List.dropLast_append_getLast, hns]
    have hbody := nests_of_mem_children h
      (hsplit ▸ List.mem_append_right _ List.mem_cons_self)
    have hall := spread_of_sublist (h n n.self_mem_preorder) (List.Sublist.refl _)
    rw [← hsplit] at hall
    have hspread := hall.replace _ [] h (spread_suiteParts (c := c.merge .body) hbody)
    rw [List.map_append, map_node_partsUnder]
    rwa [List.append_nil] at hspread

/-- A call has the nodes given as its parts, -/
theorem sublist_callParts (hparts : callParts c ns = some parts) :
    (parts.map (·.node)).Sublist ns := by
  cases ns with
  | nil => cases hparts
  | cons callee arguments =>
    obtain rfl := Option.some.inj hparts
    rw [List.map_append, map_node_partsUnder, map_node_argumentParts]
    exact List.Sublist.refl _

/-- a member has its children, -/
theorem sublist_accessParts (hparts : accessParts source c n = some parts) :
    (parts.map (·.node)).Sublist n.children := by
  rw [accessParts] at hparts
  split at hparts
  · obtain rfl := Option.some.inj hparts
    exact List.nil_sublist _
  · split at hparts
    · rename_i hchildren
      obtain rfl := Option.some.inj hparts
      rw [List.map_append, map_node_partsUnder, map_node_partsUnder, hchildren]
      exact List.Sublist.refl _
    · cases hparts

/-- and a declaration the nodes given, some left out. -/
theorem sublist_declarationParts (hparts : declarationParts c ns = some parts) :
    (parts.map (·.node)).Sublist ns := by
  cases ns with
  | nil => cases hparts
  | cons name rest =>
    obtain rfl := Option.some.inj hparts
    rw [List.map_append, map_node_partsUnder, map_node_partsUnder]
    exact (List.take_sublist 1 rest).cons_cons name

/-- The parts of a node stand one after the other. -/
theorem spread_partsOf (h : ∀ k ∈ n.preorder, Nests k) (hparts : partsOf source c n = some parts) :
    Spread n (parts.map (·.node)) := by
  -- The parts are some of the children in order, except that those of a branch or of a body stand
  -- for it.
  have hsub : (parts.map (·.node)).Sublist n.children → Spread n (parts.map (·.node)) :=
    spread_of_sublist (h n n.self_mem_preorder)
  have hunder : ∀ {c ms}, ms.Sublist n.children → some (partsUnder c ms) = some parts →
      Spread n (parts.map (·.node)) := by
    intro c ms hms hparts
    obtain rfl := Option.some.inj hparts
    exact hsub (by rwa [map_node_partsUnder])
  rw [partsOf] at hparts
  cases hkind : n.kind <;> simp only [hkind] at hparts
  case sourceFile | block | variableStatement | arrayLiteral =>
    exact hunder (List.Sublist.refl _) hparts
  case expressionStatement | parameter | parenthesized =>
    obtain ⟨e, he, hparts⟩ := Option.map_eq_some_iff.mp hparts
    exact hunder (List.singleton_sublist.mpr (List.mem_of_head? he)) (congrArg some hparts)
  case variableDeclaration => exact hsub (sublist_declarationParts hparts)
  case ifStatement => exact spread_ifParts h hparts
  case returnStatement => exact hunder (List.take_sublist 1 _) hparts
  case functionDeclaration => exact spread_functionParts h hparts
  case callExpression | newExpression => exact hsub (sublist_callParts hparts)
  case propertyAccess => exact hsub (sublist_accessParts hparts)
  case objectLiteral =>
    obtain rfl := Option.some.inj hparts
    refine hsub ?_
    rw [List.map_map]
    show (n.children.map id).Sublist n.children
    rw [List.map_id]
  case propertyAssignment =>
    split at hparts
    · rename_i hchildren
      exact hunder (hchildren ▸ List.singleton_sublist.mpr (by simp)) hparts
    · cases hparts
  case binaryExpression =>
    split at hparts
    · rename_i left operator right hchildren
      obtain ⟨_, _, hparts⟩ := Option.map_eq_some_iff.mp hparts
      have houter : [left, right].Sublist n.children :=
        hchildren ▸ (List.sublist_cons_self operator [right]).cons_cons left
      exact hunder houter (congrArg some hparts)
    · cases hparts
  case prefixUnary =>
    split at hparts
    · rename_i operator operand hchildren
      obtain ⟨_, _, hparts⟩ := Option.map_eq_some_iff.mp hparts
      exact hunder (hchildren ▸ List.sublist_cons_self operator _) (congrArg some hparts)
    · cases hparts
  case identifier | thisKeyword | stringLiteral | numericLiteral | trueKeyword | falseKeyword
      | emptyStatement =>
    obtain rfl := Option.some.inj hparts
    exact hsub (List.nil_sublist _)
  case whileStatement | operator => cases hparts

/-- The parts of a node are nodes of its tree. -/
theorem mem_preorder_of_mem_partsOf {p : Part} (h : ∀ k ∈ n.preorder, Nests k)
    (hparts : partsOf source c n = some parts) (hp : p ∈ parts) : p.node ∈ n.preorder :=
  (spread_partsOf h hparts).mem _ (List.mem_map_of_mem hp)

/-- The parts of a node that nothing handles stand one after the other. -/
theorem spread_unknownParts {settings : Settings} (h : ∀ k ∈ n.preorder, Nests k) :
    Spread n ((unknownParts settings c n).map (·.node)) := by
  rw [unknownParts]
  split
  · exact ⟨List.forall_mem_nil _, .nil⟩
  · rw [map_node_partsUnder]
    exact spread_of_sublist (h n n.self_mem_preorder) (List.Sublist.refl _)

end Parts

/-! ### Comments before nodes -/

section

variable {all before dropped after : List Lexeme} {l : Lexeme}

/-- The comments among some tokens that stand before the first token of a node, in its leading
    trivia. -/
def commentsBefore (all : List Lexeme) (n : Ast) : List Lexeme :=
  all.filter fun l => l.token.isComment && decide (n.fullStart ≤ l.start ∧ l.start < n.start)

/-- Both ways to say where lexemes end agree. -/
theorem endOf_eq_endAfter (lexemes : List Lexeme) : endOf lexemes = endAfter 0 lexemes := by
  rcases List.eq_nil_or_concat lexemes with rfl | ⟨front, l, rfl⟩
  · rfl
  · rw [List.concat_eq_append, endOf_concat, endAfter_append]
    rfl

/-- They are the comments of the gap before the node. -/
theorem commentsBefore_of_gap (ho : InOrder 0 (before ++ dropped ++ after))
    (hdropped : ∀ l ∈ dropped, l.token.isComment = true) (hfirst : endOf before = n.fullStart)
    (hafter : ∀ l ∈ after, n.start ≤ l.start)
    (hlast : endAfter 0 (before ++ dropped) ≤ n.start) :
    commentsBefore (before ++ dropped ++ after) n = dropped := by
  rw [endOf_eq_endAfter] at hfirst
  have hfront := (inOrder_append.mp ho).1
  obtain ⟨hbefore, hmid⟩ := inOrder_append.mp hfront
  rw [endAfter_append] at hlast
  have hnone : ∀ ls : List Lexeme, (∀ l ∈ ls, ¬ (n.fullStart ≤ l.start ∧ l.start < n.start)) →
      commentsBefore ls n = [] := fun ls hls =>
    List.filter_eq_nil_iff.mpr fun l hl => by simp [hls l hl]
  have hsome : commentsBefore dropped n = dropped := by
    refine List.filter_eq_self.mpr fun l hl => ?_
    obtain ⟨hstart, hlt, hstop⟩ := hmid.of_mem hl
    rw [hdropped l hl, Bool.true_and, decide_eq_true_eq]
    omega
  have happend : ∀ a b, commentsBefore (a ++ b) n = commentsBefore a n ++ commentsBefore b n :=
    fun _ _ => List.filter_append ..
  rw [happend, happend, hsome, hnone before, hnone after, List.nil_append, List.append_nil]
  · intro l hl
    have hle := hafter l hl
    omega
  · intro l hl
    obtain ⟨-, hlt, hstop⟩ := hbefore.of_mem hl
    omega

/-- The tokens of a source end inside it. -/
theorem endAfter_le_size (h : Lexes 0 source.toList all) :
    endAfter 0 all ≤ source.utf8ByteSize := by
  cases all with
  | nil => exact Nat.zero_le _
  | cons l rest =>
    obtain ⟨l', hl', hstop⟩ := exists_stop_eq_endAfter 0 l rest
    exact hstop ▸ (isBoundary_of_mem h hl').2.le

/-- The scanner finds in the leading trivia of a node the comments before it. -/
theorem comments_leading (h : parse source = .ok root) (htokens : tokens source = .ok all)
    (hn : n ∈ root.preorder) :
    Trivia.comments (Trivia.scan source n.fullStart none)
      = (commentsBefore all n).map Lexeme.place := by
  obtain ⟨before, dropped, after, hgap, hfirst, hstart, hends⟩ := exists_gap_of_parse h hn
  obtain ⟨hcomments, -⟩ := hgap.scan hends
  obtain rfl := Except.ok.inj (htokens.symm.trans hgap.tokens)
  have hlexes := lexes_of_tokensFrom htokens
  have horder := inOrder_of_lexes hlexes
  -- The scanner reads the gap up to the node, where the next token begins or the source ends.
  obtain ⟨hafter, hlast⟩ : (∀ l ∈ after, n.start ≤ l.start)
      ∧ endAfter 0 (before ++ dropped) ≤ n.start := by
    rw [← hstart]
    cases after with
    | nil =>
      rw [List.append_nil] at hlexes
      exact ⟨nofun, endAfter_le_size hlexes⟩
    | cons l rest =>
      obtain ⟨-, hlast, hlt, hback⟩ := inOrder_append.mp horder
      refine ⟨List.forall_mem_cons.mpr ⟨Nat.le_refl _, fun l' hl' => ?_⟩, hlast⟩
      exact Nat.le_trans (Nat.le_of_lt hlt) (hback.of_mem hl').1
  rw [← hfirst, hcomments, commentsBefore_of_gap horder hgap.dropped hfirst hafter hlast]

/-- The comments that a node may have in front, by where they begin: those before it. -/
theorem positions_leadingOf (h : parse source = .ok root) (htokens : tokens source = .ok all)
    (hn : n ∈ root.preorder) :
    positions (leadingOf source n) = (commentsBefore all n).map (·.start) := by
  rw [leadingOf, positions_piecesOf, comments_leading h htokens hn, List.map_map]
  rfl

/-- There is nothing in front of a node if there is no comment. -/
theorem piecesOf_eq_nil {spans : List Trivia.Span} {owes : Bool} (h : Trivia.comments spans = []) :
    piecesOf source false owes spans = [] := by
  induction spans with
  | nil => rfl
  | cons first rest ih =>
    rw [Trivia.comments, List.map_eq_nil_iff, List.filter_eq_nil_iff, List.forall_mem_cons] at h
    have hkind : first.kind = .text := by simpa [Trivia.Span.isComment] using h.1
    rw [piecesOf, hkind]
    exact ih (by rw [Trivia.comments, List.filter_eq_nil_iff.mpr h.2]; rfl)

/-- No node has a comment in front if there are none. -/
theorem leadingOf_eq_nil (h : parse source = .ok root) (htokens : tokens source = .ok all)
    (hcomments : ∀ l ∈ all, l.token.isComment = false) (hn : n ∈ root.preorder) :
    leadingOf source n = [] := by
  refine piecesOf_eq_nil ?_
  rw [comments_leading h htokens hn, commentsBefore, List.map_eq_nil_iff,
    List.filter_eq_nil_iff]
  exact fun l hl => by simp [hcomments l hl]

/-- Nothing is put before the output of a node without comments. -/
theorem finished_of_leadingOf {t : Tree} (h : leadingOf source n = []) :
    finished source n t = t := by
  rw [finished, withLeading, h]
  exact ite_self t

/-- They stand in order, between where the leading trivia begin and the first token. -/
theorem positions_leadingOf_pairwise (h : parse source = .ok root) (hn : n ∈ root.preorder) :
    (positions (leadingOf source n)).Pairwise (· < ·)
      ∧ ∀ k ∈ positions (leadingOf source n), n.fullStart ≤ k ∧ k < n.start := by
  obtain ⟨lexemes, ss, hlex, -, -⟩ := parse_eq_ok.mp h
  obtain ⟨all, htokens, -⟩ := lex_eq_ok.mp hlex
  have horder := (inOrder_of_lexes (lexes_of_tokensFrom htokens)).filter fun l =>
    l.token.isComment && decide (n.fullStart ≤ l.start ∧ l.start < n.start)
  rw [positions_leadingOf h htokens hn]
  refine ⟨List.pairwise_map.mpr horder.pairwise, fun k hk => ?_⟩
  obtain ⟨l, hl, rfl⟩ := List.mem_map.mp hk
  have hl := (List.mem_filter.mp hl).2
  rw [Bool.and_eq_true, decide_eq_true_eq] at hl
  exact hl.2

end

/-! ### The invariant -/

/-- The comments in the output of a node are all in the leading trivia of nodes of its tree, and
    each was there before or comes after all those that were. -/
def Fits (source : String) (n : Ast) (t : Tree) : Prop :=
  ∃ pieces, t.keyed = pieces.map (·.tree (comment source))
    ∧ (∀ p ∈ pieces, ∃ m ∈ n.preorder, p ∈ leadingOf source m) ∧ Climbs [] (positions pieces)

section

variable {t u : Tree} {ts : List Tree}

/-- An output without comments fits. -/
theorem fits_of_keyed_eq_nil (h : t.keyed = []) : Fits source n t :=
  ⟨[], h, nofun, trivial⟩

variable (hparse : parse source = .ok root)

include hparse

/-- Where the comments of a node's tree can be. -/
theorem place_of_mem_leadingOf {k : Nat} (hn : n ∈ root.preorder) (hm : m ∈ n.preorder)
    (hk : k ∈ positions (leadingOf source m)) :
    n.fullStart ≤ k ∧ k < n.stop ∧ (k ∈ positions (leadingOf source n) ∨ n.start < k) := by
  have hmroot := Node.mem_preorder_trans hn hm
  have hnests := Node.forall_preorder_of_mem (nests_of_parse hparse) hn
  obtain ⟨hfull, hstop, hplace⟩ := place_of_mem_preorder hnests hm
  obtain ⟨hle, hlt⟩ := (positions_leadingOf_pairwise hparse hmroot).2 k hk
  have hend := (nests_of_parse hparse m hmroot).start_le
  refine ⟨by omega, by omega, ?_⟩
  rcases hplace with ⟨hsame, -⟩ | hafter
  · rw [leadingOf, hsame] at hk
    exact .inl hk
  · exact .inr (by omega)

/-- Comments before a node fit in front of its output. -/
theorem Fits.led (hn : n ∈ root.preorder) (h : Fits source n t)
    (hled : Led source (comment source) n t u) : Fits source n u := by
  obtain ⟨pieces, hkeyed, hpieces, hclimbs⟩ := h
  obtain ⟨hpairwise, hbounds⟩ := positions_leadingOf_pairwise hparse hn
  refine ⟨leadingOf source n ++ pieces, ?_, ?_, ?_⟩
  · rw [hled.keyed, hkeyed, List.map_append]
  · rw [List.forall_mem_append]
    exact ⟨fun p hp => ⟨n, n.self_mem_preorder, hp⟩, hpieces⟩
  · rw [positions_append, climbs_append, List.append_nil]
    -- A comment further inside is one of those in front, or comes after the first token.
    refine ⟨climbs_of_pairwise hpairwise nofun, hclimbs.after_nil fun k hk => ?_⟩
    obtain ⟨span, hspan, rfl⟩ := mem_positions.mp hk
    obtain ⟨m, hm, hmem⟩ := hpieces _ hspan
    obtain ⟨-, -, hplace⟩ :=
      place_of_mem_leadingOf hparse hn hm (mem_positions.mpr ⟨span, hmem, rfl⟩)
    rw [List.mem_reverse]
    refine hplace.imp_right fun hafter j hj => ?_
    have hj := hbounds j (List.mem_reverse.mp hj)
    omega

/-- Outputs of nodes that stand one after the other fit together. -/
theorem exists_pieces_of_forall₂ (hms : ∀ m ∈ ms, m ∈ root.preorder)
    (hapart : ms.Pairwise fun a b => a.stop ≤ b.fullStart)
    (hts : List.Forall₂ (Fits source) ms ts) :
    ∃ pieces, ts.flatMap Tree.keyed = pieces.map (·.tree (comment source))
      ∧ (∀ p ∈ pieces, ∃ m ∈ ms, ∃ k ∈ m.preorder, p ∈ leadingOf source k)
      ∧ Climbs [] (positions pieces) := by
  induction hts with
  | nil => exact ⟨[], rfl, nofun, trivial⟩
  | @cons m t ms ts hfits _ ih =>
    obtain ⟨hm, hms⟩ := List.forall_mem_cons.mp hms
    obtain ⟨hfirst, hapart⟩ := List.pairwise_cons.mp hapart
    obtain ⟨ps, hkeyed, hps, hclimbs⟩ := hfits
    obtain ⟨qs, hkeyed', hqs, hclimbs'⟩ := ih hms hapart
    refine ⟨ps ++ qs, ?_, ?_, ?_⟩
    · rw [List.flatMap_cons, hkeyed, hkeyed', List.map_append]
    · rw [List.forall_mem_append]
      refine ⟨fun p hp => ⟨m, List.mem_cons_self, hps p hp⟩, fun p hp => ?_⟩
      obtain ⟨m', hm', hmem⟩ := hqs p hp
      exact ⟨m', List.mem_cons_of_mem _ hm', hmem⟩
    · rw [positions_append, climbs_append, List.append_nil]
      -- All comments of a node end before the leading trivia of the nodes after it begin.
      refine ⟨hclimbs, hclimbs'.after_nil fun k hk => .inr fun j hj => ?_⟩
      obtain ⟨span, hspan, rfl⟩ := mem_positions.mp (List.mem_reverse.mp hj)
      obtain ⟨span', hspan', rfl⟩ := mem_positions.mp hk
      obtain ⟨a, ha, hmem⟩ := hps _ hspan
      obtain ⟨m', hm', b, hb, hmem'⟩ := hqs _ hspan'
      have hleft := place_of_mem_leadingOf hparse hm ha (mem_positions.mpr ⟨span, hmem, rfl⟩)
      have hright := place_of_mem_leadingOf hparse (hms m' hm') hb
        (mem_positions.mpr ⟨span', hmem', rfl⟩)
      have hbetween := hfirst m' hm'
      omega

/-- They fit a node that they are parts of. -/
theorem fits_of_spread (hn : n ∈ root.preorder) (hms : Spread n ms)
    (hts : List.Forall₂ (Fits source) ms ts) (ht : t.keyed = ts.flatMap Tree.keyed) :
    Fits source n t := by
  obtain ⟨pieces, hkeyed, hpieces, hclimbs⟩ := exists_pieces_of_forall₂ hparse
    (fun m hm => Node.mem_preorder_trans hn (hms.mem m hm)) hms.apart hts
  refine ⟨pieces, ht.trans hkeyed, fun p hp => ?_, hclimbs⟩
  obtain ⟨m, hm, k, hk, hmem⟩ := hpieces p hp
  exact ⟨k, Node.mem_preorder_trans (hms.mem m hm) hk, hmem⟩

/-! ### Conversions keep it -/

/-- What becomes of the nodes of a source: outputs without a key of their own that fit. -/
def Fitting (source : String) (root : Ast) (_ : Context) (n : Ast) (t : Tree) : Prop :=
  t.layout.renderOnce = none ∧ (n ∈ root.preorder → Fits source n t)

/-- What becomes of a part fits its node. -/
theorem fits_of_gives {p : Part} (hp : p.node ∈ root.preorder)
    (h : p.Gives source (Fitting source root) t) : Fits source p.node t := by
  rw [Part.Gives] at h
  split at h
  · exact h.2 hp
  · obtain ⟨output, houtput, hled⟩ := h
    exact (houtput.2 hp).led hparse hp hled

/-- Parts fit where they are put. -/
theorem fits_of_gathers {parts : List Part} (hn : n ∈ root.preorder)
    (hparts : Spread n (parts.map (·.node)))
    (h : Gathers source (Fitting source root) parts t) : Fits source n t := by
  obtain ⟨ts, hts, hholds⟩ := h
  have hmem : ∀ p ∈ parts, p.node ∈ root.preorder := fun p hp =>
    Node.mem_preorder_trans hn (hparts.mem _ (List.mem_map_of_mem hp))
  have hfits := ((List.forall₂_and_left parts ts).mpr ⟨hmem, hts⟩).imp fun p t h =>
    fits_of_gives hparse h.1 h.2
  exact fits_of_spread hparse hn hparts (List.forall₂_map_left_iff.mpr hfits) hholds.keyed_tree

/-- A dispatched node fits, and so does the finished output. -/
theorem fitting_step (settings : Settings) (c : Context) :
    (backend.dispatch { source, settings } n).Ensures backend.merge
      (backend.Answers { source, settings } (Fitting source root)) c
      (backend.Finishes { source, settings } n c (Fitting source root c n)) := by
  refine (ensures_dispatch fun c n t ht => ht.1).mono fun t ht => ?_
  have hfits : Fitting source root c n t := by
    have hnests : n ∈ root.preorder → ∀ k ∈ n.preorder, Nests k :=
      Node.forall_preorder_of_mem (nests_of_parse hparse)
    split at ht
    · rename_i parts hparts
      refine ⟨ht.gathers.unkeyed, fun hn => ?_⟩
      exact fits_of_gathers hparse hn (spread_partsOf (hnests hn) hparts) ht.gathers
    · refine ⟨ht.unkeyed, fun hn => ?_⟩
      exact fits_of_gathers hparse hn (spread_unknownParts (hnests hn)) ht
  exact finishes_of hfits.1 (fun _ => hfits) fun u hled =>
    ⟨hled.unkeyed, fun hn => (hfits.2 hn).led hparse hn hled⟩

/-- Converting the tree of a source does not fail, and the output fits. -/
theorem exists_fits (settings : Settings) :
    ∃ outcome, convertTree source settings root = .ok outcome
      ∧ Fits source root outcome.tree := by
  -- Nodes that nest too deep are copied from the source, without any keys.
  have hrefuse : ∀ (c : Context) (n : Ast), Fitting source root c n (.ofText (n.textIn source)) :=
    fun c n => ⟨rfl, fun _ => fits_of_keyed_eq_nil (Holds.text _).ofFragments.keyed_tree⟩
  obtain ⟨outcome, houtcome, hfits⟩ := backend.convertRoot_satisfies { source, settings }
    (fun _ => True) (fun c n _ => hrefuse c n) (fun c n => fitting_step hparse settings c) root
  exact ⟨outcome, houtcome, (hfits fun _ _ => trivial).2 root.self_mem_preorder⟩

end

/-! ### Rendering -/

/-- Comments and blank lines hold no keys of their own. -/
theorem isFlat_tree (source : String) (p : Piece) : (p.tree (comment source)).IsFlat := by
  cases p with
  | blank start => exact ⟨rfl, rfl⟩
  | comment span =>
    have htexts : ∀ lines : List (List Char),
        keyedAll (nonempty (lines.map fun line => .text (commentLine line))) = [] := by
      intro lines
      refine keyedAll_eq_nil fun f hf => ?_
      obtain ⟨line, -, rfl⟩ := List.mem_map.mp (List.mem_filter.mp hf).1
      rfl
    show (comment source span).IsFlat
    rw [comment]
    split
    · exact ⟨rfl, rfl⟩
    · exact ⟨htexts _, rfl⟩

/-- It does not matter whether repeated keys are dropped first or last. -/
theorem filter_dedup (p : String → Bool) (keys : List String) :
    keys.dedup.filter p = (keys.filter p).dedup := by
  induction keys with
  | nil => rfl
  | cons key keys ih =>
    by_cases hp : p key = true
    · by_cases hmem : key ∈ keys
      · have hmem' : key ∈ keys.filter p := List.mem_filter.mpr ⟨hmem, hp⟩
        rw [List.dedup_cons_of_mem hmem, List.filter_cons_of_pos hp,
          List.dedup_cons_of_mem hmem', ih]
      · have hmem' : key ∉ keys.filter p := fun h => hmem (List.mem_filter.mp h).1
        rw [List.dedup_cons_of_notMem hmem, List.filter_cons_of_pos hp, List.filter_cons_of_pos hp,
          List.dedup_cons_of_notMem hmem', ih]
    · rw [List.filter_cons_of_neg hp, ← ih]
      by_cases hmem : key ∈ keys
      · rw [List.dedup_cons_of_mem hmem]
      · rw [List.dedup_cons_of_notMem hmem, List.filter_cons_of_neg hp]

/-- An output that fits has no comments within comments. -/
theorem Fits.isFlat {t : Tree} (h : Fits source n t) : ∀ u ∈ t.keyed, u.IsFlat := by
  obtain ⟨pieces, hkeyed, -⟩ := h
  rw [hkeyed]
  exact List.forall_mem_map.mpr fun p _ => isFlat_tree source p

/-- The comments that are written for a tree that fits, in the order in which they are. -/
theorem fired_of_fits {t : Tree} (h : Fits source n t) (strategy : Strategy) :
    ∃ starts : List Nat, starts.Pairwise (· < ·)
      ∧ (Sink.writeTreeWith {} t strategy).fired.reverse.filter isCommentKey
        = starts.map commentKey := by
  have hflat := h.isFlat
  obtain ⟨pieces, hkeyed, -, hclimbs⟩ := h
  have hpairwise := hclimbs.pairwise .nil
  rw [List.append_nil] at hpairwise
  refine ⟨(positions pieces).reverse.dedup.reverse, List.pairwise_reverse.mpr hpairwise, ?_⟩
  rw [fired_writeTreeWith strategy hflat, hkeyed, keysOf_map_tree, List.filter_reverse,
    filter_dedup, List.filter_reverse, filter_isCommentKey_map_key, ← List.map_reverse,
    List.dedup_map_of_injective commentKey_injective, List.map_reverse]

/-- **Comments keep their order.**  A source that parses is converted, and the comments that are
    written when its output is rendered stand at strictly increasing offsets of the source: none is
    written twice, and none comes before one that was before it. -/
theorem comments_keep_order {source : String} {root : Ast} (h : parse source = .ok root)
    (settings : Settings) :
    ∃ outcome, convertTree source settings root = .ok outcome
      ∧ ∃ starts : List Nat, starts.Pairwise (· < ·)
        ∧ (Sink.writeTreeWith {} outcome.tree settings.strategy).fired.reverse.filter isCommentKey
          = starts.map commentKey := by
  obtain ⟨outcome, houtcome, hfits⟩ := exists_fits h settings
  exact ⟨outcome, houtcome, fired_of_fits hfits settings.strategy⟩

/-- Two comments before a call and its argument, which four nodes ask for, and one after them. -/
theorem comments_keep_order_call :
    ∃ root outcome, parse "/*1*/f(/*2*/a);//3\nb" = .ok root
      ∧ convertTree "/*1*/f(/*2*/a);//3\nb" {} root = .ok outcome
      ∧ (∃ starts : List Nat, starts.Pairwise (· < ·)
        ∧ (Sink.writeTreeWith {} outcome.tree .recursive).fired.reverse.filter isCommentKey
          = starts.map commentKey)
      ∧ (Sink.writeTreeWith {} outcome.tree .recursive).fired.reverse
        = ["comment-0", "comment-7", "comment-15"] := by
  have hfired : ((parse "/*1*/f(/*2*/a);//3\nb").toOption.bind fun root =>
      (convertTree "/*1*/f(/*2*/a);//3\nb" {} root).toOption.map fun outcome =>
        (Sink.writeTreeWith {} outcome.tree .recursive).fired.reverse)
      = some ["comment-0", "comment-7", "comment-15"] := by
    decide +kernel
  obtain ⟨root, hroot, hfired⟩ := Option.bind_eq_some_iff.mp hfired
  obtain ⟨outcome, houtcome, hfired⟩ := Option.map_eq_some_iff.mp hfired
  have houtcome := eq_ok_of_toOption houtcome
  obtain ⟨outcome', houtcome', hstarts⟩ := comments_keep_order (eq_ok_of_toOption hroot) {}
  obtain rfl := Except.ok.inj (houtcome.symm.trans houtcome')
  exact ⟨root, outcome, eq_ok_of_toOption hroot, houtcome, hstarts, hfired⟩

end Transcode.Target
