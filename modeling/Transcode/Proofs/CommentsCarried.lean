import Transcode.Proofs.CommentOrder
import Transcode.Proofs.Coverage

namespace Transcode.Target

open Output Engine Script

/-!
# Comments are carried over

A comment directly before the first token of a node that is heard is written when the output is
rendered (`comments_carried`).  The invariant of conversions is `Voiced`: the output of a node
holds the leading trivia of all nodes that are heard in it, and it is not empty, so that the
comments before it are put in front of it if it asks for them.

Comments that stand elsewhere have no node to go with.  They are dropped
(`trailing_comment_dropped`).
-/

/-! ### The invariant -/

/-- A tree holds the leading trivia of a node. -/
def Bears (source : String) (t : Tree) (n : Ast) : Prop :=
  ∀ p ∈ leadingOf source n, p.tree (comment source) ∈ t.keyed

/-- The output of a part holds the leading trivia of all nodes heard in it, and of its own if it
    asks.  Only files and keyword arguments may come to nothing. -/
structure Voiced (source : String) (p : Part) (t : Tree) : Prop where
  isEmpty : t.isEmpty = true → p.node.kind = .sourceFile ∨ p.context.keywordArgs = true
  own : (p.led || asksFor p.context p.node.kind) = true → Bears source t p.node
  below : ∀ m ∈ heard source p.node, Bears source t m

/-- What becomes of the nodes of a source: outputs without a key of their own that are voiced. -/
def Voicing (source : String) (root : Ast) (c : Context) (n : Ast) (t : Tree) : Prop :=
  t.layout.renderOnce = none ∧ (n ∈ root.preorder → (∀ token, n.kind ≠ .operator token) →
    Admits c n.kind → Voiced source { context := c, node := n } t)

section

variable {source : String} {root n m : Ast} {c : Context} {t u : Tree} {p : Part}
  {parts : List Part}

theorem Bears.led {output : Tree} (h : Bears source output m)
    (hled : Led source (comment source) n output t) : Bears source t m := fun p hp =>
  hled.keyed ▸ List.mem_append_right _ (h p hp)

theorem bears_of_led {output : Tree} (hled : Led source (comment source) n output t) :
    Bears source t n := fun _ hp =>
  hled.keyed ▸ List.mem_append_left _ (List.mem_map_of_mem hp)

/-- With the comments before its node in front, an output that is voiced but for them is. -/
theorem voiced_of_led {output : Tree} {led : Bool}
    (hempty : output.isEmpty = true → n.kind = .sourceFile ∨ c.keywordArgs = true)
    (hbelow : ∀ m ∈ heard source n, Bears source output m)
    (hled : Led source (comment source) n output t) :
    Voiced source { context := c, node := n, led := led } t :=
  ⟨fun he => hempty (hled.isEmpty he), fun _ => bears_of_led hled,
    fun m hm => (hbelow m hm).led hled⟩

/-- What is heard of a part is in its output. -/
theorem Voiced.bears (h : Voiced source p t) (hm : m ∈ p.heard source) : Bears source t m := by
  rw [Part.heard] at hm
  rcases List.mem_append.mp hm with hm | hm
  · split at hm
    · rename_i hasks
      rw [List.mem_singleton.mp hm]
      exact h.own hasks
    · cases hm
  · exact h.below m hm

/-- What a part gives is voiced. -/
theorem voiced_of_gives (h : p.Gives source (Voicing source root) t) (hp : p.node ∈ root.preorder)
    (hwhole : p.node.kind.isWhole = true) (hadmits : Admits p.context p.node.kind) :
    Voiced source p t := by
  have hoperator : ∀ token, p.node.kind ≠ .operator token := by
    intro token hkind
    rw [hkind] at hwhole
    cases hwhole
  obtain ⟨context, node, led⟩ := p
  cases led with
  | false =>
    have h : Voicing source root context node t := h
    exact h.2 hp hoperator hadmits
  | true =>
    obtain ⟨output, houtput, hled⟩ := h
    have hvoiced := houtput.2 hp hoperator hadmits
    exact voiced_of_led hvoiced.isEmpty hvoiced.below hled

/-- Each of the parts gives one of the outputs. -/
theorem exists_gives {R : Context → Ast → Tree → Prop} {ts : List Tree}
    (h : List.Forall₂ (Part.Gives source R) parts ts) (hp : p ∈ parts) :
    ∃ t ∈ ts, p.Gives source R t := by
  induction h with
  | nil => cases hp
  | @cons q t _ _ ht _ ih =>
    rcases List.mem_cons.mp hp with rfl | hp
    · exact ⟨t, List.mem_cons_self, ht⟩
    · obtain ⟨u, hu, hgives⟩ := ih hp
      exact ⟨u, List.mem_cons_of_mem _ hu, hgives⟩

/-- What is made of voiced parts holds what is heard in a node, and is not empty. -/
theorem below_of_made {asks : Bool} (hfull : Full source c n parts)
    (hmade : Made source (Voicing source root) asks (mayVanish source c n) parts t)
    (hparts : ∀ p ∈ parts, p.node ∈ root.preorder) :
    (t.isEmpty = true → n.kind = .sourceFile ∨ c.keywordArgs = true)
      ∧ ∀ m ∈ heard source n, Bears source t m := by
  obtain ⟨ts, hts, hholds⟩ := hmade.gathers
  have hvoiced : ∀ p ∈ parts, ∃ u ∈ ts, Voiced source p u := by
    intro p hp
    obtain ⟨u, hu, hgives⟩ := exists_gives hts hp
    obtain ⟨hwhole, hadmits⟩ := hfull.admits p hp
    exact ⟨u, hu, voiced_of_gives hgives (hparts p hp) hwhole hadmits⟩
  refine ⟨fun he => ?_, fun m hm q hq => ?_⟩
  -- An empty output needs an empty part, and so on down, but some part is never empty.
  · rcases hfull.solid (hmade.vanishes he) with hfile | hkeywords | ⟨p, hp, hsolid⟩
    · exact .inl hfile
    · exact .inr hkeywords
    · obtain ⟨u, hu, hvoiced⟩ := hvoiced p hp
      have hnone : u.isEmpty = true :=
        hholds.isEmpty (List.forall_mem_singleton.mpr he) u hu
      obtain ⟨hwhole, -⟩ := hfull.admits p hp
      rcases hvoiced.isEmpty hnone with hfile | hkeywords
      · rw [hfile] at hwhole
        cases hwhole
      · rw [hsolid] at hkeywords
        cases hkeywords
  · obtain ⟨p, hp, hm⟩ := List.mem_flatMap.mp (hfull.heard hm)
    obtain ⟨u, hu, hvoiced⟩ := hvoiced p hp
    rw [hholds.keyed_tree]
    exact List.mem_flatMap.mpr ⟨u, hu, hvoiced.bears hm q hq⟩

/-- Files and keyword arguments do not ask for comments. -/
theorem asksFor_eq_false (hadmits : Admits c n.kind)
    (h : n.kind = .sourceFile ∨ c.keywordArgs = true) : asksFor c n.kind = false := by
  rcases h with hfile | hkeywords
  · rw [hfile]
    rfl
  · rcases hadmits hkeywords with hkind | hkind
    all_goals rw [hkind, asksFor, hkeywords]; rfl

/-- A dispatched node is voiced once it is finished. -/
theorem voicing_step (settings : Settings) (hparse : parse source = .ok root)
    (hlasting : ∀ n ∈ root.preorder, Lasting source n) (c : Context) (n : Ast) :
    (backend.dispatch { source, settings } n).Ensures backend.merge
      (backend.Answers { source, settings } (Voicing source root)) c
      (backend.Finishes { source, settings } n c (Voicing source root c n)) := by
  refine (ensures_dispatch fun c n t ht => ht.1).mono fun t ht => ?_
  have hkey : t.layout.renderOnce = none := by
    split at ht
    · exact ht.gathers.unkeyed
    · exact ht.unkeyed
  have hmade : n ∈ root.preorder → (∀ token, n.kind ≠ .operator token) → Admits c n.kind →
      (t.isEmpty = true → n.kind = .sourceFile ∨ c.keywordArgs = true)
        ∧ (asksFor c n.kind = true → t.wantsComments = true)
        ∧ ∀ m ∈ heard source n, Bears source t m := by
    intro hn hoperator hadmits
    have hform : WellFormed n := Node.forall_preorder_of_mem (wellFormed_of_parse hparse) hn
    have hnests := Node.forall_preorder_of_mem (nests_of_parse hparse) hn
    obtain ⟨parts, hparts, hfull⟩ := exists_full hform (hlasting n hn) hoperator hadmits
    simp only [hparts] at ht
    have hmem : ∀ p ∈ parts, p.node ∈ root.preorder := fun p hp =>
      Node.mem_preorder_trans hn (mem_preorder_of_mem_partsOf hnests hparts hp)
    obtain ⟨hempty, hbelow⟩ := below_of_made hfull ht hmem
    exact ⟨hempty, ht.asks, hbelow⟩
  refine finishes_of hkey (fun hplain => ⟨hkey, fun hn hoperator hadmits => ?_⟩) fun u hled =>
    ⟨hled.unkeyed, fun hn hoperator hadmits => ?_⟩
  -- The comments are not put in front only where the output is empty, and then it does not ask.
  · obtain ⟨hempty, hasks, hbelow⟩ := hmade hn hoperator hadmits
    refine ⟨hempty, fun hown => ?_, hbelow⟩
    have hnone := asksFor_eq_false hadmits (hempty (hplain (hasks hown)))
    exact absurd (hown.symm.trans hnone) nofun
  · obtain ⟨hempty, -, hbelow⟩ := hmade hn hoperator hadmits
    exact voiced_of_led hempty hbelow hled

end

/-! ### Comments of a source -/

/-- There are no loops in a tree, no empty statements and no empty blocks. -/
def Plain (root : Ast) : Prop :=
  ∀ n ∈ root.preorder, n.kind ≠ .whileStatement ∧ n.kind ≠ .emptyStatement
    ∧ (n.kind = .block → n.children.isEmpty = false)

instance (root : Ast) : Decidable (Plain root) :=
  inferInstanceAs (Decidable (∀ n ∈ root.preorder, _))

/-- When a tree is rendered, the comment of a token is written, as comment lines. -/
structure Writes (source : String) (strategy : Strategy) (t : Tree) (l : Lexeme) : Prop where
  fires : commentKey l.start ∈ (Sink.writeTreeWith {} t strategy).fired
  lines : ∀ u ∈ t.keyed, u.layout.renderOnce = some (commentKey l.start) →
    ∃ span : Trivia.Span, span.place = l.place
      ∧ u = (comment source span).withKey (commentKey l.start)

section

variable {source : String} {root n m : Ast} {all : List Lexeme} {l l' : Lexeme} {t : Tree}

theorem positional_subset (ns : List Ast) : positional ns ⊆ ns := by
  induction ns using argumentParts.induct with
  | case1 => exact List.Subset.refl _
  | case2 last =>
    rw [positional]
    split
    · exact List.nil_subset _
    · exact List.Subset.refl _
  | case3 argument rest hrest ih =>
    rw [positional]
    · exact List.cons_subset_cons _ ih
    · exact hrest

theorem subset_of_callee (ns : List Ast) : ns.take 1 ++ positional (ns.drop 1) ⊆ ns :=
  List.append_subset.mpr
    ⟨List.take_subset _ _, List.Subset.trans (positional_subset _) (List.drop_subset _ _)⟩

theorem spoken_subset (n : Ast) : spoken n ⊆ n.children := by
  rw [spoken]
  split
  · rw [spokenClauses.eq_def]
    split <;> grind
  · exact List.dropLast_subset _
  · exact subset_of_callee n.children
  · exact subset_of_callee n.children
  · exact List.drop_subset _ _
  · exact List.Subset.refl _

/-- What is heard in a node is in its tree. -/
theorem mem_preorder_of_mem_heard (hm : m ∈ heard source n) : m ∈ n.preorder := by
  induction n using Node.induction with
  | h n ih =>
    rw [heard_eq] at hm
    split at hm
    · cases hm
    · rcases List.mem_append.mp hm with hm | hm
      · exact Node.mem_preorder_of_mem_children (spoken_subset n (List.mem_filter.mp hm).1)
      · obtain ⟨child, hchild, hm⟩ := mem_heardAll.mp hm
        exact Node.mem_preorder_of_child hchild (ih child hchild hm)

/-- In a source that parses, a node that stands on its own has some text. -/
theorem isEmpty_textIn (hparse : parse source = .ok root) (hn : n ∈ root.preorder)
    (hwhole : n.kind.isWhole = true) : (n.textIn source).isEmpty = false := by
  obtain ⟨v, hv, hn⟩ := below_of_parse hparse hn (Kind.ne_sourceFile hwhole)
  obtain ⟨hlt, -, hstart, hstop⟩ := bounds_of_parse hparse v hv n hn
  exact isEmpty_slice hstart hstop hlt

/-- In a source that parses, the nodes of a tree without loops and the like come to something. -/
theorem Plain.lasting (h : Plain root) (hparse : parse source = .ok root) :
    ∀ n ∈ root.preorder, Lasting source n := by
  intro n hn
  obtain ⟨hwhile, hempty, hblock⟩ := h n hn
  refine ⟨hwhile, hempty, fun hkind hnone => ?_, isEmpty_textIn hparse hn⟩
  have hsome := hblock hkind
  rw [hnone] at hsome
  cases hsome

/-- Tokens that begin at the same place are the same. -/
theorem eq_of_start_eq (htokens : tokens source = .ok all) (hl : l ∈ all) (hl' : l' ∈ all)
    (h : l.start = l'.start) : l = l' := by
  have horder := (inOrder_of_lexes (lexes_of_tokensFrom htokens)).pairwise
  have hnodup : (all.map (·.start)).Nodup := List.pairwise_map.mpr (horder.imp Nat.ne_of_lt)
  exact List.inj_on_of_nodup_map hnodup hl hl' h

/-- A tree that holds the leading trivia of a node, and fits, writes the comments before it. -/
theorem writes_of_bears (hparse : parse source = .ok root) (htokens : tokens source = .ok all)
    (hfits : Fits source root t) (hm : m ∈ root.preorder) (hbears : Bears source t m)
    (hl : l ∈ commentsBefore all m) (strategy : Strategy) : Writes source strategy t l := by
  have hposition : l.start ∈ positions (leadingOf source m) := by
    rw [positions_leadingOf hparse htokens hm]
    exact List.mem_map_of_mem hl
  obtain ⟨span, hspan, hstart⟩ := mem_positions.mp hposition
  refine ⟨?_, fun u hu hkey => ?_⟩
  · rw [fired_writeTreeWith strategy hfits.isFlat, List.mem_dedup, List.mem_reverse, keysOf,
      List.mem_filterMap]
    exact ⟨_, hbears _ hspan, by rw [Piece.renderOnce_tree, Piece.key, hstart]⟩
  · obtain ⟨pieces, hkeyed, hpieces, -⟩ := hfits
    rw [hkeyed] at hu
    obtain ⟨p, hp, rfl⟩ := List.mem_map.mp hu
    obtain ⟨k, hk, hp⟩ := hpieces p hp
    rw [Piece.renderOnce_tree] at hkey
    have hkey := Option.some.inj hkey
    -- Whatever has the key is a comment at the same place, and there is only one.
    cases p with
    | blank start =>
      have hnot := Piece.isCommentKey_key_blank start
      rw [hkey, isCommentKey_commentKey] at hnot
      cases hnot
    | comment span =>
      have hsame : span.start = l.start := commentKey_injective hkey
      obtain ⟨hspan, hcomment⟩ := mem_piecesOf.mp hp
      have hplace : span.place ∈ Trivia.comments (Trivia.scan source k.fullStart none) :=
        List.mem_map_of_mem (List.mem_filter.mpr ⟨hspan, hcomment⟩)
      rw [comments_leading hparse htokens hk] at hplace
      obtain ⟨l', hl', hplace⟩ := List.mem_map.mp hplace
      have hstart' : l'.start = span.start := congrArg (·.2.1) hplace
      obtain rfl := eq_of_start_eq htokens (List.mem_filter.mp hl').1 (List.mem_filter.mp hl).1
        (hstart'.trans hsame)
      exact ⟨span, hplace.symm, by rw [← hsame]; rfl⟩

/-- **Comments are carried over.**  In a source that parses, without loops, empty statements and
    empty blocks, the comments directly before the first token of a node that is heard are written,
    unless some node nests too deep for it to be converted. -/
theorem comments_carried (h : parse source = .ok root) (htokens : tokens source = .ok all)
    (hplain : Plain root) (settings : Settings) :
    ∃ outcome, convertTree source settings root = .ok outcome
      ∧ ((∀ d ∈ outcome.diagnostics, ∀ n : Ast, d ≠ Backend.refusal { source, settings } n) →
        ∀ m ∈ heard source root, ∀ l ∈ commentsBefore all m,
          Writes source settings.strategy outcome.tree l) := by
  obtain ⟨outcome, houtcome, hfits⟩ := exists_fits h settings
  obtain ⟨outcome', houtcome', hvoicing⟩ := backend.convertRoot_satisfies { source, settings }
    (fun d => ∀ n : Ast, d ≠ Backend.refusal { source, settings } n)
    (fun c n hn => absurd rfl (hn n))
    (fun c n => voicing_step settings h (hplain.lasting h) c n) root
  obtain rfl := Except.ok.inj (houtcome.symm.trans houtcome')
  refine ⟨outcome, houtcome, fun hallowed m hm l hl => ?_⟩
  have hoperator : ∀ token, root.kind ≠ .operator token := by
    obtain ⟨lexemes, ss, -, -, rfl⟩ := parse_eq_ok.mp h
    exact nofun
  have hvoiced := (hvoicing hallowed).2 root.self_mem_preorder hoperator nofun
  exact writes_of_bears h htokens hfits (mem_preorder_of_mem_heard hm) (hvoiced.below m hm) hl
    settings.strategy

/-- Comments before statements and the element of an array. -/
theorem comments_carried_call :
    ∃ root all outcome, parse "/*1*/if(a)//2\nf(b,[/*3*/c])" = .ok root
      ∧ tokens "/*1*/if(a)//2\nf(b,[/*3*/c])" = .ok all ∧ Plain root
      ∧ convertTree "/*1*/if(a)//2\nf(b,[/*3*/c])" {} root = .ok outcome
      ∧ outcome.diagnostics = []
      ∧ (∀ m ∈ heard "/*1*/if(a)//2\nf(b,[/*3*/c])" root, ∀ l ∈ commentsBefore all m,
          Writes "/*1*/if(a)//2\nf(b,[/*3*/c])" .recursive outcome.tree l)
      ∧ ((heard "/*1*/if(a)//2\nf(b,[/*3*/c])" root).flatMap (commentsBefore all)).map
          Lexeme.start = [0, 10, 10, 10, 19] := by
  have hrun : ((parse "/*1*/if(a)//2\nf(b,[/*3*/c])").toOption.bind fun root =>
      (tokens "/*1*/if(a)//2\nf(b,[/*3*/c])").toOption.bind fun all =>
      (convertTree "/*1*/if(a)//2\nf(b,[/*3*/c])" {} root).toOption.map fun outcome =>
        (decide (Plain root), outcome.diagnostics,
          ((heard "/*1*/if(a)//2\nf(b,[/*3*/c])" root).flatMap (commentsBefore all)).map
            Lexeme.start)) = some (true, [], [0, 10, 10, 10, 19]) := by
    decide +kernel
  obtain ⟨root, hroot, hrun⟩ := Option.bind_eq_some_iff.mp hrun
  obtain ⟨all, hall, hrun⟩ := Option.bind_eq_some_iff.mp hrun
  obtain ⟨outcome, houtcome, hrun⟩ := Option.map_eq_some_iff.mp hrun
  simp only [Prod.mk.injEq, decide_eq_true_eq] at hrun
  obtain ⟨hplain, hdiagnostics, hstarts⟩ := hrun
  have houtcome := eq_ok_of_toOption houtcome
  obtain ⟨outcome', houtcome', hwrites⟩ :=
    comments_carried (eq_ok_of_toOption hroot) (eq_ok_of_toOption hall) hplain {}
  obtain rfl := Except.ok.inj (houtcome.symm.trans houtcome')
  rw [hdiagnostics] at hwrites
  exact ⟨root, all, outcome, eq_ok_of_toOption hroot, eq_ok_of_toOption hall, hplain, houtcome,
    hdiagnostics, hwrites (List.forall_mem_nil _), hstarts⟩

/-- A comment after the last statement is before no node, and is lost. -/
theorem trailing_comment_dropped :
    ¬ ∀ (source : String) (root : Ast) (all : List Lexeme) (outcome : Outcome),
      parse source = .ok root → tokens source = .ok all → Plain root →
      convertTree source {} root = .ok outcome →
      (∀ d ∈ outcome.diagnostics, ∀ n : Ast, d ≠ Backend.refusal { source } n) →
      ∀ l ∈ all, l.token.isComment = true →
        commentKey l.start ∈ (Sink.writeTreeWith {} outcome.tree .recursive).fired := by
  have hrun : ((parse "a;\n// c").toOption.bind fun root =>
      (tokens "a;\n// c").toOption.bind fun all =>
      (convertTree "a;\n// c" {} root).toOption.map fun outcome =>
        (decide (Plain root), outcome.diagnostics,
          (all.filter (·.token.isComment)).map Lexeme.start,
          (Sink.writeTreeWith {} outcome.tree .recursive).fired)) = some (true, [], [3], []) := by
    decide +kernel
  obtain ⟨root, hroot, hrun⟩ := Option.bind_eq_some_iff.mp hrun
  obtain ⟨all, hall, hrun⟩ := Option.bind_eq_some_iff.mp hrun
  obtain ⟨outcome, houtcome, hrun⟩ := Option.map_eq_some_iff.mp hrun
  simp only [Prod.mk.injEq, decide_eq_true_eq] at hrun
  obtain ⟨hplain, hdiagnostics, hstarts, hfired⟩ := hrun
  intro hclaim
  have hkept := hclaim _ root all outcome (eq_ok_of_toOption hroot) (eq_ok_of_toOption hall) hplain
    (eq_ok_of_toOption houtcome) (by rw [hdiagnostics]; exact List.forall_mem_nil _)
  obtain ⟨l, hl, -⟩ := List.mem_map.mp (hstarts ▸ List.mem_cons_self : 3 ∈ _)
  obtain ⟨hl, hcomment⟩ := List.mem_filter.mp hl
  have hmem := hkept l hl hcomment
  rw [hfired] at hmem
  cases hmem

end

end Transcode.Target
