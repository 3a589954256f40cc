import Transcode.Proofs.Grouping

/-!
# How high syntax trees are

Statements, expressions and prefix operators nest only so deep, and between one level of nesting and
the next there are only so many nodes.  But calls, names after points and binary operators do not
nest: they are read in loops, and each makes a node around what was read before.  So there are trees
of any height (`height_callChain`).

What is bounded is the height if the steps from such a node to what was read before it do not count
(`heightExcept_of_parse`).
-/

namespace Transcode.Node

/-! ### Heights -/

variable {κ : Type}

mutual

/-- The height of a tree if steps to the first child of a node that is `free` do not count. -/
def heightExcept (free : Node κ → Bool) : Node κ → Nat
  | ⟨_, _, _, _, []⟩ => 1
  | ⟨kind, fullStart, start, stop, first :: rest⟩ =>
    if free ⟨kind, fullStart, start, stop, first :: rest⟩ then
      max (heightExcept free first) (tallestExcept free rest + 1)
    else max (heightExcept free first) (tallestExcept free rest) + 1

/-- The height of the highest of some trees. -/
def tallestExcept (free : Node κ → Bool) : List (Node κ) → Nat
  | [] => 0
  | n :: rest => max (heightExcept free n) (tallestExcept free rest)

end

/-- The height of a tree: the number of nodes on a longest way from the root to a leaf. -/
def height (n : Node κ) : Nat :=
  n.heightExcept fun _ => false

variable {free : Node κ → Bool} {n first : Node κ} {rest ns : List (Node κ)}

/-- No trees have no height. -/
@[simp] theorem tallestExcept_nil : tallestExcept free [] = 0 := rfl

/-- Of several trees the tallest counts. -/
@[simp] theorem tallestExcept_cons :
    tallestExcept free (n :: ns) = max (n.heightExcept free) (tallestExcept free ns) := rfl

/-- A leaf has height one. -/
theorem heightExcept_of_nil (hn : n.children = []) : n.heightExcept free = 1 := by
  obtain ⟨kind, fullStart, start, stop, children⟩ := n
  obtain rfl : children = [] := hn
  rfl

/-- A node is one higher than its children, but for the first one if the node is free. -/
theorem heightExcept_of_cons (hn : n.children = first :: rest) :
    n.heightExcept free = if free n = true
      then max (first.heightExcept free) (tallestExcept free rest + 1)
      else max (first.heightExcept free) (tallestExcept free rest) + 1 := by
  obtain ⟨kind, fullStart, start, stop, children⟩ := n
  obtain rfl : children = first :: rest := hn
  rfl

/-- A free node is no higher than its first child if the others are lower than that. -/
theorem heightExcept_of_free (hfree : free n = true) (hn : n.children = first :: rest) :
    n.heightExcept free = max (first.heightExcept free) (tallestExcept free rest + 1) := by
  rw [heightExcept_of_cons hn, if_pos hfree]

/-- A node is at most one higher than its children. -/
theorem heightExcept_le (free : Node κ → Bool) (n : Node κ) :
    n.heightExcept free ≤ tallestExcept free n.children + 1 := by
  cases hn : n.children with
  | nil => simp [heightExcept_of_nil hn]
  | cons first rest =>
    rw [heightExcept_of_cons hn, tallestExcept_cons]
    split <;> omega

/-- It is exactly that if no node is free. -/
theorem height_eq (n : Node κ) : n.height = tallestExcept (fun _ => false) n.children + 1 := by
  cases hn : n.children with
  | nil => rw [height, heightExcept_of_nil hn, tallestExcept_nil]
  | cons first rest =>
    rw [height, heightExcept_of_cons hn, if_neg Bool.false_ne_true, tallestExcept_cons]

/-- The tallest of several trees is in one part of them or in the other. -/
theorem tallestExcept_append {ms : List (Node κ)} :
    tallestExcept free (ns ++ ms) = max (tallestExcept free ns) (tallestExcept free ms) := by
  induction ns with
  | nil => simp
  | cons n ns ih => simp [ih, Nat.max_assoc]

/-- It does not depend on their order. -/
theorem tallestExcept_reverse (ns : List (Node κ)) :
    tallestExcept free ns.reverse = tallestExcept free ns := by
  induction ns with
  | nil => rfl
  | cons n ns ih => simp [tallestExcept_append, ih, Nat.max_comm]

/-- Children are lower than their node. -/
theorem height_lt_of_mem_children {child : Node κ} (h : child ∈ n.children) :
    child.height < n.height := by
  have hle : ∀ ns : List (Node κ), child ∈ ns →
      child.height ≤ tallestExcept (fun _ => false) ns := by
    intro ns hns
    induction ns with
    | nil => cases hns
    | cons m ns ih =>
      rw [tallestExcept_cons]
      rcases List.mem_cons.mp hns with rfl | hns
      · exact Nat.le_max_left _ _
      · exact (ih hns).trans (Nat.le_max_right _ _)
  rw [height_eq n]
  exact Nat.lt_succ_of_le (hle _ h)

end Transcode.Node

namespace Transcode.Script

open Node

/-! ### Chains -/

/-- The node is made in a loop, around what was read before. -/
def isLink (n : Ast) : Bool :=
  n.kind == .callExpression || n.kind == .propertyAccess
    || (n.kind == .binaryExpression && binaryOperator? n != some .assign)

variable {n e : Ast} {vs : List Ast} {c c' : Cursor} {k b : Nat} {σ : Symbol} {kind : Kind}

/-- The operators of an expression make it higher by at most as much as there are precedences. -/
theorem Grouped.heightExcept_le (h : Grouped n) (hassign : binaryOperator? n ≠ some .assign)
    (hterms : tallestExcept isLink (terms n) ≤ b) :
    n.heightExcept isLink + tightness n ≤ b + tightest := by
  induction n, h using Grouped.induction with
  | operand _ hkind =>
    rw [terms_of_kind_ne hkind, tallestExcept_cons, tallestExcept_nil] at hterms
    rw [tightness_of_ne hkind]
    omega
  | @binary n l operator r t _ hn ihl ihr =>
    have hlink : isLink n = true := by simp [isLink, hn.joins.kind, hassign]
    rw [heightExcept_of_free hlink hn.joins.children, hn.joins.tightness_eq]
    rw [hn.joins.terms_eq, tallestExcept_append, tallestExcept_cons] at hterms
    rw [hn.joins.binaryOperator?_eq, hn.token] at hassign
    have hbinds := hn.binds
    have hlt := precedenceOf_lt operator
    cases hn.asks with
    | assignment => exact absurd rfl hassign
    | operation hp hl hr =>
      have hpos := pos_of_precedence hp
      rw [precedenceOf_eq hn.token, hp, Option.getD_some] at hbinds hlt ⊢
      have hleft := ihl hl (by omega)
      have hright := ihr hr (by omega)
      simp only [tallestExcept_cons, tallestExcept_nil]
      omega

/-- The operands and operators of a chain are the terms of its tree. -/
theorem Chain.Graded.terms_toAst {ch : Chain} (h : ch.Graded) : terms ch.toAst = ch.inOrder := by
  induction ch with
  | operand n => exact terms_of_kind_ne (kind_ne_of_tightest h)
  | binary l op p r ihl ihr =>
    obtain ⟨hl, hr, -⟩ := h
    rw [toAst, terms, ihl hl, ihr hr, inOrder]

/-- A chain is as high as its operands and as much higher as there are precedences. -/
theorem heightExcept_chainOf (h : Derives k .chain c vs c') :
    (chainOf vs).toAst.heightExcept isLink ≤ tallestExcept isLink vs + tightest := by
  obtain ⟨hgrouped, hassign, -, -⟩ := grouped_chainOf h
  have hgraded : (chainOf vs).Graded := tight_of_derives h
  have hheight := hgrouped.heightExcept_le hassign (Nat.le_refl _)
  rw [hgraded.terms_toAst, inOrder_chainOf h, tallestExcept_reverse] at hheight
  omega

/-! ### Derivations -/

/-- By how much a tree may be higher than what the levels of nesting under it account for. -/
def allowance : Symbol → Nat
  | .statement | .statements | .expression | .unary => 0
  | .chain => 1
  | .operand | .primary => 3
  | _ => 2

/-- An item of a list is allowed at most two levels. -/
theorem allowance_item (item : Item) : allowance item.symbol ≤ 2 := by
  cases item <;> decide

/-- A node made from children is at most one higher. -/
theorem heightExcept_nodeTo_le (c c' : Cursor) (kind : Kind) (vs : List Ast) :
    (c.nodeTo c' kind vs).heightExcept isLink ≤ tallestExcept isLink vs + 1 :=
  heightExcept_le _ _

/-- Around what was read before, names and arguments make a node that is no higher for it. -/
theorem heightExcept_link (h : kind = .propertyAccess ∨ kind = .callExpression) (c c' : Cursor)
    (e : Ast) (vs : List Ast) : (c.nodeTo c' kind (e :: vs)).heightExcept isLink
      = max (e.heightExcept isLink) (tallestExcept isLink vs + 1) := by
  rcases h with rfl | rfl
  · exact heightExcept_of_free rfl rfl
  · exact heightExcept_of_free rfl rfl

/-- Ten nodes are enough from each level of nesting to the next. -/
theorem tallestExcept_of_derives (h : Derives k σ c vs c') :
    tallestExcept isLink vs ≤ 10 * k + allowance σ := by
  induction h with
  | binary hvs _ _ ih =>
    have hchain := heightExcept_chainOf hvs
    simp only [tallestExcept_cons, tallestExcept_nil, allowance, tightest] at *
    omega
  | @assign n c vs c₁ c₂ e c' hvs _ _ ih he =>
    have hchain := heightExcept_chainOf hvs
    have hoperator := heightExcept_nodeTo_le c₁ c₂ (.operator (some .assign)) []
    have hnode := heightExcept_nodeTo_le c c' .binaryExpression
      [(chainOf vs).toAst, c₁.nodeTo c₂ (.operator (some .assign)) [], e]
    simp only [tallestExcept_cons, tallestExcept_nil, allowance, tightest] at *
    omega
  -- All other rules make a node or two around trees of this level or the level below.
  | _ => grind [tallestExcept, allowance, heightExcept_nodeTo_le, heightExcept_link, allowance_item,
      tallestExcept_append]

/-- Each level of nesting accounts for ten of the height. -/
theorem tallestExcept_of_derivesAll (h : DerivesAll k c vs) :
    tallestExcept isLink vs ≤ 10 * k := by
  induction h with
  | nil => exact Nat.zero_le _
  | cons hs _ ih =>
    have hheight := tallestExcept_of_derives hs
    simp only [tallestExcept_cons, tallestExcept_nil, allowance] at *
    omega

/-! ### Sources -/

section

variable {source : String} {root : Ast}

/-- **Height.**  Steps along chains apart, the tree of a source is no higher than its nesting
    accounts for. -/
theorem heightExcept_of_parse (h : parse source = .ok root) :
    root.heightExcept isLink ≤ 16 * maxNesting := by
  obtain ⟨lexemes, ss, -, hss, rfl⟩ := parse_eq_ok.mp h
  have hroot := heightExcept_le isLink (rootOf source.utf8ByteSize lexemes ss)
  have hstatements := tallestExcept_of_derivesAll hss
  simp only [rootOf, maxNesting] at *
  omega

/-- A tree of seven nodes on top of each other, of which the steps between four do not count. -/
theorem heightExcept_of_parse_difference :
    ∃ root, parse "f(a).b - c - d;" = .ok root ∧ root.height = 7
      ∧ root.heightExcept isLink ≤ 16 * maxNesting := by
  let call : Ast := ⟨.callExpression, 0, 0, 4, [⟨.identifier, 0, 0, 1, []⟩,
    ⟨.identifier, 2, 2, 3, []⟩]⟩
  let member : Ast := ⟨.propertyAccess, 0, 0, 6, [call, ⟨.identifier, 5, 5, 6, []⟩]⟩
  let inner : Ast := ⟨.binaryExpression, 0, 0, 10, [member,
    ⟨.operator (some .minus), 6, 7, 8, []⟩, ⟨.identifier, 8, 9, 10, []⟩]⟩
  let outer : Ast := ⟨.binaryExpression, 0, 0, 14, [inner,
    ⟨.operator (some .minus), 10, 11, 12, []⟩, ⟨.identifier, 12, 13, 14, []⟩]⟩
  let root : Ast := ⟨.sourceFile, 0, 0, 15, [⟨.expressionStatement, 0, 0, 15, [outer]⟩]⟩
  have hparse : parse "f(a).b - c - d;" = .ok root := eq_ok_of_toOption (by decide +kernel)
  exact ⟨root, hparse, by decide, heightExcept_of_parse hparse⟩

end

/-! ### Chains of calls -/

/-- The characters of calls without arguments. -/
def callChars (k : Nat) : List Char :=
  (List.replicate k ['(', ')']).flatten

/-- A function that is called, and what it returns again, and so on. -/
def callChain (k : Nat) : String :=
  String.ofList ('a' :: callChars k)

/-- The tokens of calls without arguments. -/
def callLexemes : Nat → Nat → List Lexeme
  | _, 0 => []
  | offset, k + 1 =>
    ⟨.leftParen, offset, "("⟩ :: ⟨.rightParen, offset + 1, ")"⟩ :: callLexemes (offset + 2) k

/-- The calls are lexed one by one, -/
theorem lexes_callChars (offset k : Nat) :
    Lexes offset (callChars k) (callLexemes offset k) := by
  induction k generalizing offset with
  | zero => exact .nil
  | succ k ih =>
    have hclose : Lexes (offset + 1) (')' :: callChars k)
        (⟨.rightParen, offset + 1, ")"⟩ :: callLexemes (offset + 2) k) :=
      @Lexes.token _ _ [] _ _ _ rfl rfl (ih (offset + 2))
    exact @Lexes.token _ _ [] _ _ _ rfl rfl hclose

/-- without any comments, -/
theorem isComment_of_mem_callLexemes {l : Lexeme} {offset : Nat} (h : l ∈ callLexemes offset k) :
    l.token.isComment = false := by
  induction k generalizing offset with
  | zero => cases h
  | succ k ih =>
    rw [callLexemes, List.mem_cons, List.mem_cons] at h
    rcases h with rfl | rfl | h
    · rfl
    · rfl
    · exact ih h

/-- behind the name that they begin with. -/
theorem lex_callChain (k : Nat) :
    lex (callChain k) = .ok (⟨.ident, 0, "a"⟩ :: callLexemes 1 k) := by
  have hscan : scanToken 'a' (callChars k) = .token .ident 0 := by
    cases k <;> rfl
  have hlexes : Lexes 0 (callChain k).toList (⟨.ident, 0, "a"⟩ :: callLexemes 1 k) := by
    rw [callChain, String.toList_ofList]
    exact @Lexes.token _ _ [] _ _ _ rfl hscan (lexes_callChars 1 k)
  refine lex_eq_ok.mpr
    ⟨_, tokensFrom_of_lexes hlexes, (List.filter_eq_self.mpr fun l hl => ?_).symm⟩
  rcases List.mem_cons.mp hl with rfl | hl
  · rfl
  · simp [isComment_of_mem_callLexemes hl]

/-- A node with one child is one higher than that. -/
theorem height_of_singleton (h : n.children = [e]) : n.height = e.height + 1 := by
  rw [height_eq, h]
  simp [height]

/-- Each call makes the tree of an operand higher by one. -/
theorem exists_height_of_operand {offset : Nat}
    (h : Derives k .operand c [e] ⟨offset, callLexemes offset b⟩) :
    ∃ e', Derives k .operand c [e'] ⟨offset + 2 * b, []⟩ ∧ e'.height = e.height + b := by
  induction b generalizing e offset with
  | zero => exact ⟨e, h, rfl⟩
  | succ b ih =>
    let closing : Lexeme := ⟨.rightParen, offset + 1, ")"⟩
    have hopen : Cursor.Takes ⟨offset, callLexemes offset (b + 1)⟩ .leftParen
        ⟨offset + 1, closing :: callLexemes (offset + 2) b⟩ :=
      ⟨_, _, rfl, rfl, rfl⟩
    have hclose : Cursor.Takes ⟨offset + 1, closing :: callLexemes (offset + 2) b⟩ .rightParen
        ⟨offset + 2, callLexemes (offset + 2) b⟩ :=
      ⟨_, _, rfl, rfl, rfl⟩
    obtain ⟨e', he', hheight⟩ := ih (.call h hopen (.listEnd (by decide) hclose))
    have hstop : offset + 2 + 2 * b = offset + 2 * (b + 1) := by omega
    rw [hstop] at he'
    refine ⟨e', he', ?_⟩
    rw [hheight, height_of_singleton (n := Cursor.nodeTo _ _ _ _) rfl]
    omega

/-- **No height is the greatest.**  A chain of calls makes a tree as high as it is long. -/
theorem height_callChain (k : Nat) :
    ∃ root, parse (callChain k) = .ok root ∧ root.height = k + 3 := by
  have hname : Cursor.Takes ⟨0, ⟨.ident, 0, "a"⟩ :: callLexemes 1 k⟩ .ident
      ⟨1, callLexemes 1 k⟩ :=
    ⟨_, _, rfl, rfl, rfl⟩
  obtain ⟨e, he, hheight⟩ :=
    exists_height_of_operand (k := 125) (.operand (.atom hname rfl))
  have hunary := Derives.unsigned (fun t ht => by cases ht; rfl) he nofun nofun
  have hexpression := Derives.binary (.chainStart hunary) nofun nofun
  have hstatement := Derives.expressionStatement rfl rfl hexpression (.inr ⟨nofun, rfl⟩)
  refine ⟨_, parse_eq_ok.mpr ⟨_, _, lex_callChain k, .cons hstatement (.nil rfl), rfl⟩, ?_⟩
  have hleaf : (Cursor.nodeTo ⟨0, ⟨.ident, 0, "a"⟩ :: callLexemes 1 k⟩ ⟨1, callLexemes 1 k⟩
      .identifier []).height = 1 := rfl
  rw [height_of_singleton (n := rootOf _ _ _) rfl,
    height_of_singleton (n := Cursor.nodeTo _ _ _ _) rfl, chainOf, Chain.toAst, hheight, hleaf]
  omega

/-- So there is a source whose tree is higher than sixteen times as high as statements and
    expressions may nest. -/
theorem callChain_too_high :
    ∃ root, parse (callChain 2048) = .ok root ∧ 16 * maxNesting < root.height := by
  obtain ⟨root, hparse, hheight⟩ := height_callChain 2048
  exact ⟨root, hparse, by rw [hheight]; decide⟩

end Transcode.Script
