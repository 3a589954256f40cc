import Transcode.Proofs.Binding
import Transcode.Proofs.Forms
import Transcode.Proofs.Placement

/-!
# How operators group

An expression is a row of operands with operators in between (`terms`), and its tree says how they
group.  `Asks` is the rule: a binary operator has to its left what binds at least as tight and to
its right what binds tighter, so that operators of the same precedence group to the left; an
assignment is an operand only on the right of another one, so that assignments group to the right
and reach to the end of the expression.

A row of operands and operators can be grouped by this rule in one way only (`eq_of_terms_eq`), and
the trees of sources that parse are grouped by it (`operators_group`).
-/

namespace Transcode.Script

/-! ### The rule -/

/-- The operator of a binary expression. -/
def binaryOperator? (n : Ast) : Option Token :=
  match n.kind, n.children with
  | .binaryExpression, [_, operator, _] => operatorOf operator
  | _, _ => none

/-- The operands of an expression and the operators between them, from left to right.  Only binary
    expressions are taken apart, so what is in parentheses is a single operand. -/
def terms : Ast → List Ast
  | ⟨.binaryExpression, _, _, _, [l, operator, r]⟩ => terms l ++ operator :: terms r
  | n => [n]

/-- An expression and, if it is a binary one, the pieces of both sides of it. -/
def pieces : Ast → List Ast
  | ⟨.binaryExpression, fullStart, start, stop, [l, operator, r]⟩ =>
    ⟨.binaryExpression, fullStart, start, stop, [l, operator, r]⟩ :: (pieces l ++ pieces r)
  | n => [n]

/-- A binary expression stands where its operands and its operator do, and these come one right
    after the other. -/
structure Joins (n l operator r : Ast) : Prop where
  kind : n.kind = .binaryExpression
  children : n.children = [l, operator, r]
  fullStart : n.fullStart = l.fullStart
  start : n.start = l.start
  stop : n.stop = r.stop
  before : l.stop = operator.fullStart
  after : operator.stop = r.fullStart
  left : operatorOf l = none
  right : operatorOf r = none

/-- What an operator asks of the operands on its left and on its right. -/
inductive Asks : Token → Ast → Ast → Prop
  | operation {t : Token} {p : Nat} {l r : Ast} : t.precedence? = some p →
      binaryOperator? l ≠ some .assign → binaryOperator? r ≠ some .assign →
      (∀ q, (binaryOperator? l).bind Token.precedence? = some q → p ≤ q) →
      (∀ q, (binaryOperator? r).bind Token.precedence? = some q → p < q) → Asks t l r
  | assignment {l r : Ast} : binaryOperator? l ≠ some .assign → Asks .assign l r

/-- The expression is no binary one, or has its operands as its operator asks for them. -/
def Regular (n : Ast) : Prop :=
  n.kind = .binaryExpression →
    ∃ l operator r t, Joins n l operator r ∧ operatorOf operator = some t ∧ Asks t l r

/-- All pieces of an expression are as the rule asks. -/
def Grouped (n : Ast) : Prop :=
  ∀ b ∈ pieces n, Regular b

/-! ### Taking expressions apart -/

variable {n m l r b e operator : Ast} {t : Token}

/-- Two operands and the operator between them make up the node. -/
theorem Joins.eq (h : Joins n l operator r) :
    n = ⟨.binaryExpression, l.fullStart, l.start, r.stop, [l, operator, r]⟩ := by
  obtain ⟨kind, fullStart, start, stop, children⟩ := n
  obtain ⟨rfl, rfl, rfl, rfl, rfl, -⟩ := h
  rfl

/-- It has the operator that joins them -/
theorem Joins.binaryOperator?_eq (h : Joins n l operator r) :
    binaryOperator? n = operatorOf operator := by
  rw [binaryOperator?, h.kind, h.children]

/-- and binds as tightly as that one does. -/
theorem Joins.tightness_eq (h : Joins n l operator r) : tightness n = precedenceOf operator := by
  rw [tightness, h.kind, h.children]

/-- Its terms are those of the left side, the operator and those of the right side. -/
theorem Joins.terms_eq (h : Joins n l operator r) : terms n = terms l ++ operator :: terms r := by
  rw [h.eq]
  rfl

/-- A piece of it is itself or a piece of one side. -/
theorem Joins.mem_pieces (h : Joins n l operator r) :
    b ∈ pieces n ↔ b = n ∨ b ∈ pieces l ∨ b ∈ pieces r := by
  have heq : pieces n = n :: (pieces l ++ pieces r) := by
    rw [h.eq]
    rfl
  rw [heq, List.mem_cons, List.mem_append]

/-- An expression is a piece of itself. -/
theorem self_mem_pieces (n : Ast) : n ∈ pieces n := by
  unfold pieces
  split <;> simp

/-- What is no binary expression is one term -/
theorem terms_of_kind_ne (h : n.kind ≠ .binaryExpression) : terms n = [n] := by
  unfold terms
  split
  · exact absurd rfl h
  · rfl

/-- and one piece, -/
theorem pieces_of_kind_ne (h : n.kind ≠ .binaryExpression) : pieces n = [n] := by
  unfold pieces
  split
  · exact absurd rfl h
  · rfl

/-- and has no operator. -/
theorem binaryOperator?_of_kind_ne (h : n.kind ≠ .binaryExpression) :
    binaryOperator? n = none := by
  unfold binaryOperator?
  split
  · exact absurd ‹_› h
  · rfl

/-- Pieces are nodes of the tree. -/
theorem mem_preorder_of_mem_pieces (h : b ∈ pieces n) : b ∈ n.preorder := by
  induction n using Node.induction with
  | h n ih =>
    unfold pieces at h
    split at h
    · rename_i fullStart start stop l operator r
      rcases List.mem_cons.mp h with rfl | h
      · exact Node.self_mem_preorder _
      · rcases List.mem_append.mp h with h | h
        · exact Node.mem_preorder_of_child (by simp) (ih l (by simp) h)
        · exact Node.mem_preorder_of_child (by simp) (ih r (by simp) h)
    · rw [List.mem_singleton.mp h]
      exact Node.self_mem_preorder _

/-- How a grouped binary expression comes apart. -/
structure Divides (n l operator r : Ast) (t : Token) : Prop where
  joins : Joins n l operator r
  token : operatorOf operator = some t
  asks : Asks t l r
  left : Grouped l
  right : Grouped r

/-- A grouped expression is an operand, or its operator joins two grouped expressions. -/
theorem Grouped.cases (h : Grouped n) :
    n.kind ≠ .binaryExpression ∨ ∃ l operator r t, Divides n l operator r t := by
  by_cases hkind : n.kind = .binaryExpression
  · obtain ⟨l, operator, r, t, hjoins, ht, hasks⟩ := h n (self_mem_pieces n) hkind
    refine .inr ⟨l, operator, r, t, hjoins, ht, hasks, fun b hb => ?_, fun b hb => ?_⟩
    · exact h b (hjoins.mem_pieces.mpr (.inr (.inl hb)))
    · exact h b (hjoins.mem_pieces.mpr (.inr (.inr hb)))
  · exact .inl hkind

/-- What holds of operands, and of what joins two expressions of which it holds, holds of all grouped
    expressions. -/
@[elab_as_elim]
theorem Grouped.induction {motive : (n : Ast) → Grouped n → Prop}
    (operand : ∀ {n} (h : Grouped n), n.kind ≠ .binaryExpression → motive n h)
    (binary : ∀ {n l operator r t} (h : Grouped n) (hn : Divides n l operator r t),
      motive l hn.left → motive r hn.right → motive n h) (n : Ast) (h : Grouped n) :
    motive n h := by
  induction n using Node.induction with
  | h n ih =>
    rcases h.cases with hkind | ⟨l, operator, r, t, hn⟩
    · exact operand h hkind
    · have hmem : l ∈ n.children ∧ r ∈ n.children := by simp [hn.joins.children]
      exact binary h hn (ih l hmem.1 hn.left) (ih r hmem.2 hn.right)

/-! ### One way to group -/

/-- No operator binds as loosely as none. -/
theorem pos_of_precedence {p : Nat} (h : t.precedence? = some p) : 0 < p := by
  cases t <;> simp_all [Token.precedence?] <;> omega

/-- The precedence of a node is that of its operator. -/
theorem precedenceOf_eq (h : operatorOf operator = some t) :
    precedenceOf operator = t.precedence?.getD 0 := by
  simp [precedenceOf, h]

/-- A grouped expression binds as tight as it seems from its operator. -/
theorem Grouped.tightness_eq (h : Grouped n) :
    tightness n = tightest ∨ (binaryOperator? n = some .assign ∧ tightness n = 0)
      ∨ (binaryOperator? n).bind Token.precedence? = some (tightness n) := by
  rcases h.cases with hkind | ⟨l, operator, r, t, hjoins, ht, hasks, -, -⟩
  · exact .inl (tightness_of_ne hkind)
  · rw [hjoins.tightness_eq, hjoins.binaryOperator?_eq, precedenceOf_eq ht, ht]
    cases hasks with
    | operation hp => exact .inr (.inr (by simp [hp]))
    | assignment => exact .inr (.inl ⟨rfl, rfl⟩)

/-- What is asked of the operands, in terms of how tight they bind. -/
theorem Divides.binds (h : Divides n l operator r t) :
    precedenceOf operator ≤ tightness l ∧ (precedenceOf operator = 0 → 0 < tightness l)
      ∧ (precedenceOf operator ≠ 0 → precedenceOf operator < tightness r) := by
  obtain ⟨-, ht, hasks, hl, hr⟩ := h
  have hlt := precedenceOf_lt operator
  rw [precedenceOf_eq ht] at hlt ⊢
  cases hasks with
  | @operation t p l r hp hleft hright hle hgt =>
    have hpos := pos_of_precedence hp
    rw [hp, Option.getD_some] at hlt ⊢
    refine ⟨?_, fun hzero => by omega, fun _ => ?_⟩
    · rcases hl.tightness_eq with heq | ⟨hassign, -⟩ | hq
      · omega
      · exact absurd hassign hleft
      · exact hle _ hq
    · rcases hr.tightness_eq with heq | ⟨hassign, -⟩ | hq
      · omega
      · exact absurd hassign hright
      · exact hgt _ hq
  | assignment hleft =>
    refine ⟨Nat.zero_le _, fun _ => ?_, fun hne => absurd rfl hne⟩
    rcases hl.tightness_eq with heq | ⟨hassign, -⟩ | hq
    · rw [heq]
      decide
    · exact absurd hassign hleft
    · obtain ⟨u, -, hu⟩ := Option.bind_eq_some_iff.mp hq
      exact pos_of_precedence hu

/-- No operator in an expression binds less tight than the expression itself. -/
theorem Grouped.tightness_le (h : Grouped n) (hn : operatorOf n = none) (hb : b ∈ terms n)
    (ht : operatorOf b = some t) : tightness n ≤ precedenceOf b := by
  induction n, h using Grouped.induction with
  | operand _ hkind =>
    rw [terms_of_kind_ne hkind, List.mem_singleton] at hb
    rw [hb, hn] at ht
    cases ht
  | binary _ hdivides ihl ihr =>
    have hbinds := hdivides.binds
    rw [hdivides.joins.tightness_eq]
    rw [hdivides.joins.terms_eq, List.mem_append, List.mem_cons] at hb
    rcases hb with hb | rfl | hb
    · have hle := ihl hdivides.joins.left hb
      omega
    · exact Nat.le_refl _
    · have hle := ihr hdivides.joins.right hb
      omega

/-- If the operator of one expression stands in the left operand of another one, then that one's
    operator does not stand in the right operand of the first. -/
theorem Divides.not_mem_terms {l' operator' r' : Ast} {t' : Token}
    (h : Divides n l operator r t) (h' : Divides m l' operator' r' t')
    (hmem : operator ∈ terms l') : operator' ∉ terms r := by
  intro hmem'
  have hle := h'.left.tightness_le h'.joins.left hmem h.token
  have hle' := h.right.tightness_le h.joins.right hmem' h'.token
  have hbinds := h.binds
  have hbinds' := h'.binds
  omega

/-- Every expression has terms. -/
theorem terms_ne_nil (n : Ast) : terms n ≠ [] := by
  unfold terms
  split <;> simp

/-- An operand is not the row of a binary expression. -/
theorem Joins.terms_ne_singleton (h : Joins n l operator r) : terms n ≠ [e] := by
  rw [h.terms_eq]
  intro heq
  have hlength := congrArg List.length heq
  have hl := List.length_pos_iff.mpr (terms_ne_nil l)
  simp only [List.length_append, List.length_cons, List.length_nil] at hlength
  omega

/-- Two elements at which a list is divided are the same one, or each stands on one side of the
    other. -/
theorem append_cons_eq_append_cons {α : Type} {as bs cs ds : List α} {x y : α}
    (h : as ++ x :: bs = cs ++ y :: ds) :
    (as = cs ∧ x = y ∧ bs = ds) ∨ (x ∈ cs ∧ y ∈ bs) ∨ (x ∈ ds ∧ y ∈ as) := by
  rcases List.append_eq_append_iff.mp h with ⟨zs, rfl, hzs⟩ | ⟨zs, rfl, hzs⟩ <;> cases zs <;>
    grind

/-- **One way to group.**  The tree of an expression is determined by its operands and operators,
    from left to right. -/
theorem eq_of_terms_eq (hn : Grouped n) (hm : Grouped m) (h : terms n = terms m) : n = m := by
  induction n, hn using Grouped.induction generalizing m with
  | operand _ hkind =>
    rw [terms_of_kind_ne hkind] at h
    rcases hm.cases with hkind' | ⟨l', operator', r', t', hm⟩
    · rw [terms_of_kind_ne hkind'] at h
      exact List.singleton_inj.mp h
    · exact absurd h.symm hm.joins.terms_ne_singleton
  | binary _ hn ihl ihr =>
    rcases hm.cases with hkind' | ⟨l', operator', r', t', hm⟩
    · rw [terms_of_kind_ne hkind'] at h
      exact absurd h hn.joins.terms_ne_singleton
    · rw [hn.joins.terms_eq, hm.joins.terms_eq] at h
      rcases append_cons_eq_append_cons h with ⟨hleft, rfl, hright⟩ | ⟨hop, hop'⟩ | ⟨hop, hop'⟩
      · rw [hn.joins.eq, hm.joins.eq, ihl hm.left hleft, ihr hm.right hright]
      -- If they were not the same, each operator would stand in an operand of the other.
      · exact absurd hop' (hn.not_mem_terms hm hop)
      · exact absurd hop (hm.not_mem_terms hn hop')

/-! ### Rows -/

/-- The trees come one right after the other, and each begins at a token.  A leaf is just that
    token. -/
structure InRow (lexemes : List Lexeme) (ns : List Ast) : Prop where
  begins : ∀ n ∈ ns, Begins lexemes n
  adjacent : ns.IsChain fun a b => a.stop = b.fullStart

/-- The terms of an expression are nodes of it. -/
theorem mem_preorder_of_mem_terms (h : b ∈ terms n) : b ∈ n.preorder := by
  induction n using Node.induction with
  | h n ih =>
    unfold terms at h
    split at h
    · rename_i l operator r
      simp only [List.mem_append, List.mem_cons] at h
      rcases h with h | rfl | h
      · exact Node.mem_preorder_of_child (by simp) (ih l (by simp) h)
      · exact Node.mem_preorder_of_mem_children (by simp)
      · exact Node.mem_preorder_of_child (by simp) (ih r (by simp) h)
    · rw [List.mem_singleton.mp h]
      exact Node.self_mem_preorder _

/-- The row of a grouped expression reaches from its beginning to its end without a gap. -/
theorem Grouped.adjacent (h : Grouped n) :
    (∀ e ∈ (terms n).head?, e.fullStart = n.fullStart)
      ∧ (∀ e ∈ (terms n).getLast?, e.stop = n.stop)
      ∧ (terms n).IsChain fun a b => a.stop = b.fullStart := by
  induction n, h using Grouped.induction with
  | operand _ hkind => simp [terms_of_kind_ne hkind]
  | @binary n l operator r t _ hn ihl ihr =>
    obtain ⟨hfirst, hlast, hchain⟩ := ihl
    obtain ⟨hfirst', hlast', hchain'⟩ := ihr
    rw [hn.joins.terms_eq]
    refine ⟨fun e he => ?_, fun e he => ?_, ?_⟩
    · rw [List.head?_append_of_ne_nil _ (terms_ne_nil l)] at he
      rw [hfirst e he, hn.joins.fullStart]
    · rw [List.getLast?_append_cons, List.getLast?_cons_of_ne_nil (terms_ne_nil r)] at he
      rw [hlast' e he, hn.joins.stop]
    · refine hchain.append (.cons hchain' fun e he => ?_) fun e he e' he' => ?_
      · rw [hfirst' e he, hn.joins.after]
      · obtain rfl : operator = e' := by simpa using he'
        rw [hlast e he, hn.joins.before]

/-! ### Assignments -/

/-- No operator has an assignment on its left. -/
theorem Asks.left_ne (h : Asks t l r) : binaryOperator? l ≠ some .assign := by
  cases h with
  | operation _ hl => exact hl
  | assignment hl => exact hl

/-- An assignment is a piece of assignments only. -/
theorem Grouped.binaryOperator?_of_mem_pieces (h : Grouped n) (hb : b ∈ pieces n)
    (hassign : binaryOperator? b = some .assign) : binaryOperator? n = some .assign := by
  induction n, h using Grouped.induction with
  | operand _ hkind =>
    rw [pieces_of_kind_ne hkind, List.mem_singleton] at hb
    rwa [hb] at hassign
  | binary _ hn ihl ihr =>
    rcases hn.joins.mem_pieces.mp hb with rfl | hb | hb
    · exact hassign
    · exact absurd (ihl hb) hn.asks.left_ne
    · cases hn.asks with
      | operation _ _ hr => exact absurd (ihr hb) hr
      | assignment => rw [hn.joins.binaryOperator?_eq, hn.token]

/-- The right operand of an assignment is all that comes after its operator in the expression
    around it. -/
theorem Grouped.terms_of_assignment (h : Grouped e) (hb : b ∈ pieces e)
    (hjoins : Joins b l operator r) (hassign : operatorOf operator = some .assign) :
    b.stop = e.stop ∧ ∃ front, terms e = front ++ operator :: terms r := by
  have hop : binaryOperator? b = some .assign := hjoins.binaryOperator?_eq.trans hassign
  induction e, h using Grouped.induction with
  | operand _ hkind =>
    rw [pieces_of_kind_ne hkind, List.mem_singleton] at hb
    exact absurd hjoins.kind (hb ▸ hkind)
  | @binary e l' operator' r' t _ he ihl ihr =>
    rcases he.joins.mem_pieces.mp hb with rfl | hb | hb
    · exact ⟨rfl, _, hjoins.terms_eq⟩
    · exact absurd (he.left.binaryOperator?_of_mem_pieces hb hop) he.asks.left_ne
    · obtain ⟨hstop, front, hterms⟩ := ihr hb
      refine ⟨hstop.trans he.joins.stop.symm, terms l' ++ operator' :: front, ?_⟩
      rw [he.joins.terms_eq, hterms, List.append_assoc, List.cons_append]

/-! ### Chains -/

/-- What joins two grouped expressions as the rule asks is grouped. -/
theorem Joins.grouped (h : Joins n l operator r) (ht : operatorOf operator = some t)
    (hasks : Asks t l r) (hl : Grouped l) (hr : Grouped r) : Grouped n := by
  intro b hb
  rcases h.mem_pieces.mp hb with rfl | hb | hb
  · exact fun _ => ⟨l, operator, r, t, h, ht, hasks⟩
  · exact hl b hb
  · exact hr b hb

/-- What is no binary expression is grouped. -/
theorem grouped_of_kind_ne (h : n.kind ≠ .binaryExpression) : Grouped n := by
  intro b hb hkind
  rw [pieces_of_kind_ne h, List.mem_singleton] at hb
  exact absurd (hb ▸ hkind) h

/-- An expression is no operator. -/
theorem operatorOf_of_isWhole (h : n.kind.isWhole = true) : operatorOf n = none := by
  unfold operatorOf
  split
  · rename_i hkind
    rw [hkind] at h
    cases h
  · rfl

/-- An expression binds as tightly as its operator. -/
theorem tightness_of_binaryOperator? (h : binaryOperator? n = some t) :
    tightness n = t.precedence?.getD 0 := by
  unfold binaryOperator? at h
  split at h
  · rename_i hkind hchildren
    rw [tightness, hkind, hchildren]
    exact precedenceOf_eq h
  · cases h

/-- What binds tightest is no binary expression. -/
theorem kind_ne_of_tightest (h : tightness n = tightest) : n.kind ≠ .binaryExpression := by
  unfold tightness at h
  split at h
  · exact absurd h (Nat.ne_of_lt (precedenceOf_lt _))
  · cases h
  · assumption

/-- An operator asks for no more than that its operands bind tight enough. -/
theorem asks_of_tightness {p : Nat} (ht : t.precedence? = some p) (hl : p ≤ tightness l)
    (hr : p < tightness r) : Asks t l r := by
  have hpos := pos_of_precedence ht
  refine .operation ht (fun hassign => ?_) (fun hassign => ?_) (fun q hq => ?_) (fun q hq => ?_)
  · rw [tightness_of_binaryOperator? hassign] at hl
    exact Nat.not_lt_of_le hl hpos
  · rw [tightness_of_binaryOperator? hassign] at hr
    cases hr
  · obtain ⟨u, hu, hq⟩ := Option.bind_eq_some_iff.mp hq
    rwa [tightness_of_binaryOperator? hu, hq] at hl
  · obtain ⟨u, hu, hq⟩ := Option.bind_eq_some_iff.mp hq
    rwa [tightness_of_binaryOperator? hu, hq] at hr

section

variable {source : String} {lexemes : List Lexeme} {c c' m₁ m₂ : Cursor} {v root : Ast}
  {vs : List Ast} {k : Nat} {σ : Symbol}

/-- Trees that come one after the other are joined by the node that covers all of them. -/
theorem joins_of_covers (hn : c.Covers n c') (hkind : n.kind = .binaryExpression)
    (hchildren : n.children = [l, operator, r]) (hl : c.Covers l m₁)
    (hoperator : m₁.Covers operator m₂) (hr : m₂.Covers r c') (hleft : Whole [l])
    (hright : Whole [r]) : Joins n l operator r where
  kind := hkind
  children := hchildren
  fullStart := hn.fullStart.trans hl.fullStart.symm
  start := by
    obtain ⟨lexeme, rest, hrest, hstart⟩ := hn.start
    obtain ⟨lexeme', rest', hrest', hstart'⟩ := hl.start
    obtain ⟨rfl, -⟩ := List.cons.inj (hrest.symm.trans hrest')
    rw [hstart, hstart']
  stop := hn.stop.trans hr.stop.symm
  before := hl.stop.trans hoperator.fullStart.symm
  after := hoperator.stop.trans hr.fullStart.symm
  left := operatorOf_of_isWhole (whole_singleton.mp hleft)
  right := operatorOf_of_isWhole (whole_singleton.mp hright)

/-- The tree of a chain is grouped, and it is no assignment. -/
theorem Chain.Graded.grouped_toAst {ch : Chain} (h : ch.Graded) (hsound : ch.Sound)
    (htiles : c.Tiles ch.inOrder c')
    (hoperators : ∀ v ∈ ch.inOrder, ∀ t, operatorOf v = some t → t.precedence?.isSome) :
    Grouped ch.toAst ∧ binaryOperator? ch.toAst ≠ some .assign := by
  induction ch generalizing c c' with
  | operand n =>
    have hkind := kind_ne_of_tightest h
    refine ⟨grouped_of_kind_ne hkind, ?_⟩
    simp [toAst, binaryOperator?_of_kind_ne hkind]
  | binary l op p r ihl ihr =>
    obtain ⟨hl, hr, rfl, hleft, hright⟩ := h
    obtain ⟨hsoundl, ⟨⟨t, ht⟩, -⟩, hsoundr⟩ := hsound
    obtain ⟨m, htilesl, _ | ⟨hop, htilesr⟩⟩ := Cursor.tiles_append.mp htiles
    simp only [inOrder, List.forall_mem_append, List.forall_mem_cons] at hoperators
    have htoken : operatorOf op = some t := by simp [operatorOf, ht]
    obtain ⟨p, hp⟩ := Option.isSome_iff_exists.mp (hoperators.2.1 t htoken)
    rw [precedenceOf_eq htoken, hp, Option.getD_some] at hleft hright
    have hjoins : Joins (binary l op (precedenceOf op) r).toAst l.toAst op r.toAst :=
      joins_of_covers htiles.covers_toAst rfl rfl htilesl.covers_toAst hop htilesr.covers_toAst
        hsoundl.whole_toAst hsoundr.whole_toAst
    have hasks : Asks t l.toAst r.toAst :=
      asks_of_tightness hp (hl.tightness_toAst ▸ hleft) (hr.tightness_toAst ▸ hright)
    refine ⟨hjoins.grouped htoken hasks ?_ ?_, ?_⟩
    · exact (ihl hl hsoundl htilesl hoperators.1).1
    · exact (ihr hr hsoundr htilesr hoperators.2.2).1
    · rw [hjoins.binaryOperator?_eq, htoken]
      rintro ⟨⟩
      cases hp

/-- The operators of a chain have precedences. -/
theorem isSome_precedence_of_mem (h : Derives k .chain c vs c') :
    ∀ v ∈ vs, ∀ t, operatorOf v = some t → t.precedence?.isSome := by
  have hoperand : ∀ {c c' : Cursor} {e : Ast}, Derives k .unary c [e] c' →
      operatorOf e = none := fun he =>
    operatorOf_of_isWhole (whole_singleton.mp (formed_of_derives he).1)
  generalize hσ : Symbol.chain = σ at h
  induction h with
  | chainStart he =>
    intro v hv t ht
    rw [List.mem_singleton.mp hv, hoperand he] at ht
    cases ht
  | chainStep _ _ hp he ih =>
    simp only [List.forall_mem_cons]
    refine ⟨fun t ht => ?_, fun t ht => ?_, ih hoperand rfl⟩
    · rw [hoperand he] at ht
      cases ht
    · cases ht
      simp [hp]
  | _ => cases hσ

/-- The tree of a chain that is derived. -/
theorem grouped_chainOf (h : Derives k .chain c vs c') :
    Grouped (chainOf vs).toAst ∧ binaryOperator? (chainOf vs).toAst ≠ some .assign
      ∧ c.Covers (chainOf vs).toAst c' ∧ Whole [(chainOf vs).toAst] := by
  have hgraded : (chainOf vs).Graded := tight_of_derives h
  have hsound : (chainOf vs).Sound := (formed_of_derives h).1
  have htiles : c.Tiles (chainOf vs).inOrder c' := by
    rw [inOrder_chainOf h]
    exact placed_of_derives h
  obtain ⟨hgrouped, hassign⟩ := hgraded.grouped_toAst hsound htiles fun v hv =>
    isSome_precedence_of_mem h v ((mem_inOrder_chainOf h).mp hv)
  exact ⟨hgrouped, hassign, htiles.covers_toAst, hsound.whole_toAst⟩

/-! ### Expressions -/

/-- An expression that is derived is grouped. -/
theorem grouped_of_derives (h : Derives k .expression c [e] c') : Grouped e := by
  induction k generalizing c e with
  | zero => cases h
  | succ k ih =>
    have hcovers := placed_of_derives h
    cases h with
    | binary hvs => exact (grouped_chainOf hvs).1
    | assign hvs hassign he =>
      obtain ⟨hgrouped, hleft, hcoversl, hwhole⟩ := grouped_chainOf hvs
      have hjoins := joins_of_covers hcovers rfl rfl hcoversl (covers_operator rfl hassign)
        (placed_of_derives he) hwhole (formed_of_derives he).1
      exact hjoins.grouped rfl (.assignment hleft) hgrouped (ih he)

/-- Whether a token after an expression would go on with it. -/
def continues (t : Token) : Bool :=
  t.precedence?.isSome || t == .assign || t == .dot || t == .leftParen

/-- What follows an operand goes on with neither a member nor arguments. -/
theorem peek?_of_derives (h : Derives k σ c vs c') (hσ : σ = .unary ∨ σ = .chain) :
    c'.peek? ≠ some .dot ∧ c'.peek? ≠ some .leftParen := by
  induction h with
  | sign _ _ _ ih => exact ih hσ
  | unsigned _ _ hdot hparen => exact ⟨hdot, hparen⟩
  | chainStart _ ih | chainStep _ _ _ _ _ ih => exact ih (.inl rfl)
  | _ => rcases hσ with hσ | hσ <;> cases hσ

/-- Expressions end where no token goes on with them. -/
theorem continues_of_derives (h : Derives k .expression c [e] c') (ht : c'.peek? = some t) :
    continues t = false := by
  induction k generalizing c e with
  | zero => cases h
  | succ k ih =>
    cases h with
    | binary hvs hprecedence hassign =>
      obtain ⟨hdot, hparen⟩ := peek?_of_derives hvs (.inr rfl)
      rw [ht] at hdot hparen hassign
      simp_all [continues]
    | assign _ _ he => exact ih he

/-- The node is a piece of an expression that is derived from some of the tokens. -/
def InExpression (lexemes : List Lexeme) (b : Ast) : Prop :=
  ∃ k c e c', Derives k .expression c [e] c' ∧ c'.Splits lexemes ∧ b ∈ pieces e

/-- All binary expressions in a tree are such pieces. -/
def FromExpressions (lexemes : List Lexeme) (v : Ast) : Prop :=
  ∀ b ∈ v.preorder, b.kind = .binaryExpression → InExpression lexemes b

/-- A node other than a binary expression is made from expressions if its children are. -/
theorem fromExpressions_nodeTo {kind : Kind} (hkind : kind ≠ .binaryExpression)
    (hvs : ∀ v ∈ vs, FromExpressions lexemes v) :
    FromExpressions lexemes (c.nodeTo c' kind vs) :=
  Node.forall_preorder (fun hkind' => absurd hkind' hkind) hvs

/-- The nodes of the tree of a chain are pieces of it, or in its operands and operators. -/
theorem Chain.mem_preorder_toAst {ch : Chain} (h : b ∈ ch.toAst.preorder) :
    b ∈ pieces ch.toAst ∨ ∃ v ∈ ch.inOrder, b ∈ v.preorder := by
  induction ch with
  | operand n => exact .inr ⟨n, List.mem_singleton_self n, h⟩
  | binary l op p r ihl ihr =>
    simp only [inOrder, toAst, pieces, List.mem_append, List.mem_cons]
    rcases Node.mem_preorder.mp h with rfl | ⟨v, hv, h⟩
    · exact .inl (.inl rfl)
    · simp only [toAst, List.mem_cons, List.not_mem_nil, or_false] at hv
      rcases hv with rfl | hv | rfl
      · rcases ihl h with hb | ⟨v, hv, hb⟩
        · exact .inl (.inr (.inl hb))
        · exact .inr ⟨v, .inl hv, hb⟩
      · exact .inr ⟨v, .inr (.inl hv), h⟩
      · rcases ihr h with hb | ⟨v, hv, hb⟩
        · exact .inl (.inr (.inr hb))
        · exact .inr ⟨v, .inr (.inr hv), hb⟩

/-- What is in a chain is a piece of it or is in one of its operands. -/
theorem mem_pieces_or_mem_chain (h : Derives k .chain c vs c')
    (hb : b ∈ (chainOf vs).toAst.preorder) :
    b ∈ pieces (chainOf vs).toAst ∨ ∃ v ∈ vs, b ∈ v.preorder := by
  refine (Chain.mem_preorder_toAst hb).imp_right ?_
  rintro ⟨v, hv, hb⟩
  exact ⟨v, (mem_inOrder_chainOf h).mp hv, hb⟩

/-- An atom is no binary expression, -/
theorem kind_ne_of_atom {kind : Kind} (h : atoms.lookup t = some kind) :
    kind ≠ .binaryExpression := by
  rintro rfl
  cases t <;> cases h

/-- and neither is the name of a property. -/
theorem kind_ne_of_propertyName {kind : Kind} (h : propertyNames.lookup t = some kind) :
    kind ≠ .binaryExpression := by
  rintro rfl
  cases t <;> cases h

/-- Every binary expression comes from a chain, by induction on the derivation. -/
theorem fromExpressions_of_derives (h : Derives k σ c vs c') (hc : c.Splits lexemes) :
    ∀ v ∈ vs, FromExpressions lexemes v := by
  have splits : ∀ {k σ c vs c'}, Derives k σ c vs c' → c.Splits lexemes → c'.Splits lexemes :=
    fun h hc => (begins_of_derives h hc).1
  induction h with
  | binary hvs hprecedence hassign ih =>
    refine List.forall_mem_singleton.mpr fun b hb hkind => ?_
    rcases mem_pieces_or_mem_chain hvs hb with hb | ⟨v, hv, hb⟩
    · exact ⟨_, _, _, _, .binary hvs hprecedence hassign, splits hvs hc, hb⟩
    · exact ih hc v hv b hb hkind
  | @assign n c vs c₁ c₂ e c' hvs hassign he ihvs ihe =>
    have hc₁ := splits hvs hc
    have hc₂ := hassign.splits hc₁
    have hoperator : FromExpressions lexemes (c₁.nodeTo c₂ (.operator (some .assign)) []) :=
      fromExpressions_nodeTo nofun (List.forall_mem_nil _)
    have hpieces : ∀ b ∈ pieces (c.nodeTo c' .binaryExpression
        [(chainOf vs).toAst, c₁.nodeTo c₂ (.operator (some .assign)) [], e]),
        InExpression lexemes b := fun b hb =>
      ⟨_, _, _, _, .assign hvs hassign he, splits he hc₂, hb⟩
    simp only [Cursor.nodeTo, pieces, List.forall_mem_cons, List.forall_mem_append] at hpieces
    refine List.forall_mem_singleton.mpr fun b hb hkind => ?_
    rcases Node.mem_preorder.mp hb with rfl | ⟨v, hv, hbv⟩
    · exact hpieces.1
    · change v ∈ [_, c₁.nodeTo c₂ (.operator (some .assign)) [], e] at hv
      simp only [List.mem_cons, List.not_mem_nil, or_false] at hv
      rcases hv with rfl | rfl | rfl
      · rcases mem_pieces_or_mem_chain hvs hbv with hb | ⟨v, hv, hb⟩
        · exact hpieces.2.1 b hb
        · exact ihvs hc v hv b hb hkind
      · exact hoperator b hbv hkind
      · exact ihe hc₂ _ List.mem_cons_self b hbv hkind
  -- The other rules make no binary expressions, but only nodes around what has them.
  | _ => grind [→ Cursor.Takes.splits, → Cursor.Skips.splits, fromExpressions_nodeTo,
      → kind_ne_of_atom, → kind_ne_of_propertyName]

/-- It does so in each of the statements of a source. -/
theorem fromExpressions_of_derivesAll (h : DerivesAll k c vs) (hc : c.Splits lexemes) :
    ∀ v ∈ vs, FromExpressions lexemes v :=
  h.forall_mem_splits hc fun hs hc => fromExpressions_of_derives hs hc _ List.mem_cons_self

/-! ### Sources -/

/-- All binary expressions of a source are pieces of expressions that are derived, and the nodes
    in them begin at tokens. -/
theorem inExpression_of_parse (h : parse source = .ok root) (hn : n ∈ root.preorder)
    (hkind : n.kind = .binaryExpression) :
    ∃ lexemes, lex source = .ok lexemes ∧ InExpression lexemes n ∧ AllBegin lexemes n := by
  obtain ⟨lexemes, ss, hlex, hss, rfl⟩ := parse_eq_ok.mp h
  rcases Node.mem_preorder.mp hn with rfl | ⟨v, hv, hn⟩
  · cases hkind
  · refine ⟨lexemes, hlex, ?_, fun b hb => ?_⟩
    · exact fromExpressions_of_derivesAll hss ⟨[], rfl, rfl⟩ v hv n hn hkind
    · exact begins_of_derivesAll hss ⟨[], rfl, rfl⟩ v hv b (Node.mem_preorder_trans hn hb)

/-- All expressions of a source are grouped. -/
theorem grouped_of_parse (h : parse source = .ok root) (hn : n ∈ root.preorder) : Grouped n := by
  intro b hb hkind
  have hb' := Node.mem_preorder_trans hn (mem_preorder_of_mem_pieces hb)
  obtain ⟨lexemes, -, ⟨k, c, e, c', he, -, hpiece⟩, -⟩ := inExpression_of_parse h hb' hkind
  exact grouped_of_derives he b hpiece hkind

/-- The node ends where no token of the source goes on with it. -/
def Ends (source : String) (n : Ast) : Prop :=
  ∃ front back, lex source = .ok (front ++ back) ∧ n.stop = endOf front
    ∧ ∀ l ∈ back.head?, continues l.token = false

/-- **Grouping.**  In a source that parses, the operands and operators of every binary expression
    stand in a row, each operand is as its operator asks for it, the right operand of an assignment
    is the whole rest of the expression, and there is no other way to group the row. -/
theorem operators_group (h : parse source = .ok root) (hn : n ∈ root.preorder)
    (hkind : n.kind = .binaryExpression) :
    (∃ l operator r t, Joins n l operator r ∧ operatorOf operator = some t ∧ Asks t l r
        ∧ (t = .assign → Ends source n ∧ ∀ e ∈ root.preorder, n ∈ pieces e →
          ∃ front, terms e = front ++ operator :: terms r))
      ∧ (∃ lexemes, lex source = .ok lexemes ∧ InRow lexemes (terms n))
      ∧ ∀ m, Grouped m ∧ terms m = terms n ↔ m = n := by
  have hgrouped := grouped_of_parse h hn
  obtain ⟨lexemes, hlex, ⟨k, c, e, c', he, ⟨front, hfront, hbefore⟩, hpiece⟩, hbegins⟩ :=
    inExpression_of_parse h hn hkind
  refine ⟨?_, ⟨lexemes, hlex, fun b hb => ?_, hgrouped.adjacent.2.2⟩, fun m => ⟨?_, ?_⟩⟩
  · obtain ⟨l, operator, r, t, hjoins, ht, hasks⟩ := hgrouped n (self_mem_pieces n) hkind
    refine ⟨l, operator, r, t, hjoins, ht, hasks, ?_⟩
    rintro rfl
    refine ⟨⟨front, c'.rest, hlex.trans (congrArg _ hfront), ?_, fun l hl => ?_⟩, fun e he hn => ?_⟩
    · have hcovers : c.Covers e c' := placed_of_derives he
      obtain ⟨hstop, -⟩ := (grouped_of_derives he).terms_of_assignment hpiece hjoins ht
      rw [hstop, hcovers.stop, hbefore]
    · refine continues_of_derives he ?_
      rw [Cursor.peek?, hl, Option.map_some]
    · exact ((grouped_of_parse h he).terms_of_assignment hn hjoins ht).2
  · exact hbegins b (mem_preorder_of_mem_terms hb)
  · rintro ⟨hm, hterms⟩
    exact eq_of_terms_eq hm hgrouped hterms
  · rintro rfl
    exact ⟨hgrouped, rfl⟩

/-- Seven operands and operators that make a single tree. -/
theorem operators_group_difference :
    ∃ root n, parse "x = a - b * c;" = .ok root ∧ n ∈ root.preorder
      ∧ n.kind = .binaryExpression ∧ (terms n).map (·.kind) =
        [.identifier, .operator (some .assign), .identifier, .operator (some .minus),
          .identifier, .operator (some .star), .identifier]
      ∧ ∀ m, Grouped m ∧ terms m = terms n ↔ m = n := by
  let product : Ast := ⟨.binaryExpression, 7, 8, 13, [⟨.identifier, 7, 8, 9, []⟩,
    ⟨.operator (some .star), 9, 10, 11, []⟩, ⟨.identifier, 11, 12, 13, []⟩]⟩
  let difference : Ast := ⟨.binaryExpression, 3, 4, 13, [⟨.identifier, 3, 4, 5, []⟩,
    ⟨.operator (some .minus), 5, 6, 7, []⟩, product]⟩
  let n : Ast := ⟨.binaryExpression, 0, 0, 13, [⟨.identifier, 0, 0, 1, []⟩,
    ⟨.operator (some .assign), 1, 2, 3, []⟩, difference]⟩
  let root : Ast := ⟨.sourceFile, 0, 0, 14, [⟨.expressionStatement, 0, 0, 14, [n]⟩]⟩
  have hparse : parse "x = a - b * c;" = .ok root := eq_ok_of_toOption (by decide +kernel)
  have hn : n ∈ root.preorder :=
    Node.mem_preorder_trans (Node.mem_preorder_of_mem_children List.mem_cons_self)
      (Node.mem_preorder_of_mem_children List.mem_cons_self)
  obtain ⟨-, -, hunique⟩ := operators_group hparse hn rfl
  exact ⟨root, n, hparse, hn, rfl, rfl, hunique⟩

end

end Transcode.Script
