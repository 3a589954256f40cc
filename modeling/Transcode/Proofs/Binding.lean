import Transcode.Proofs.Boundaries

namespace Transcode.Script

/-!
# How tight operands bind

The tree of a chain of operators is such that an operator has to its left what binds at least as
tight, and to its right what binds tighter.  With prefix operators, which bind tighter than all
others, this is so of every expression in a source that parses (`bound_of_parse`).
-/

/-! ### Chains -/

/-- What binds tighter than every binary operator. -/
def tightest : Nat := 7

/-- How tight a node binds as an operand: as its operator does if it is a binary expression. -/
def tightness (n : Ast) : Nat :=
  match n.kind, n.children with
  | .binaryExpression, [_, operator, _] => precedenceOf operator
  | .binaryExpression, _ => 0
  | _, _ => tightest

/-- The operands of a node bind as tight as its operator asks.  An assignment asks for nothing. -/
def Binds (n : Ast) : Prop :=
  match n.kind, n.children with
  | .binaryExpression, [l, operator, r] => precedenceOf operator ≠ 0 →
    precedenceOf operator ≤ tightness l ∧ precedenceOf operator < tightness r
  | .prefixUnary, [_, e] => tightness e = tightest
  | _, _ => True

/-- All expressions in a tree bind as they should. -/
def Bound (v : Ast) : Prop :=
  ∀ n ∈ v.preorder, Binds n

namespace Chain

/-- How tight a chain binds. -/
def tightness : Chain → Nat
  | operand _ => tightest
  | binary _ _ precedence _ => precedence

/-- The operands of a chain bind tighter than its operators, and the operators are in order. -/
def Graded : Chain → Prop
  | operand n => Script.tightness n = tightest
  | binary l operator precedence r =>
    l.Graded ∧ r.Graded ∧ precedence = precedenceOf operator ∧ precedence ≤ l.tightness
      ∧ precedence < r.tightness

variable {ch : Chain} {operator e : Ast} {precedence k : Nat}

/-- What is pushed takes over operands at the right end, and so the chain binds as tight as before
    or as the new operator does. -/
theorem tightness_push (hk : k < ch.tightness) (hprecedence : k < precedence) :
    k < (ch.push operator precedence e).tightness := by
  cases ch with
  | operand n => exact hprecedence
  | binary l op p r =>
    rw [push]
    split
    · exact hk
    · exact hprecedence

/-- A chain stays graded with an operator and an operand at its end. -/
theorem Graded.push (h : ch.Graded) (he : Script.tightness e = tightest)
    (hprecedence : precedence = precedenceOf operator) (hlt : precedence < tightest) :
    (ch.push operator precedence e).Graded := by
  induction ch with
  | operand n => exact ⟨h, he, hprecedence, Nat.le_of_lt hlt, hlt⟩
  | binary l op p r _ ih =>
    obtain ⟨hl, hr, hp, hleft, hright⟩ := h
    rw [Chain.push]
    by_cases htighter : p < precedence
    · rw [if_pos htighter]
      exact ⟨hl, ih hr, hp, hleft, tightness_push hright htighter⟩
    · rw [if_neg htighter]
      exact ⟨⟨hl, hr, hp, hleft, hright⟩, he, hprecedence, Nat.le_of_not_lt htighter, hlt⟩

/-- What it is put together to binds as tightly as it does. -/
theorem Graded.tightness_toAst (h : ch.Graded) : Script.tightness ch.toAst = ch.tightness := by
  cases ch with
  | operand n => exact h
  | binary l op p r => exact h.2.2.1.symm

end Chain

variable {v n e : Ast} {vs : List Ast} {c c' : Cursor} {k : Kind} {m : Nat} {σ : Symbol}

/-- Everything in a tree is bound if its root binds and its children are bound. -/
theorem bound_of_children (h : Binds v) (hvs : ∀ w ∈ v.children, Bound w) : Bound v :=
  Node.forall_preorder h hvs

/-- The tree of a chain binds as it should if its operands and operators do. -/
theorem Chain.Graded.bound_toAst {ch : Chain} (h : ch.Graded) (hall : ∀ v ∈ ch.inOrder, Bound v) :
    Bound ch.toAst := by
  induction ch with
  | operand n => exact hall n List.mem_cons_self
  | binary l op p r ihl ihr =>
    obtain ⟨hl, hr, hp, hleft, hright⟩ := h
    simp only [inOrder, List.forall_mem_append, List.forall_mem_cons] at hall
    refine bound_of_children ?_ ?_
    · rw [hp, ← hl.tightness_toAst] at hleft
      rw [hp, ← hr.tightness_toAst] at hright
      exact fun _ => ⟨hleft, hright⟩
    · simp only [toAst, List.forall_mem_cons]
      exact ⟨ihl hl hall.1, hall.2.1, ihr hr hall.2.2, List.forall_mem_nil _⟩

/-! ### Derivations -/

/-- What the trees are that are derived as a symbol: operands bind tightest, and chains are
    graded. -/
def Tight : Symbol → List Ast → Prop
  | .chain, vs => (chainOf vs).Graded
  | .unary, vs | .operand, vs | .primary, vs | .path, vs => ∀ v ∈ vs, tightness v = tightest
  | _, _ => True

/-- What is no binary expression binds tightest, -/
theorem tightness_of_ne (h : n.kind ≠ .binaryExpression) : tightness n = tightest := by
  rw [tightness]
  split
  · exact absurd ‹_› h
  · exact absurd ‹_› h
  · rfl

/-- and so does a node of another sort. -/
theorem tightness_nodeTo (h : k ≠ .binaryExpression) :
    ∀ v ∈ [c.nodeTo c' k vs], tightness v = tightest :=
  List.forall_mem_singleton.mpr (tightness_of_ne h)

/-- No operator binds so tightly. -/
theorem precedenceOf_lt (operator : Ast) : precedenceOf operator < tightest := by
  rw [precedenceOf]
  cases h : (operatorOf operator).bind Token.precedence? with
  | none => decide
  | some p =>
    obtain ⟨t, -, ht⟩ := Option.bind_eq_some_iff.mp h
    cases t <;> cases ht <;> decide

/-- Nothing binds tighter. -/
theorem tightness_le (n : Ast) : tightness n ≤ tightest := by
  rw [tightness]
  split
  · exact Nat.le_of_lt (precedenceOf_lt _)
  · exact Nat.zero_le _
  · exact Nat.le_refl _

/-- Operands bind tightest and chains are graded, by induction on the derivation. -/
theorem tight_of_derives (h : Derives m σ c vs c') : Tight σ vs := by
  induction h with
  | @atom n c c' t k _ hk =>
    refine tightness_nodeTo ?_
    rintro rfl
    cases t <;> cases hk
  | parenthesized | object | array | newPlain | newCall | pathName | pathMember | member | call
  | sign => exact tightness_nodeTo nofun
  | operand _ he | unsigned _ _ _ _ he => exact he
  | chainStart _ he => exact he _ List.mem_cons_self
  | chainStep _ _ _ _ hvs he => exact hvs.push (he _ List.mem_cons_self) rfl (precedenceOf_lt _)
  | _ => trivial

/-- The tree of a chain that is derived binds as it should if all it is made of does. -/
theorem bound_chainOf (h : Derives m .chain c vs c') (hvs : ∀ v ∈ vs, Bound v) :
    Bound (chainOf vs).toAst := by
  have hgraded : (chainOf vs).Graded := tight_of_derives h
  exact hgraded.bound_toAst fun v hv => hvs v ((mem_inOrder_chainOf h).mp hv)

/-- A node is bound if it binds and its children are bound. -/
theorem bound_nodeTo (h : Binds (c.nodeTo c' k vs)) (hvs : ∀ v ∈ vs, Bound v) :
    ∀ v ∈ [c.nodeTo c' k vs], Bound v :=
  List.forall_mem_singleton.mpr (bound_of_children h hvs)

/-- Nodes are bound one by one. -/
theorem bound_cons (he : ∀ v ∈ [e], Bound v) (hvs : ∀ v ∈ vs, Bound v) : ∀ v ∈ e :: vs, Bound v :=
  List.forall_mem_cons.mpr ⟨he _ List.mem_cons_self, hvs⟩

/-- The trees of a derivation bind as they should. -/
theorem bound_of_derives (h : Derives m σ c vs c') : ∀ v ∈ vs, Bound v := by
  have hname : ∀ {c c' : Cursor}, ∀ v ∈ [c.nodeTo c' .identifier []], Bound v := fun {_ _} =>
    bound_nodeTo trivial nofun
  have hoperator : ∀ {c c' : Cursor} {t}, ∀ v ∈ [c.nodeTo c' (.operator (some t)) []], Bound v :=
    fun {_ _ _} => bound_nodeTo trivial nofun
  induction h with
  | @atom n c c' t k _ hk =>
    refine bound_nodeTo ?_ nofun
    cases t <;> cases hk <;> trivial
  | parenthesized _ _ _ he | object _ _ he | array _ _ he | newPlain _ _ _ _ he | block _ _ he
  | variableStatement _ _ _ _ he | returnValue _ _ _ _ he | expressionStatement _ _ _ _ he =>
    exact bound_nodeTo trivial he
  | newCall _ _ _ _ he hes | call _ _ _ he hes | ifThen _ _ _ _ _ _ he hes
  | whileDo _ _ _ _ _ he hes => exact bound_nodeTo trivial (bound_cons he hes)
  | pathName => exact hname
  | pathMember _ _ _ he | member _ _ _ he => exact bound_nodeTo trivial (bound_cons he hname)
  | operand _ he | unsigned _ _ _ _ he | chainStart _ he | lastDeclaration _ _ he
  | listLast _ _ _ _ he => exact he
  | sign _ _ he ih =>
    exact bound_nodeTo (tight_of_derives he _ List.mem_cons_self) (bound_cons hoperator ih)
  | chainStep _ _ _ _ hvs he => exact bound_cons he (bound_cons hoperator hvs)
  | binary hvs _ _ ih => exact List.forall_mem_singleton.mpr (bound_chainOf hvs ih)
  | assign hvs _ _ ih he =>
    -- An assignment has no precedence, so it asks nothing of what it stands between.
    refine bound_nodeTo (fun hno => absurd rfl hno) (List.forall_mem_cons.mpr ⟨?_, ?_⟩)
    · exact bound_chainOf hvs ih
    · exact bound_cons hoperator he
  | @property n c t k c₁ c₂ e c' _ hk _ _ he =>
    have hkey : ∀ v ∈ [c.nodeTo c₁ k []], Bound v := by
      refine bound_nodeTo ?_ nofun
      cases t <;> cases hk <;> trivial
    exact bound_nodeTo trivial (bound_cons hkey he)
  | parameter | declared => exact bound_nodeTo trivial hname
  | listEnd | noStatement => exact List.forall_mem_nil _
  | listMore _ _ _ _ he hes | moreDeclarations _ _ _ he hes | moreStatements _ _ _ he hes =>
    exact bound_cons he hes
  | initialized _ _ _ he => exact bound_nodeTo trivial (bound_cons hname he)
  | empty | returnNothing => exact bound_nodeTo trivial nofun
  | ifElse _ _ _ _ _ _ _ he hs hs' => exact bound_nodeTo trivial (bound_cons he (bound_cons hs hs'))
  | function _ _ _ _ _ _ hps hss =>
    exact bound_nodeTo trivial
      (List.forall_mem_append.mpr ⟨bound_cons hname hps, bound_nodeTo trivial hss⟩)

/-- So do the statements of a source. -/
theorem bound_of_derivesAll (h : DerivesAll m c vs) : ∀ v ∈ vs, Bound v :=
  h.forall_mem fun hs => bound_of_derives hs _ List.mem_cons_self

/-- **Binding.**  All expressions in a source that parses bind as they should. -/
theorem bound_of_parse {source : String} {root : Ast} (h : parse source = .ok root) :
    Bound root := by
  obtain ⟨lexemes, ss, -, hss, rfl⟩ := parse_eq_ok.mp h
  exact bound_of_children trivial (bound_of_derivesAll hss)

end Transcode.Script
