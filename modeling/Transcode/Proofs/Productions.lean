import Transcode.Proofs.Reading

namespace Transcode.Script

open Transcode.Script.Parser

/-!
# What the parts of the grammar read

One equivalence for each part of the grammar: exactly when it yields what, in terms of single
tokens and of the parts it is made of.  Where the next token decides, there is an inductive type
with one constructor for each choice.  The three loops of the grammar are described by
`Continues`, which says what a loop makes of what was read before it.
-/

/-! ### Kinds of expressions and statements -/

/-- The expressions without operators. -/
inductive IsPrimary (inner : Nested) (c : Cursor) : Ast → Cursor → Prop
  | atom {t k c'} : c.Takes t c' → atoms.lookup t = some k →
      IsPrimary inner c (c.nodeTo c' k []) c'
  | parenthesized {v c'} : (Script.parenthesized inner).Yields c v c' → IsPrimary inner c v c'
  | object {v c'} : (objectLiteral inner).Yields c v c' → IsPrimary inner c v c'
  | array {v c'} : (arrayLiteral inner).Yields c v c' → IsPrimary inner c v c'
  | construction {v c'} : (newExpression inner).Yields c v c' → IsPrimary inner c v c'

/-- The tokens that begin a statement that is no expression. -/
def beginsStatement (t : Token) : Bool :=
  t == .semicolon || t == .leftBrace || t == .constKeyword || t == .letKeyword || t == .varKeyword
    || t == .ifKeyword || t == .whileKeyword || t == .returnKeyword || t == .functionKeyword

/-- The keywords of variable statements. -/
def variableKeywords : List Token :=
  [.constKeyword, .letKeyword, .varKeyword]

/-- The statements, each with what tells it from the others. -/
inductive IsStatement (inner : Nested) (c : Cursor) : Ast → Cursor → Prop
  | empty {c'} : c.Takes .semicolon c' → IsStatement inner c (c.nodeTo c' .emptyStatement []) c'
  | block {v c'} : (Script.block inner).Yields c v c' → IsStatement inner c v c'
  | declaration {keyword v c'} : keyword ∈ variableKeywords →
      (variableStatement inner keyword).Yields c v c' → IsStatement inner c v c'
  | choice {v c'} : (ifStatement inner).Yields c v c' → IsStatement inner c v c'
  | loop {v c'} : (whileStatement inner).Yields c v c' → IsStatement inner c v c'
  | result {v c'} : (returnStatement inner).Yields c v c' → IsStatement inner c v c'
  | function {v c'} : (functionDeclaration inner).Yields c v c' → IsStatement inner c v c'
  | expression {t v c'} : c.peek? = some t → beginsStatement t = false →
      (expressionStatement inner).Yields c v c' → IsStatement inner c v c'

variable {inner : Nested} {c c' : Cursor} {v : Ast} {vs : List Ast}

/-! ### Leaves -/

/-- An identifier is one token. -/
theorem yields_identifier :
    identifier.Yields c v c' ↔ c.Takes .ident c' ∧ v = c.nodeTo c' .identifier [] := by
  rw [identifier, yields_leaf]
  constructor
  · rintro ⟨t, k, htakes, hk, rfl⟩
    rw [List.lookup_cons] at hk
    split at hk
    · rename_i ht
      cases hk
      exact ⟨eq_of_beq ht ▸ htakes, rfl⟩
    · cases hk
  · rintro ⟨htakes, rfl⟩
    exact ⟨.ident, .identifier, htakes, rfl, rfl⟩

/-- So is the name of a property, which may be written in some ways. -/
theorem yields_propertyName :
    propertyName.Yields c v c'
      ↔ ∃ t k, c.Takes t c' ∧ propertyNames.lookup t = some k ∧ v = c.nodeTo c' k [] :=
  yields_leaf

/-- A parameter is an identifier, in a node of its own. -/
theorem yields_parameter :
    parameter.Yields c v c'
      ↔ c.Takes .ident c' ∧ v = c.nodeTo c' .parameter [c.nodeTo c' .identifier []] := by
  simp only [parameter, yields_node, yields_map, yields_identifier]
  grind

/-! ### Loops -/

/-- From `b`, read up to `m`, the loop goes on to `v`, read up to `c'`. -/
def Continues {α : Type} (loop : Parsed c α → Except SourceError (Parsed c α)) (b : α)
    (m : Cursor) (v : α) (c' : Cursor) : Prop :=
  ∃ h h', loop ⟨b, m, h⟩ = .ok ⟨v, c', h'⟩

/-- A path stops unless a point comes next, and goes on with the name after it. -/
theorem continues_memberPath {b : Ast} {m : Cursor} :
    Continues (memberPath (c := c)) b m v c'
      ↔ m.rest.length < c.rest.length
        ∧ ((m.peek? ≠ some .dot ∧ v = b ∧ c' = m)
          ∨ ∃ c₁ c₂, m.Takes .dot c₁ ∧ c₁.Takes .ident c₂
            ∧ Continues (memberPath (c := c))
                (c.nodeTo c₂ .propertyAccess [b, c₁.nodeTo c₂ .identifier []]) c₂ v c') := by
  constructor
  · rintro ⟨h, h', hloop⟩
    refine ⟨h, ?_⟩
    rw [memberPath] at hloop
    split at hloop
    · rename_i hnone
      cases hloop
      exact .inl ⟨Cursor.take?_eq_none_iff.mp hnone, rfl, rfl⟩
    · rename_i dot hdot
      obtain ⟨name, hname, hloop⟩ := bind_eq_ok.mp hloop
      obtain ⟨hident, hvalue⟩ := yields_identifier.mp (yields_of_eq_ok hname)
      refine .inr ⟨dot.next, name.next, Cursor.takes_of_take? hdot, hident, ?_⟩
      rw [← hvalue]
      exact ⟨_, h', hloop⟩
  · rintro ⟨h, ⟨hpeek, rfl, rfl⟩ | ⟨c₁, c₂, hdot, hident, hcont⟩⟩
    · refine ⟨h, h, ?_⟩
      rw [memberPath, Cursor.take?_eq_none_iff.mpr hpeek]
    · obtain ⟨h₂, h', hloop⟩ := hcont
      obtain ⟨hshort, hname⟩ := yields_identifier.mpr ⟨hident, rfl⟩
      refine ⟨h, h', ?_⟩
      rw [memberPath, Cursor.take?_of_takes hdot]
      exact bind_eq_ok.mpr ⟨_, hname, hloop⟩

/-- Arguments are expressions between parentheses, with commas in between. -/
theorem yields_arguments :
    (arguments inner).Yields c vs c'
      ↔ ∃ c₁, c.Takes .leftParen c₁
        ∧ Yields (commaItemsUntil .rightParen inner.expression) c₁ vs c' :=
  yields_delimited

/-- What comes after an expression goes on with a name after a point, or with arguments. -/
theorem continues_postfixFrom {b : Ast} {m : Cursor} :
    Continues (postfixFrom inner (c := c)) b m v c'
      ↔ m.rest.length < c.rest.length
        ∧ ((m.peek? ≠ some .dot ∧ m.peek? ≠ some .leftParen ∧ v = b ∧ c' = m)
          ∨ (∃ c₁ c₂, m.Takes .dot c₁ ∧ c₁.Takes .ident c₂
            ∧ Continues (postfixFrom inner (c := c))
                (c.nodeTo c₂ .propertyAccess [b, c₁.nodeTo c₂ .identifier []]) c₂ v c')
          ∨ ∃ args c₂, (arguments inner).Yields m args c₂
            ∧ Continues (postfixFrom inner (c := c))
                (c.nodeTo c₂ .callExpression (b :: args)) c₂ v c') := by
  -- One round of the loop: the end, a name, or arguments.
  constructor
  · rintro ⟨h, h', hloop⟩
    refine ⟨h, ?_⟩
    rw [postfixFrom] at hloop
    split at hloop
    · obtain ⟨name, hname, hloop⟩ := bind_eq_ok.mp hloop
      obtain ⟨t, c₁, htoken, hident⟩ := yields_keepRight.mp (yields_of_eq_ok hname)
      obtain ⟨-, hdot⟩ := yields_token.mp htoken
      obtain ⟨hident, hvalue⟩ := yields_identifier.mp hident
      refine .inr (.inl ⟨c₁, name.next, hdot, hident, ?_⟩)
      rw [← hvalue]
      exact ⟨_, h', hloop⟩
    · obtain ⟨args, hargs, hloop⟩ := bind_eq_ok.mp hloop
      exact .inr (.inr ⟨args.value, args.next, yields_of_eq_ok hargs, _, h', hloop⟩)
    · rename_i hdot hparen
      cases hloop
      exact .inl ⟨hdot, hparen, rfl, rfl⟩
  · rintro ⟨h, ⟨hdot, hparen, rfl, rfl⟩ | ⟨c₁, c₂, hdot, hident, hcont⟩ | ⟨args, c₂, hargs, hcont⟩⟩
    · refine ⟨h, h, ?_⟩
      rw [postfixFrom]
      split
      · contradiction
      · contradiction
      · rfl
    · obtain ⟨h₂, h', hloop⟩ := hcont
      obtain ⟨hshort, hname⟩ := yields_keepRight.mpr
        ⟨.dot, c₁, yields_token.mpr ⟨rfl, hdot⟩, yields_identifier.mpr ⟨hident, rfl⟩⟩
      refine ⟨h, h', ?_⟩
      rw [postfixFrom]
      simp only [hdot.peek?]
      exact bind_eq_ok.mpr ⟨_, hname, hloop⟩
    · obtain ⟨h₂, h', hloop⟩ := hcont
      obtain ⟨c₁, hparen, -⟩ := yields_arguments.mp hargs
      obtain ⟨hshort, hargs⟩ := hargs
      refine ⟨h, h', ?_⟩
      rw [postfixFrom]
      simp only [hparen.peek?]
      exact bind_eq_ok.mpr ⟨_, hargs, hloop⟩

/-- An operator is taken if there is one. -/
theorem operator?_eq_some_iff {p : Token → Bool} {t : Token} {op : Ast} :
    (∃ h, operator? p c = some ⟨(t, op), c', h⟩)
      ↔ c.Takes t c' ∧ p t = true ∧ op = c.nodeTo c' (.operator (some t)) [] := by
  constructor
  · rintro ⟨h, hop⟩
    obtain ⟨taken, htake, hop⟩ := Option.map_eq_some_iff.mp hop
    obtain ⟨htakes, hp⟩ := Cursor.takes_of_takeIf? htake
    cases hop
    exact ⟨htakes, hp, rfl⟩
  · rintro ⟨htakes, hp, rfl⟩
    refine ⟨htakes.shorter, ?_⟩
    rw [operator?, Cursor.takeIf?_of_takes htakes hp]
    rfl

/-- There is no operator of a sort exactly if no token of the sort comes next. -/
theorem operator?_eq_none_iff {p : Token → Bool} :
    operator? p c = none ↔ ∀ t, c.peek? = some t → p t = false := by
  rw [operator?, Option.map_eq_none_iff, Cursor.takeIf?_eq_none_iff]

/-- A chain goes on with an operator that has a precedence and the operand after it. -/
theorem continues_chainFrom {ch ch' : Chain} {m : Cursor} :
    Continues (chainFrom inner (c := c)) ch m ch' c'
      ↔ m.rest.length < c.rest.length
        ∧ (((∀ t, m.peek? = some t → t.precedence? = none) ∧ ch' = ch ∧ c' = m)
          ∨ ∃ t p c₁ e c₂, m.Takes t c₁ ∧ t.precedence? = some p ∧ inner.unary.Yields c₁ e c₂
            ∧ Continues (chainFrom inner (c := c))
                (ch.push (m.nodeTo c₁ (.operator (some t)) []) p e) c₂ ch' c') := by
  -- One round of the loop: the end, or an operator with its operand.
  constructor
  · rintro ⟨h, h', hloop⟩
    refine ⟨h, ?_⟩
    rw [chainFrom] at hloop
    split at hloop
    · rename_i hnone
      cases hloop
      refine .inl ⟨?_, rfl, rfl⟩
      intro t ht
      simpa using operator?_eq_none_iff.mp hnone t ht
    · rename_i op hop
      obtain ⟨right, hright, hloop⟩ := bind_eq_ok.mp hloop
      obtain ⟨htakes, hp, hnode⟩ := operator?_eq_some_iff.mp ⟨op.shorter, hop⟩
      obtain ⟨p, hp⟩ := Option.isSome_iff_exists.mp hp
      refine .inr ⟨op.value.1, p, op.next, right.value, right.next, htakes, hp,
        yields_of_eq_ok hright, ?_⟩
      rw [← hnode]
      rw [hp] at hloop
      exact ⟨_, h', hloop⟩
  · rintro ⟨h, ⟨hpeek, rfl, rfl⟩ | ⟨t, p, c₁, e, c₂, htakes, hp, hright, hcont⟩⟩
    · refine ⟨h, h, ?_⟩
      have hnone : operator? (·.precedence?.isSome) c' = none := by
        rw [operator?_eq_none_iff]
        intro t ht
        rw [hpeek t ht]
        rfl
      rw [chainFrom, hnone]
    · obtain ⟨h₂, h', hloop⟩ := hcont
      obtain ⟨hshort, hright⟩ := hright
      have hsome : t.precedence?.isSome = true := by rw [hp]; rfl
      obtain ⟨hop, heq⟩ := (operator?_eq_some_iff (p := (·.precedence?.isSome))).mpr
        ⟨htakes, hsome, rfl⟩
      refine ⟨h, h', ?_⟩
      rw [chainFrom, heq]
      refine bind_eq_ok.mpr ⟨_, hright, ?_⟩
      simp only [hp]
      exact hloop

/-! ### Expressions -/

/-- An expression in parentheses has its parentheses and itself. -/
theorem yields_parenthesized :
    (parenthesized inner).Yields c v c'
      ↔ ∃ c₁ e c₂, c.Takes .leftParen c₁ ∧ inner.expression.Yields c₁ e c₂
        ∧ c₂.Takes .rightParen c' ∧ v = c.nodeTo c' .parenthesized [e] := by
  simp only [parenthesized, yields_node, yields_map, yields_keepLeft, yields_keepRight,
    yields_token]
  grind

/-- A property is a name, a colon and an expression. -/
theorem yields_propertyAssignment :
    (propertyAssignment inner).Yields c v c'
      ↔ ∃ t k c₁ c₂ e, c.Takes t c₁ ∧ propertyNames.lookup t = some k ∧ c₁.Takes .colon c₂
        ∧ inner.expression.Yields c₂ e c'
        ∧ v = c.nodeTo c' .propertyAssignment [c.nodeTo c₁ k [], e] := by
  simp only [propertyAssignment, yields_node, yields_map, yields_bind, yields_keepLeft,
    yields_token, yields_propertyName]
  grind

/-- An object is properties between braces. -/
theorem yields_objectLiteral :
    (objectLiteral inner).Yields c v c'
      ↔ ∃ c₁ ps, c.Takes .leftBrace c₁
        ∧ Yields (commaItemsUntil .rightBrace (propertyAssignment inner)) c₁ ps c'
        ∧ v = c.nodeTo c' .objectLiteral ps := by
  simp only [objectLiteral, yields_node, yields_delimited]
  grind

/-- An array is expressions between brackets. -/
theorem yields_arrayLiteral :
    (arrayLiteral inner).Yields c v c'
      ↔ ∃ c₁ es, c.Takes .leftBracket c₁
        ∧ Yields (commaItemsUntil .rightBracket inner.expression) c₁ es c'
        ∧ v = c.nodeTo c' .arrayLiteral es := by
  simp only [arrayLiteral, yields_node, yields_delimited]
  grind

/-- An object is constructed from a path of names, with arguments or without. -/
theorem yields_newExpression :
    (newExpression inner).Yields c v c'
      ↔ ∃ c₁ c₂ callee c₃, c.Takes .newKeyword c₁ ∧ c₁.Takes .ident c₂
        ∧ Continues (memberPath (c := c₁)) (c₁.nodeTo c₂ .identifier []) c₂ callee c₃
        ∧ ((c₃.peek? ≠ some .leftParen ∧ c' = c₃ ∧ v = c.nodeTo c' .newExpression [callee])
          ∨ ∃ args, (arguments inner).Yields c₃ args c'
            ∧ v = c.nodeTo c' .newExpression (callee :: args)) := by
  simp only [newExpression, yields_node, yields_keepRight, yields_token]
  constructor
  · rintro ⟨ns, ⟨-, c₁, ⟨-, hnew⟩, h, hbody⟩, rfl⟩
    obtain ⟨name, hname, hbody⟩ := bind_eq_ok.mp hbody
    obtain ⟨hident, hvalue⟩ := yields_identifier.mp (yields_of_eq_ok hname)
    obtain ⟨callee, hcallee, hbody⟩ := bind_eq_ok.mp hbody
    refine ⟨c₁, name.next, callee.value, callee.next, hnew, hident, ?_, ?_⟩
    · rw [← hvalue]
      exact ⟨name.shorter, callee.shorter, hcallee⟩
    · split at hbody
      · obtain ⟨args, hargs, hbody⟩ := bind_eq_ok.mp hbody
        cases hbody
        exact .inr ⟨args.value, yields_of_eq_ok hargs, rfl⟩
      · rename_i hpeek
        cases hbody
        exact .inl ⟨hpeek, rfl, rfl⟩
  · rintro ⟨c₁, c₂, callee, c₃, hnew, hident, ⟨h₂, h₃, hcallee⟩, hrest⟩
    obtain ⟨hshort, hname⟩ := yields_identifier.mpr ⟨hident, rfl⟩
    rcases hrest with ⟨hpeek, rfl, rfl⟩ | ⟨args, hargs, rfl⟩
    · refine ⟨[callee], ⟨.newKeyword, c₁, ⟨rfl, hnew⟩, h₃, ?_⟩, rfl⟩
      refine bind_eq_ok.mpr ⟨_, hname, bind_eq_ok.mpr ⟨_, hcallee, ?_⟩⟩
      rw [if_neg hpeek]
      rfl
    · obtain ⟨c₄, hparen, -⟩ := yields_arguments.mp hargs
      obtain ⟨h', hargs⟩ := hargs
      refine ⟨callee :: args, ⟨.newKeyword, c₁, ⟨rfl, hnew⟩, Nat.lt_trans h' h₃, ?_⟩, rfl⟩
      refine bind_eq_ok.mpr ⟨_, hname, bind_eq_ok.mpr ⟨_, hcallee, ?_⟩⟩
      rw [if_pos hparen.peek?]
      exact bind_eq_ok.mpr ⟨_, hargs, rfl⟩

/-- An expression without operators is one of five kinds. -/
theorem yields_primary : (primary inner).Yields c v c' ↔ IsPrimary inner c v c' := by
  constructor
  · rintro ⟨h', h⟩
    unfold primary at h
    split at h
    · exact .parenthesized ⟨h', h⟩
    · exact .object ⟨h', h⟩
    · exact .array ⟨h', h⟩
    · exact .construction ⟨h', h⟩
    · obtain ⟨t, k, htakes, hk, rfl⟩ := yields_leaf.mp ⟨h', h⟩
      exact .atom htakes hk
  · intro h
    cases h with
    | @atom t k _ htakes hk =>
      have hleaf : Yields (leaf atoms .expression) c (c.nodeTo c' k []) c' :=
        yields_leaf.mpr ⟨t, k, htakes, hk, rfl⟩
      refine hleaf.of_eq ?_
      unfold primary
      rw [htakes.peek?]
      -- None of the other tokens is an expression by itself.
      split
      · rename_i ht
        cases ht
        cases hk
      · rename_i ht
        cases ht
        cases hk
      · rename_i ht
        cases ht
        cases hk
      · rename_i ht
        cases ht
        cases hk
      · rfl
    | parenthesized h =>
      obtain ⟨c₁, e, c₂, htakes, -⟩ := yields_parenthesized.mp h
      exact h.of_eq (by rw [primary, htakes.peek?])
    | object h =>
      obtain ⟨c₁, ps, htakes, -⟩ := yields_objectLiteral.mp h
      exact h.of_eq (by rw [primary, htakes.peek?])
    | array h =>
      obtain ⟨c₁, es, htakes, -⟩ := yields_arrayLiteral.mp h
      exact h.of_eq (by rw [primary, htakes.peek?])
    | construction h =>
      obtain ⟨c₁, c₂, callee, c₃, htakes, -⟩ := yields_newExpression.mp h
      exact h.of_eq (by rw [primary, htakes.peek?])

/-- With names and calls after it, it begins with one of these. -/
theorem yields_postfixExpression :
    (postfixExpression inner).Yields c v c'
      ↔ ∃ b m, (primary inner).Yields c b m
        ∧ Continues (postfixFrom inner (c := c)) b m v c' := by
  constructor
  · rintro ⟨h', h⟩
    obtain ⟨first, hfirst, hloop⟩ := bind_eq_ok.mp h
    exact ⟨first.value, first.next, yields_of_eq_ok hfirst, first.shorter, h', hloop⟩
  · rintro ⟨b, m, ⟨h, hfirst⟩, ⟨h₁, h', hloop⟩⟩
    exact ⟨h', bind_eq_ok.mpr ⟨_, hfirst, hloop⟩⟩

/-- An operand has an operator in front, if the next token is one. -/
theorem yields_unaryExpression :
    (unaryExpression inner).Yields c v c'
      ↔ (∃ t c₁ e, c.Takes t c₁ ∧ isPrefixOperator t = true ∧ inner.unary.Yields c₁ e c'
          ∧ v = c.nodeTo c' .prefixUnary [c.nodeTo c₁ (.operator (some t)) [], e])
        ∨ ((∀ t, c.peek? = some t → isPrefixOperator t = false)
          ∧ (postfixExpression inner).Yields c v c') := by
  constructor
  · rintro ⟨h', h⟩
    unfold unaryExpression at h
    split at h
    · rename_i op hop
      obtain ⟨htakes, hp, hnode⟩ := operator?_eq_some_iff.mp ⟨op.shorter, hop⟩
      obtain ⟨e, he, h⟩ := bind_eq_ok.mp h
      cases h
      refine .inl ⟨op.value.1, op.next, e.value, htakes, hp, yields_of_eq_ok he, ?_⟩
      rw [← hnode]
      rfl
    · rename_i hnone
      exact .inr ⟨operator?_eq_none_iff.mp hnone, h', h⟩
  · rintro (⟨t, c₁, e, htakes, hp, ⟨h, he⟩, rfl⟩ | ⟨hpeek, h', h⟩)
    · obtain ⟨hop, heq⟩ := operator?_eq_some_iff.mpr ⟨htakes, hp, rfl⟩
      refine ⟨Nat.lt_trans h htakes.shorter, ?_⟩
      rw [unaryExpression, heq]
      exact bind_eq_ok.mpr ⟨_, he, rfl⟩
    · refine ⟨h', ?_⟩
      rw [unaryExpression, operator?_eq_none_iff.mpr hpeek]
      exact h

/-- A binary expression is a chain of operands, put together at its end. -/
theorem yields_binaryExpression :
    (binaryExpression inner).Yields c v c'
      ↔ ∃ e m ch, inner.unary.Yields c e m
        ∧ Continues (chainFrom inner (c := c)) (.operand e) m ch c' ∧ v = ch.toAst := by
  constructor
  · rintro ⟨h', h⟩
    obtain ⟨first, hfirst, h⟩ := bind_eq_ok.mp h
    obtain ⟨chain, hloop, h⟩ := bind_eq_ok.mp h
    cases h
    exact ⟨first.value, first.next, chain.value, yields_of_eq_ok hfirst,
      ⟨first.shorter, chain.shorter, hloop⟩, rfl⟩
  · rintro ⟨e, m, ch, ⟨h, hfirst⟩, ⟨h₁, h', hloop⟩, rfl⟩
    exact ⟨h', bind_eq_ok.mpr ⟨_, hfirst, bind_eq_ok.mpr ⟨_, hloop, rfl⟩⟩⟩

/-- An assignment reaches to the right as far as it can. -/
theorem yields_assignment :
    (assignment inner).Yields c v c'
      ↔ ((binaryExpression inner).Yields c v c' ∧ c'.peek? ≠ some .assign)
        ∨ ∃ target m c₁ e, (binaryExpression inner).Yields c target m ∧ m.Takes .assign c₁
          ∧ inner.expression.Yields c₁ e c'
          ∧ v = c.nodeTo c' .binaryExpression
              [target, m.nodeTo c₁ (.operator (some .assign)) [], e] := by
  constructor
  · rintro ⟨h', h⟩
    obtain ⟨target, htarget, h⟩ := bind_eq_ok.mp h
    split at h
    · rename_i hnone
      cases h
      refine .inl ⟨yields_of_eq_ok htarget, ?_⟩
      intro ht
      have hassign := operator?_eq_none_iff.mp hnone _ ht
      simp at hassign
    · rename_i op hop
      obtain ⟨htakes, hp, hnode⟩ := operator?_eq_some_iff.mp ⟨op.shorter, hop⟩
      obtain ⟨e, he, h⟩ := bind_eq_ok.mp h
      cases h
      rw [eq_of_beq hp] at htakes hnode
      refine .inr ⟨target.value, target.next, op.next, e.value, yields_of_eq_ok htarget, htakes,
        yields_of_eq_ok he, ?_⟩
      rw [← hnode]
      rfl
  · rintro (⟨⟨h', htarget⟩, hpeek⟩ | ⟨target, m, c₁, e, ⟨h, htarget⟩, htakes, ⟨h', he⟩, rfl⟩)
    · refine ⟨h', bind_eq_ok.mpr ⟨_, htarget, ?_⟩⟩
      have hnone : operator? (· == .assign) c' = none := by
        rw [operator?_eq_none_iff]
        intro t ht
        exact beq_eq_false_iff_ne.mpr fun hassign => hpeek (hassign ▸ ht)
      simp only [hnone]
      rfl
    · refine ⟨Nat.lt_trans h' (Nat.lt_trans htakes.shorter h), bind_eq_ok.mpr ⟨_, htarget, ?_⟩⟩
      obtain ⟨hop, heq⟩ := (operator?_eq_some_iff (p := (· == .assign))).mpr
        ⟨htakes, beq_self_eq_true _, rfl⟩
      simp only [heq]
      exact bind_eq_ok.mpr ⟨_, he, rfl⟩

/-! ### Statements -/

/-- A block is statements between braces. -/
theorem yields_block :
    (block inner).Yields c v c'
      ↔ ∃ c₁ ss, c.Takes .leftBrace c₁ ∧ Yields (itemsUntil .rightBrace inner.statement) c₁ ss c'
        ∧ v = c.nodeTo c' .block ss := by
  simp only [block, yields_node, yields_keepRight, yields_token]
  grind

/-- A variable may be given a value where it is declared. -/
theorem yields_variableDeclaration :
    (variableDeclaration inner).Yields c v c'
      ↔ (c.Takes .ident c' ∧ c'.peek? ≠ some .assign
          ∧ v = c.nodeTo c' .variableDeclaration [c.nodeTo c' .identifier []])
        ∨ ∃ c₁ c₂ e, c.Takes .ident c₁ ∧ c₁.Takes .assign c₂ ∧ inner.expression.Yields c₂ e c'
          ∧ v = c.nodeTo c' .variableDeclaration [c.nodeTo c₁ .identifier [], e] := by
  simp only [variableDeclaration, yields_node, yields_orMore, yields_map, yields_identifier]
  grind

/-- A keyword declares any number of variables, and a semicolon may follow. -/
theorem yields_variableStatement {keyword : Token} :
    (variableStatement inner keyword).Yields c v c'
      ↔ ∃ c₁ ds c₂, c.Takes keyword c₁ ∧ Yields (commaItems (variableDeclaration inner)) c₁ ds c₂
        ∧ c₂.Skips .semicolon c' ∧ v = c.nodeTo c' .variableStatement ds := by
  simp only [variableStatement, yields_node, yields_skip, yields_keepRight, yields_token]
  grind

/-- A condition is an expression in parentheses, and a statement hangs on it. -/
theorem yields_conditional {keyword : Token} :
    (conditional inner keyword).Yields c vs c'
      ↔ ∃ c₁ c₂ e c₃ c₄ s, c.Takes keyword c₁ ∧ c₁.Takes .leftParen c₂
        ∧ inner.expression.Yields c₂ e c₃ ∧ c₃.Takes .rightParen c₄ ∧ inner.statement.Yields c₄ s c'
        ∧ vs = [e, s] := by
  simp only [conditional, condition, yields_keepRight, yields_bind, yields_keepLeft, yields_map,
    yields_token]
  grind

/-- A choice has a second statement if `else` follows the first one. -/
theorem yields_ifStatement :
    (ifStatement inner).Yields c v c'
      ↔ ((conditional inner .ifKeyword).Yields c v.children c' ∧ c'.peek? ≠ some .elseKeyword
          ∧ v = c.nodeTo c' .ifStatement v.children)
        ∨ ∃ es m c₁ s, (conditional inner .ifKeyword).Yields c es m ∧ m.Takes .elseKeyword c₁
          ∧ inner.statement.Yields c₁ s c' ∧ v = c.nodeTo c' .ifStatement (es ++ [s]) := by
  simp only [ifStatement, yields_node, yields_orMore, yields_map]
  constructor
  · rintro ⟨ns, ⟨hcond, hpeek⟩ | ⟨es, m, c₁, bs, hcond, htakes, ⟨s, hs, rfl⟩, rfl⟩, rfl⟩
    · exact .inl ⟨hcond, hpeek, rfl⟩
    · exact .inr ⟨es, m, c₁, s, hcond, htakes, hs, rfl⟩
  · rintro (⟨hcond, hpeek, hv⟩ | ⟨es, m, c₁, s, hcond, htakes, hs, rfl⟩)
    · exact ⟨v.children, .inl ⟨hcond, hpeek⟩, hv⟩
    · exact ⟨es ++ [s], .inr ⟨es, m, c₁, [s], hcond, htakes, ⟨s, hs, rfl⟩, rfl⟩, rfl⟩

/-- A loop is a condition and its statement. -/
theorem yields_whileStatement :
    (whileStatement inner).Yields c v c'
      ↔ ∃ es, (conditional inner .whileKeyword).Yields c es c'
        ∧ v = c.nodeTo c' .whileStatement es :=
  yields_node

/-- Where a `return` has no value. -/
def endsReturn (next : Option Token) : Prop :=
  next = none ∨ next = some .semicolon ∨ next = some .rightBrace

/-- A result is given back unless the statement ends at once. -/
theorem yields_returnStatement :
    (returnStatement inner).Yields c v c'
      ↔ (∃ c₁, c.Takes .returnKeyword c₁ ∧ endsReturn c₁.peek? ∧ c₁.Skips .semicolon c'
          ∧ v = c.nodeTo c' .returnStatement [])
        ∨ ∃ c₁ e c₂, c.Takes .returnKeyword c₁ ∧ ¬ endsReturn c₁.peek?
          ∧ inner.expression.Yields c₁ e c₂ ∧ c₂.Skips .semicolon c'
          ∧ v = c.nodeTo c' .returnStatement [e] := by
  -- Whether there is a value is told by the token after the keyword.
  have hclause : ∀ {m : Cursor} {ns : List Ast}, (returnClause inner).Yields c ns m
      ↔ (c.Takes .returnKeyword m ∧ endsReturn m.peek? ∧ ns = [])
        ∨ ∃ c₁ e, c.Takes .returnKeyword c₁ ∧ ¬ endsReturn c₁.peek?
          ∧ inner.expression.Yields c₁ e m ∧ ns = [e] := by
    intro m ns
    constructor
    · rintro ⟨h', h⟩
      obtain ⟨keyword, hkeyword, h⟩ := bind_eq_ok.mp h
      obtain ⟨-, htakes⟩ := yields_token.mp (yields_of_eq_ok hkeyword)
      split at h
      · rename_i hpeek
        cases h
        exact .inl ⟨htakes, .inl hpeek, rfl⟩
      · rename_i hpeek
        cases h
        exact .inl ⟨htakes, .inr (.inl hpeek), rfl⟩
      · rename_i hpeek
        cases h
        exact .inl ⟨htakes, .inr (.inr hpeek), rfl⟩
      · rename_i hnone hsemicolon hbrace
        obtain ⟨e, he, h⟩ := bind_eq_ok.mp h
        cases h
        refine .inr ⟨keyword.next, e.value, htakes, ?_, yields_of_eq_ok he, rfl⟩
        rintro (h | h | h)
        · exact hnone h
        · exact hsemicolon h
        · exact hbrace h
    · rintro (⟨htakes, hpeek, rfl⟩ | ⟨c₁, e, htakes, hpeek, ⟨h, he⟩, rfl⟩)
      · obtain ⟨h', hkeyword⟩ := yields_token.mpr ⟨rfl, htakes⟩
        refine ⟨h', bind_eq_ok.mpr ⟨_, hkeyword, ?_⟩⟩
        rcases hpeek with hpeek | hpeek | hpeek
        all_goals
          simp only [hpeek]
          rfl
      · obtain ⟨h', hkeyword⟩ := yields_token.mpr ⟨rfl, htakes⟩
        refine ⟨Nat.lt_trans h h', bind_eq_ok.mpr ⟨_, hkeyword, ?_⟩⟩
        split
        · rename_i hnone
          exact absurd (.inl hnone) hpeek
        · rename_i hsemicolon
          exact absurd (.inr (.inl hsemicolon)) hpeek
        · rename_i hbrace
          exact absurd (.inr (.inr hbrace)) hpeek
        · exact bind_eq_ok.mpr ⟨_, he, rfl⟩
  simp only [returnStatement, yields_node, yields_skip, hclause]
  grind

/-- A function has a name, parameters and a block. -/
theorem yields_functionDeclaration :
    (functionDeclaration inner).Yields c v c'
      ↔ ∃ c₁ c₂ c₃ ps c₄ b, c.Takes .functionKeyword c₁ ∧ c₁.Takes .ident c₂
        ∧ c₂.Takes .leftParen c₃ ∧ Yields (commaItemsUntil .rightParen parameter) c₃ ps c₄
        ∧ (block inner).Yields c₄ b c'
        ∧ v = c.nodeTo c' .functionDeclaration (c₁.nodeTo c₂ .identifier [] :: ps ++ [b]) := by
  simp only [functionDeclaration, yields_node, yields_map, yields_bind, yields_delimited,
    yields_keepRight, yields_token, yields_identifier]
  grind

/-- An expression is a statement, and a semicolon may follow. -/
theorem yields_expressionStatement :
    (expressionStatement inner).Yields c v c'
      ↔ ∃ e m, inner.expression.Yields c e m ∧ m.Skips .semicolon c'
        ∧ v = c.nodeTo c' .expressionStatement [e] := by
  simp only [expressionStatement, yields_node, yields_skip, yields_map]
  grind

/-- Its first token says which of the statements it is. -/
theorem yields_statementOf : (statementOf inner).Yields c v c' ↔ IsStatement inner c v c' := by
  constructor
  · rintro ⟨h', h⟩
    unfold statementOf at h
    split at h
    · cases h
    · obtain ⟨t, k, htakes, hk, rfl⟩ := yields_leaf.mp ⟨h', h⟩
      rw [List.lookup_cons] at hk
      split at hk
      · rename_i ht
        cases hk
        rw [eq_of_beq ht] at htakes
        exact .empty htakes
      · cases hk
    · exact .block ⟨h', h⟩
    · exact .declaration (by decide) ⟨h', h⟩
    · exact .declaration (by decide) ⟨h', h⟩
    · exact .declaration (by decide) ⟨h', h⟩
    · exact .choice ⟨h', h⟩
    · exact .loop ⟨h', h⟩
    · exact .result ⟨h', h⟩
    · exact .function ⟨h', h⟩
    · rename_i t _ _ _ _ _ _ _ _ _ ht
      refine .expression ht ?_ ⟨h', h⟩
      cases t <;> first | rfl | contradiction
  · intro h
    cases h with
    -- Each production says which token it takes first, and with that token in front `statementOf`
    -- is that production.
    | empty htakes =>
      have hleaf : Yields (leaf [(.semicolon, .emptyStatement)] .statement) c
          (c.nodeTo c' .emptyStatement []) c' :=
        yields_leaf.mpr ⟨.semicolon, .emptyStatement, htakes, rfl, rfl⟩
      exact hleaf.of_eq (by rw [statementOf, htakes.peek?])
    | block h =>
      obtain ⟨c₁, ss, htakes, -⟩ := yields_block.mp h
      exact h.of_eq (by rw [statementOf, htakes.peek?])
    | declaration hkeyword h =>
      obtain ⟨c₁, ds, c₂, htakes, -⟩ := yields_variableStatement.mp h
      simp only [variableKeywords, List.mem_cons, List.not_mem_nil, or_false] at hkeyword
      rcases hkeyword with rfl | rfl | rfl
      all_goals exact h.of_eq (by rw [statementOf, htakes.peek?])
    | choice h =>
      have hpeek : c.peek? = some .ifKeyword := by
        rcases yields_ifStatement.mp h with ⟨hcond, -⟩ | ⟨es, m, c₁, s, hcond, -⟩
        all_goals
          obtain ⟨c₁, c₂, e, c₃, c₄, s, htakes, -⟩ := yields_conditional.mp hcond
          exact htakes.peek?
      exact h.of_eq (by rw [statementOf, hpeek])
    | loop h =>
      obtain ⟨es, hcond, -⟩ := yields_whileStatement.mp h
      obtain ⟨c₁, c₂, e, c₃, c₄, s, htakes, -⟩ := yields_conditional.mp hcond
      exact h.of_eq (by rw [statementOf, htakes.peek?])
    | result h =>
      have hpeek : c.peek? = some .returnKeyword := by
        rcases yields_returnStatement.mp h with ⟨c₁, htakes, -⟩ | ⟨c₁, e, c₂, htakes, -⟩
        all_goals exact htakes.peek?
      exact h.of_eq (by rw [statementOf, hpeek])
    | function h =>
      obtain ⟨c₁, c₂, c₃, ps, c₄, b, htakes, -⟩ := yields_functionDeclaration.mp h
      exact h.of_eq (by rw [statementOf, htakes.peek?])
    | @expression t _ _ ht hbegins h =>
      -- An expression says of its first token only that it begins no other statement.
      refine h.of_eq ?_
      unfold statementOf
      rw [ht]
      cases t <;> first | rfl | cases hbegins

end Transcode.Script
