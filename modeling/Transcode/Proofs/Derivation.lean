import Transcode.Proofs.Productions

namespace Transcode.Script

open Transcode.Script.Parser

/-!
# The grammar as rules

`Derives n σ c vs c'` says that the tokens from `c` up to `c'` are a `σ` with the trees `vs`,
where statements and expressions may nest `n` deep.  Its rules are the rules of the grammar, one
for each way to write something, and what a rule needs to know of the token after it is among
its premises.  The parsers read exactly what the rules derive: `sound` and
`reads_of_derives` are the two directions, and `parse_eq_ok` says it of a whole source.  What
holds of every source that parses is then proved by induction on derivations.
-/

/-- What a delimited list is made of. -/
inductive Item
  | expression
  | property
  | parameter

/-- What the rules are about. -/
inductive Symbol
  | statement
  /-- Statements up to a closing brace, which is taken. -/
  | statements
  | declaration
  /-- Declarations with commas in between. -/
  | declarations
  | expression
  /-- Operands with binary operators in between, the last one first. -/
  | chain
  /-- An operand of binary operators. -/
  | unary
  /-- An expression with some of the names and arguments after it. -/
  | operand
  /-- An expression without operators. -/
  | primary
  /-- A name with some of the names after it. -/
  | path
  | property
  | parameter
  /-- Items with commas in between up to a closing token, which is taken. -/
  | list (item : Item) (close : Token)

/-- An item as what the rules are about. -/
def Item.symbol : Item → Symbol
  | expression => .expression
  | property => .property
  | parameter => .parameter

/-- What a delimited list may close with. -/
def closers : List Token :=
  [.rightParen, .rightBrace, .rightBracket]

/-- How tight the operator of a node binds. -/
def precedenceOf (operator : Ast) : Nat :=
  ((operatorOf operator).bind Token.precedence?).getD 0

/-- The chain that grows from operands and operators, the last one first. -/
def chainOf : List Ast → Chain
  | [] => .operand default
  | [e] => .operand e
  | e :: operator :: vs => (chainOf vs).push operator (precedenceOf operator) e

/-- The rules of the grammar. -/
inductive Derives : Nat → Symbol → Cursor → List Ast → Cursor → Prop
  | atom {n c c' t k} : c.Takes t c' → atoms.lookup t = some k →
      Derives n .primary c [c.nodeTo c' k []] c'
  | parenthesized {n c c₁ e c₂ c'} : c.Takes .leftParen c₁ → Derives n .expression c₁ [e] c₂ →
      c₂.Takes .rightParen c' → Derives n .primary c [c.nodeTo c' .parenthesized [e]] c'
  | object {n c c₁ ps c'} : c.Takes .leftBrace c₁ →
      Derives n (.list .property .rightBrace) c₁ ps c' →
      Derives n .primary c [c.nodeTo c' .objectLiteral ps] c'
  | array {n c c₁ es c'} : c.Takes .leftBracket c₁ →
      Derives n (.list .expression .rightBracket) c₁ es c' →
      Derives n .primary c [c.nodeTo c' .arrayLiteral es] c'
  | newPlain {n c c₁ p c'} : c.Takes .newKeyword c₁ → Derives n .path c₁ [p] c' →
      c'.peek? ≠ some .dot → c'.peek? ≠ some .leftParen →
      Derives n .primary c [c.nodeTo c' .newExpression [p]] c'
  | newCall {n c c₁ p c₂ c₃ args c'} : c.Takes .newKeyword c₁ → Derives n .path c₁ [p] c₂ →
      c₂.Takes .leftParen c₃ → Derives n (.list .expression .rightParen) c₃ args c' →
      Derives n .primary c [c.nodeTo c' .newExpression (p :: args)] c'
  | pathName {n c c'} : c.Takes .ident c' → Derives n .path c [c.nodeTo c' .identifier []] c'
  | pathMember {n c p c₁ c₂ c'} : Derives n .path c [p] c₁ → c₁.Takes .dot c₂ →
      c₂.Takes .ident c' →
      Derives n .path c [c.nodeTo c' .propertyAccess [p, c₂.nodeTo c' .identifier []]] c'
  | operand {n c e c'} : Derives n .primary c [e] c' → Derives n .operand c [e] c'
  | member {n c e c₁ c₂ c'} : Derives n .operand c [e] c₁ → c₁.Takes .dot c₂ →
      c₂.Takes .ident c' →
      Derives n .operand c [c.nodeTo c' .propertyAccess [e, c₂.nodeTo c' .identifier []]] c'
  | call {n c e c₁ c₂ args c'} : Derives n .operand c [e] c₁ → c₁.Takes .leftParen c₂ →
      Derives n (.list .expression .rightParen) c₂ args c' →
      Derives n .operand c [c.nodeTo c' .callExpression (e :: args)] c'
  | sign {n c t c₁ e c'} : c.Takes t c₁ → isPrefixOperator t = true →
      Derives n .unary c₁ [e] c' →
      Derives (n + 1) .unary c
        [c.nodeTo c' .prefixUnary [c.nodeTo c₁ (.operator (some t)) [], e]] c'
  | unsigned {n c e c'} : (∀ t, c.peek? = some t → isPrefixOperator t = false) →
      Derives n .operand c [e] c' → c'.peek? ≠ some .dot → c'.peek? ≠ some .leftParen →
      Derives (n + 1) .unary c [e] c'
  | chainStart {n c e c'} : Derives n .unary c [e] c' → Derives n .chain c [e] c'
  | chainStep {n c vs c₁ t p c₂ e c'} : Derives n .chain c vs c₁ → c₁.Takes t c₂ →
      t.precedence? = some p → Derives n .unary c₂ [e] c' →
      Derives n .chain c (e :: c₁.nodeTo c₂ (.operator (some t)) [] :: vs) c'
  | binary {n c vs c'} : Derives n .chain c vs c' →
      (∀ t, c'.peek? = some t → t.precedence? = none) → c'.peek? ≠ some .assign →
      Derives (n + 1) .expression c [(chainOf vs).toAst] c'
  | assign {n c vs c₁ c₂ e c'} : Derives n .chain c vs c₁ → c₁.Takes .assign c₂ →
      Derives n .expression c₂ [e] c' →
      Derives (n + 1) .expression c
        [c.nodeTo c' .binaryExpression
          [(chainOf vs).toAst, c₁.nodeTo c₂ (.operator (some .assign)) [], e]] c'
  | property {n c t k c₁ c₂ e c'} : c.Takes t c₁ → propertyNames.lookup t = some k →
      c₁.Takes .colon c₂ → Derives n .expression c₂ [e] c' →
      Derives n .property c [c.nodeTo c' .propertyAssignment [c.nodeTo c₁ k [], e]] c'
  | parameter {n c c'} : c.Takes .ident c' →
      Derives n .parameter c [c.nodeTo c' .parameter [c.nodeTo c' .identifier []]] c'
  | listEnd {n item close c c'} : close ∈ closers → c.Takes close c' →
      Derives n (.list item close) c [] c'
  | listLast {n item close c v c₁ c'} : close ∈ closers → c.peek? ≠ some close →
      Derives n item.symbol c [v] c₁ → c₁.Takes close c' → Derives n (.list item close) c [v] c'
  | listMore {n item close c v c₁ c₂ vs c'} : c.peek? ≠ some close →
      Derives n item.symbol c [v] c₁ → c₁.Takes .comma c₂ →
      Derives n (.list item close) c₂ vs c' → Derives n (.list item close) c (v :: vs) c'
  | declared {n c c'} : c.Takes .ident c' → c'.peek? ≠ some .assign →
      Derives n .declaration c
        [c.nodeTo c' .variableDeclaration [c.nodeTo c' .identifier []]] c'
  | initialized {n c c₁ c₂ e c'} : c.Takes .ident c₁ → c₁.Takes .assign c₂ →
      Derives n .expression c₂ [e] c' →
      Derives n .declaration c
        [c.nodeTo c' .variableDeclaration [c.nodeTo c₁ .identifier [], e]] c'
  | lastDeclaration {n c d c'} : Derives n .declaration c [d] c' → c'.peek? ≠ some .comma →
      Derives n .declarations c [d] c'
  | moreDeclarations {n c d c₁ c₂ ds c'} : Derives n .declaration c [d] c₁ →
      c₁.Takes .comma c₂ → Derives n .declarations c₂ ds c' →
      Derives n .declarations c (d :: ds) c'
  | noStatement {n c c'} : c.Takes .rightBrace c' → Derives n .statements c [] c'
  | moreStatements {n c s c₁ ss c'} : c.peek? ≠ some .rightBrace →
      Derives n .statement c [s] c₁ → Derives n .statements c₁ ss c' →
      Derives n .statements c (s :: ss) c'
  | empty {n c c'} : c.Takes .semicolon c' →
      Derives (n + 1) .statement c [c.nodeTo c' .emptyStatement []] c'
  | block {n c c₁ ss c'} : c.Takes .leftBrace c₁ → Derives n .statements c₁ ss c' →
      Derives (n + 1) .statement c [c.nodeTo c' .block ss] c'
  | variableStatement {n c keyword c₁ ds c₂ c'} : keyword ∈ variableKeywords → c.Takes keyword c₁ →
      Derives n .declarations c₁ ds c₂ → c₂.Skips .semicolon c' →
      Derives (n + 1) .statement c [c.nodeTo c' .variableStatement ds] c'
  | ifThen {n c c₁ c₂ e c₃ c₄ s c'} : c.Takes .ifKeyword c₁ → c₁.Takes .leftParen c₂ →
      Derives n .expression c₂ [e] c₃ → c₃.Takes .rightParen c₄ →
      Derives n .statement c₄ [s] c' → c'.peek? ≠ some .elseKeyword →
      Derives (n + 1) .statement c [c.nodeTo c' .ifStatement [e, s]] c'
  | ifElse {n c c₁ c₂ e c₃ c₄ s c₅ c₆ s' c'} : c.Takes .ifKeyword c₁ →
      c₁.Takes .leftParen c₂ → Derives n .expression c₂ [e] c₃ → c₃.Takes .rightParen c₄ →
      Derives n .statement c₄ [s] c₅ → c₅.Takes .elseKeyword c₆ →
      Derives n .statement c₆ [s'] c' →
      Derives (n + 1) .statement c [c.nodeTo c' .ifStatement [e, s, s']] c'
  | whileDo {n c c₁ c₂ e c₃ c₄ s c'} : c.Takes .whileKeyword c₁ → c₁.Takes .leftParen c₂ →
      Derives n .expression c₂ [e] c₃ → c₃.Takes .rightParen c₄ →
      Derives n .statement c₄ [s] c' →
      Derives (n + 1) .statement c [c.nodeTo c' .whileStatement [e, s]] c'
  | returnNothing {n c c₁ c'} : c.Takes .returnKeyword c₁ → endsReturn c₁.peek? →
      c₁.Skips .semicolon c' →
      Derives (n + 1) .statement c [c.nodeTo c' .returnStatement []] c'
  | returnValue {n c c₁ e c₂ c'} : c.Takes .returnKeyword c₁ → ¬ endsReturn c₁.peek? →
      Derives n .expression c₁ [e] c₂ → c₂.Skips .semicolon c' →
      Derives (n + 1) .statement c [c.nodeTo c' .returnStatement [e]] c'
  | function {n c c₁ c₂ c₃ ps c₄ c₅ ss c'} : c.Takes .functionKeyword c₁ →
      c₁.Takes .ident c₂ → c₂.Takes .leftParen c₃ →
      Derives n (.list .parameter .rightParen) c₃ ps c₄ → c₄.Takes .leftBrace c₅ →
      Derives n .statements c₅ ss c' →
      Derives (n + 1) .statement c
        [c.nodeTo c' .functionDeclaration
          (c₁.nodeTo c₂ .identifier [] :: ps ++ [c₄.nodeTo c' .block ss])] c'
  | expressionStatement {n c t e c₁ c'} : c.peek? = some t → beginsStatement t = false →
      Derives n .expression c [e] c₁ → c₁.Skips .semicolon c' →
      Derives (n + 1) .statement c [c.nodeTo c' .expressionStatement [e]] c'

/-- Statements up to the end of the tokens. -/
inductive DerivesAll (n : Nat) : Cursor → List Ast → Prop
  | nil {c} : c.rest = [] → DerivesAll n c []
  | cons {c s c' ss} : Derives n .statement c [s] c' → DerivesAll n c' ss →
      DerivesAll n c (s :: ss)

variable {n : Nat} {c c' m : Cursor} {v b : Ast} {vs : List Ast}

/-- Each of the statements up to the end is derived as one. -/
theorem DerivesAll.forall_mem {P : Ast → Prop} (h : DerivesAll n c vs)
    (hstatement : ∀ {c v c'}, Derives n .statement c [v] c' → P v) : ∀ v ∈ vs, P v := by
  induction h with
  | nil => exact List.forall_mem_nil _
  | cons hs _ ih => exact List.forall_mem_cons.mpr ⟨hstatement hs, ih⟩

/-! ### From parsers to derivations -/

/-- The parser of an item. -/
def Item.parser (inner : Nested) : Item → Parser Ast
  | expression => inner.expression
  | property => propertyAssignment inner
  | parameter => Script.parameter

/-- What the parsers of a level read is derived. -/
structure Sound (n : Nat) : Prop where
  statement : ∀ {c v c'}, (nested n).statement.Yields c v c' → Derives n .statement c [v] c'
  expression : ∀ {c v c'}, (nested n).expression.Yields c v c' → Derives n .expression c [v] c'
  unary : ∀ {c v c'}, (nested n).unary.Yields c v c' → Derives n .unary c [v] c'

/-- What is read after the start of a path extends it. -/
theorem derives_of_memberPath (hb : Derives n .path c [b] m)
    (h : Continues (memberPath (c := c)) b m v c') :
    Derives n .path c [v] c' ∧ c'.peek? ≠ some .dot := by
  -- The loop gets on by two tokens each time.
  induction hlength : m.rest.length using Nat.strongRecOn generalizing b m with
  | _ length ih =>
    subst hlength
    obtain ⟨-, ⟨hdot, rfl, rfl⟩ | ⟨c₁, c₂, hdot, hname, hmore⟩⟩ := continues_memberPath.mp h
    · exact ⟨hb, hdot⟩
    · have hshort := Nat.lt_trans hname.shorter hdot.shorter
      exact ih _ hshort (.pathMember hb hdot hname) hmore rfl

namespace Sound

variable (hn : Sound n)

include hn

/-- An item of a list is derived as what it is. -/
theorem item {i : Item} (h : (i.parser (nested n)).Yields c v c') :
    Derives n i.symbol c [v] c' := by
  cases i with
  | expression => exact hn.expression h
  | property =>
    obtain ⟨t, k, c₁, c₂, e, hname, hk, hcolon, he, rfl⟩ := yields_propertyAssignment.mp h
    exact .property hname hk hcolon (hn.expression he)
  | parameter =>
    obtain ⟨hname, rfl⟩ := yields_parameter.mp h
    exact .parameter hname

/-- A list up to a token that closes it is derived as a list of its items. -/
theorem list {i : Item} {close : Token} (hclose : close ∈ closers)
    (h : Yields (commaItemsUntil close (i.parser (nested n))) c vs c') :
    Derives n (.list i close) c vs c' := by
  induction hlength : c.rest.length using Nat.strongRecOn generalizing c vs with
  | _ length ih =>
    subst hlength
    rcases yields_commaItemsUntil.mp h with ⟨ht, rfl⟩ | ⟨hpeek, v, m, hitem, hmore⟩
    · exact .listEnd hclose ht
    · rcases hmore with ⟨-, ht, rfl⟩ | ⟨m', rest, hcomma, hrest, rfl⟩
      · exact .listLast hclose hpeek (hn.item hitem) ht
      · have hshort := Nat.lt_trans hcomma.shorter hitem.shorter
        exact .listMore hpeek (hn.item hitem) hcomma (ih _ hshort hrest rfl)

/-- Arguments are a list behind their parenthesis. -/
theorem arguments (h : (arguments (nested n)).Yields c vs c') :
    ∃ c₁, c.Takes .leftParen c₁ ∧ Derives n (.list .expression .rightParen) c₁ vs c' := by
  obtain ⟨c₁, hparen, hargs⟩ := yields_arguments.mp h
  exact ⟨c₁, hparen, hn.list (i := .expression) (by decide) hargs⟩

/-- A primary expression is derived as the one its first token says. -/
theorem primary (h : (primary (nested n)).Yields c v c') : Derives n .primary c [v] c' := by
  cases yields_primary.mp h with
  | atom ht hk => exact .atom ht hk
  | parenthesized h =>
    obtain ⟨c₁, e, c₂, hopen, he, hclose, rfl⟩ := yields_parenthesized.mp h
    exact .parenthesized hopen (hn.expression he) hclose
  | object h =>
    obtain ⟨c₁, ps, hopen, hps, rfl⟩ := yields_objectLiteral.mp h
    exact .object hopen (hn.list (i := .property) (by decide) hps)
  | array h =>
    obtain ⟨c₁, es, hopen, hes, rfl⟩ := yields_arrayLiteral.mp h
    exact .array hopen (hn.list (i := .expression) (by decide) hes)
  | construction h =>
    obtain ⟨c₁, c₂, callee, c₃, hnew, hname, hpath, hargs⟩ := yields_newExpression.mp h
    obtain ⟨hcallee, hdot⟩ := derives_of_memberPath (n := n) (.pathName hname) hpath
    rcases hargs with ⟨hparen, rfl, rfl⟩ | ⟨args, hargs, rfl⟩
    · exact .newPlain hnew hcallee hdot hparen
    · obtain ⟨c₄, hparen, hargs⟩ := hn.arguments hargs
      exact .newCall hnew hcallee hparen hargs

/-- What is read after an operand extends it, by induction on the tokens left. -/
theorem operand (hb : Derives n .operand c [b] m)
    (h : Continues (postfixFrom (nested n) (c := c)) b m v c') :
    Derives n .operand c [v] c' ∧ c'.peek? ≠ some .dot ∧ c'.peek? ≠ some .leftParen := by
  induction hlength : m.rest.length using Nat.strongRecOn generalizing b m with
  | _ length ih =>
    subst hlength
    obtain ⟨-, ⟨hdot, hparen, rfl, rfl⟩ | ⟨c₁, c₂, hdot, hname, hmore⟩
      | ⟨args, c₂, hargs, hmore⟩⟩ := continues_postfixFrom.mp h
    · exact ⟨hb, hdot, hparen⟩
    · have hshort := Nat.lt_trans hname.shorter hdot.shorter
      exact ih _ hshort (.member hb hdot hname) hmore rfl
    · obtain ⟨c₁, hparen, hlist⟩ := hn.arguments hargs
      exact ih _ hargs.shorter (.call hb hparen hlist) hmore rfl

/-- What is read after a chain extends it by an operator and an operand at a time. -/
theorem chain {ch : Chain} (hvs : Derives n .chain c vs m)
    (h : Continues (chainFrom (nested n) (c := c)) (chainOf vs) m ch c') :
    ∃ ws, Derives n .chain c ws c' ∧ ch = chainOf ws
      ∧ ∀ t, c'.peek? = some t → t.precedence? = none := by
  induction hlength : m.rest.length using Nat.strongRecOn generalizing vs m with
  | _ length ih =>
    subst hlength
    obtain ⟨-, ⟨hpeek, rfl, rfl⟩ | ⟨t, p, c₁, e, c₂, ht, hp, he, hmore⟩⟩ :=
      continues_chainFrom.mp h
    · exact ⟨vs, hvs, rfl, hpeek⟩
    · have hshort := Nat.lt_trans he.shorter ht.shorter
      have hprecedence : precedenceOf (m.nodeTo c₁ (.operator (some t)) []) = p := by
        show t.precedence?.getD 0 = p
        rw [hp]
        rfl
      refine ih _ hshort (.chainStep hvs ht hp (hn.unary he)) ?_ rfl
      rw [chainOf, hprecedence]
      exact hmore

/-- A binary expression is a chain put together, which no operator goes on with. -/
theorem binary (h : (binaryExpression (nested n)).Yields c v c') :
    ∃ vs, Derives n .chain c vs c' ∧ v = (chainOf vs).toAst
      ∧ ∀ t, c'.peek? = some t → t.precedence? = none := by
  obtain ⟨e, m, ch, he, hloop, rfl⟩ := yields_binaryExpression.mp h
  obtain ⟨vs, hvs, rfl, hpeek⟩ := hn.chain (.chainStart (hn.unary he)) hloop
  exact ⟨vs, hvs, rfl, hpeek⟩

/-- Statements up to a brace are derived one by one. -/
theorem statements (h : Yields (itemsUntil .rightBrace (nested n).statement) c vs c') :
    Derives n .statements c vs c' := by
  induction hlength : c.rest.length using Nat.strongRecOn generalizing c vs with
  | _ length ih =>
    subst hlength
    rcases yields_itemsUntil.mp h with ⟨hclose, rfl⟩ | ⟨hpeek, v, m, rest, hv, hrest, rfl⟩
    · exact .noStatement hclose
    · exact .moreStatements hpeek (hn.statement hv) (ih _ hv.shorter hrest rfl)

/-- A block is statements behind its brace. -/
theorem block (h : (block (nested n)).Yields c v c') :
    ∃ c₁ ss, c.Takes .leftBrace c₁ ∧ Derives n .statements c₁ ss c'
      ∧ v = c.nodeTo c' .block ss := by
  obtain ⟨c₁, ss, hopen, hss, rfl⟩ := yields_block.mp h
  exact ⟨c₁, ss, hopen, hn.statements hss, rfl⟩

/-- A declaration has a value or has none. -/
theorem declaration (h : (variableDeclaration (nested n)).Yields c v c') :
    Derives n .declaration c [v] c' := by
  rcases yields_variableDeclaration.mp h with
    ⟨hname, hpeek, rfl⟩ | ⟨c₁, c₂, e, hname, hassign, he, rfl⟩
  · exact .declared hname hpeek
  · exact .initialized hname hassign (hn.expression he)

/-- Declarations are derived one by one, with commas in between. -/
theorem declarations (h : Yields (commaItems (variableDeclaration (nested n))) c vs c') :
    Derives n .declarations c vs c' := by
  induction hlength : c.rest.length using Nat.strongRecOn generalizing c vs with
  | _ length ih =>
    subst hlength
    obtain ⟨v, m, hv, ⟨hpeek, rfl, rfl⟩ | ⟨m', rest, hcomma, hrest, rfl⟩⟩ := yields_commaItems.mp h
    · exact .lastDeclaration (hn.declaration hv) hpeek
    · have hshort := Nat.lt_trans hcomma.shorter hv.shorter
      exact .moreDeclarations (hn.declaration hv) hcomma (ih _ hshort hrest rfl)

/-- A condition and the statement under it. -/
theorem conditional {keyword : Token} (h : (conditional (nested n) keyword).Yields c vs c') :
    ∃ c₁ c₂ e c₃ c₄ s, c.Takes keyword c₁ ∧ c₁.Takes .leftParen c₂
      ∧ Derives n .expression c₂ [e] c₃ ∧ c₃.Takes .rightParen c₄
      ∧ Derives n .statement c₄ [s] c' ∧ vs = [e, s] := by
  obtain ⟨c₁, c₂, e, c₃, c₄, s, hkeyword, hopen, he, hclose, hs, rfl⟩ := yields_conditional.mp h
  exact ⟨c₁, c₂, e, c₃, c₄, s, hkeyword, hopen, hn.expression he, hclose, hn.statement hs, rfl⟩

/-- A statement is derived one level above what stands in it. -/
theorem statementOf (h : (statementOf (nested n)).Yields c v c') :
    Derives (n + 1) .statement c [v] c' := by
  cases yields_statementOf.mp h with
  | empty ht => exact .empty ht
  | block h =>
    obtain ⟨c₁, ss, hopen, hss, rfl⟩ := hn.block h
    exact .block hopen hss
  | declaration hkeyword h =>
    obtain ⟨c₁, ds, c₂, ht, hds, hskip, rfl⟩ := yields_variableStatement.mp h
    exact .variableStatement hkeyword ht (hn.declarations hds) hskip
  | choice h =>
    rcases yields_ifStatement.mp h with ⟨hcond, hpeek, hv⟩ | ⟨es, m, c₁, s', hcond, helse, hs', rfl⟩
    · obtain ⟨c₁, c₂, e, c₃, c₄, s, ht, hopen, he, hclose, hs, hes⟩ := hn.conditional hcond
      rw [hes] at hv
      subst hv
      exact .ifThen ht hopen he hclose hs hpeek
    · obtain ⟨c₁, c₂, e, c₃, c₄, s, ht, hopen, he, hclose, hs, rfl⟩ := hn.conditional hcond
      exact .ifElse ht hopen he hclose hs helse (hn.statement hs')
  | loop h =>
    obtain ⟨es, hcond, rfl⟩ := yields_whileStatement.mp h
    obtain ⟨c₁, c₂, e, c₃, c₄, s, ht, hopen, he, hclose, hs, rfl⟩ := hn.conditional hcond
    exact .whileDo ht hopen he hclose hs
  | result h =>
    rcases yields_returnStatement.mp h with
      ⟨c₁, ht, hends, hskip, rfl⟩ | ⟨c₁, e, c₂, ht, hends, he, hskip, rfl⟩
    · exact .returnNothing ht hends hskip
    · exact .returnValue ht hends (hn.expression he) hskip
  | function h =>
    obtain ⟨c₁, c₂, c₃, ps, c₄, b, ht, hname, hopen, hps, hbody, rfl⟩ :=
      yields_functionDeclaration.mp h
    obtain ⟨c₅, ss, hbrace, hss, rfl⟩ := hn.block hbody
    exact .function ht hname hopen (hn.list (i := .parameter) (by decide) hps) hbrace hss
  | expression ht hbegins h =>
    obtain ⟨e, m, he, hskip, rfl⟩ := yields_expressionStatement.mp h
    exact .expressionStatement ht hbegins (hn.expression he) hskip

/-- An expression is derived one level above what stands in it. -/
theorem assignment (h : (assignment (nested n)).Yields c v c') :
    Derives (n + 1) .expression c [v] c' := by
  rcases yields_assignment.mp h with
    ⟨hbinary, hpeek⟩ | ⟨target, m, c₁, e, hbinary, hassign, he, rfl⟩
  · obtain ⟨vs, hvs, rfl, hprecedence⟩ := hn.binary hbinary
    exact .binary hvs hprecedence hpeek
  · obtain ⟨vs, hvs, rfl, -⟩ := hn.binary hbinary
    exact .assign hvs hassign (hn.expression he)

/-- An operand with operators in front is derived one level above what they precede. -/
theorem unaryExpression (h : (unaryExpression (nested n)).Yields c v c') :
    Derives (n + 1) .unary c [v] c' := by
  rcases yields_unaryExpression.mp h with ⟨t, c₁, e, ht, hsign, he, rfl⟩ | ⟨hpeek, h⟩
  · exact .sign ht hsign (hn.unary he)
  · obtain ⟨b, m, hb, hloop⟩ := yields_postfixExpression.mp h
    obtain ⟨hv, hdot, hparen⟩ := hn.operand (.operand (hn.primary hb)) hloop
    exact .unsigned hpeek hv hdot hparen

end Sound

/-- **Soundness.** At every level, what the parsers read is derived. -/
theorem sound (n : Nat) : Sound n := by
  induction n with
  | zero =>
    -- With no level left the parsers refuse.
    refine ⟨?_, ?_, ?_⟩ <;>
    · rintro c v c' ⟨h', h⟩
      cases h
  | succ n ih => exact ⟨ih.statementOf, ih.assignment, ih.unaryExpression⟩

/-! ### From derivations to parsers -/

/-- What may be skipped leaves no more tokens. -/
theorem Cursor.Skips.le {t : Token} (h : c.Skips t c') : c'.rest.length ≤ c.rest.length := by
  rcases h with h | ⟨-, rfl⟩
  · exact Nat.le_of_lt h.shorter
  · exact Nat.le_refl _

/-- What is derived takes at least one token. -/
theorem Derives.shorter {σ : Symbol} (h : Derives n σ c vs c') :
    c'.rest.length < c.rest.length := by
  induction h with
  | _ => grind [→ Cursor.Takes.shorter, → Cursor.Skips.le]

/-- What the parsers of level `n` read from `c` up to `c'`.  Of a path, an operand or a chain,
    which may go on, they read whatever the loop that reads it makes of it from there. -/
def Reads (n : Nat) (c c' : Cursor) : Symbol → List Ast → Prop
  | .statement, [v] => (nested n).statement.Yields c v c'
  | .statements, vs => Yields (itemsUntil .rightBrace (nested n).statement) c vs c'
  | .declaration, [v] => (variableDeclaration (nested n)).Yields c v c'
  | .declarations, vs => Yields (commaItems (variableDeclaration (nested n))) c vs c'
  | .expression, [v] => (nested n).expression.Yields c v c'
  | .chain, vs => ∀ ch c'', Continues (chainFrom (nested n) (c := c)) (chainOf vs) c' ch c'' →
      (binaryExpression (nested n)).Yields c ch.toAst c''
  | .unary, [v] => (nested n).unary.Yields c v c'
  | .operand, [v] => ∀ v' c'', Continues (postfixFrom (nested n) (c := c)) v c' v' c'' →
      (postfixExpression (nested n)).Yields c v' c''
  | .primary, [v] => (primary (nested n)).Yields c v c'
  | .path, [v] => ∃ m, c.Takes .ident m ∧ ∀ v' c'', Continues (memberPath (c := c)) v c' v' c'' →
      Continues (memberPath (c := c)) (c.nodeTo m .identifier []) m v' c''
  | .property, [v] => (propertyAssignment (nested n)).Yields c v c'
  | .parameter, [v] => parameter.Yields c v c'
  | .list item close, vs => Yields (commaItemsUntil close (item.parser (nested n))) c vs c'
  | _, _ => False

/-- An item of a list that can be derived is parsed. -/
theorem yields_of_reads_item {i : Item} (h : Reads n c c' i.symbol [v]) :
    (i.parser (nested n)).Yields c v c' := by
  cases i with
  | _ => exact h

/-- **Completeness.** What is derived is read. -/
theorem reads_of_derives {σ : Symbol} (h : Derives n σ c vs c') : Reads n c c' σ vs := by
  -- For the rules that make up a loop, what is proved is that the loop goes on: whatever it reads
  -- from here on, it reads from its beginning.
  induction h with
  | atom ht hk => exact yields_primary.mpr (.atom ht hk)
  | parenthesized hopen _ hclose he =>
    refine yields_primary.mpr (.parenthesized (yields_parenthesized.mpr ?_))
    exact ⟨_, _, _, hopen, he, hclose, rfl⟩
  | object hopen _ hps =>
    exact yields_primary.mpr (.object (yields_objectLiteral.mpr ⟨_, _, hopen, hps, rfl⟩))
  | array hopen _ hes =>
    exact yields_primary.mpr (.array (yields_arrayLiteral.mpr ⟨_, _, hopen, hes, rfl⟩))
  | newPlain hnew hp hdot hparen hpath =>
    obtain ⟨m, hname, hloop⟩ := hpath
    have hcallee := hloop _ _ (continues_memberPath.mpr ⟨hp.shorter, .inl ⟨hdot, rfl, rfl⟩⟩)
    refine yields_primary.mpr (.construction (yields_newExpression.mpr ?_))
    exact ⟨_, _, _, _, hnew, hname, hcallee, .inl ⟨hparen, rfl, rfl⟩⟩
  | newCall hnew hp hparen _ hpath hargs =>
    obtain ⟨m, hname, hloop⟩ := hpath
    have hdot := hparen.peek?_ne (u := .dot) (by decide)
    have hcallee := hloop _ _ (continues_memberPath.mpr ⟨hp.shorter, .inl ⟨hdot, rfl, rfl⟩⟩)
    have hargs := yields_arguments.mpr ⟨_, hparen, hargs⟩
    refine yields_primary.mpr (.construction (yields_newExpression.mpr ?_))
    exact ⟨_, _, _, _, hnew, hname, hcallee, .inr ⟨_, hargs, rfl⟩⟩
  | pathName hname => exact ⟨_, hname, fun _ _ h => h⟩
  | pathMember hp hdot hname hpath =>
    obtain ⟨m, hfirst, hloop⟩ := hpath
    refine ⟨m, hfirst, fun v' c'' hmore => hloop _ _ ?_⟩
    exact continues_memberPath.mpr ⟨hp.shorter, .inr ⟨_, _, hdot, hname, hmore⟩⟩
  | operand _ he =>
    intro v' c'' hmore
    exact yields_postfixExpression.mpr ⟨_, _, he, hmore⟩
  | member hb hdot hname hloop =>
    intro v' c'' hmore
    exact hloop _ _ (continues_postfixFrom.mpr ⟨hb.shorter, .inr (.inl ⟨_, _, hdot, hname, hmore⟩)⟩)
  | call hb hparen _ hloop hargs =>
    intro v' c'' hmore
    exact hloop _ _ (continues_postfixFrom.mpr
      ⟨hb.shorter, .inr (.inr ⟨_, _, yields_arguments.mpr ⟨_, hparen, hargs⟩, hmore⟩)⟩)
  | sign ht hsign _ he => exact yields_unaryExpression.mpr (.inl ⟨_, _, _, ht, hsign, he, rfl⟩)
  | unsigned hpeek hb hdot hparen hloop =>
    refine yields_unaryExpression.mpr (.inr ⟨hpeek, hloop _ _ ?_⟩)
    exact continues_postfixFrom.mpr ⟨hb.shorter, .inl ⟨hdot, hparen, rfl, rfl⟩⟩
  | chainStart _ he =>
    intro ch c'' hmore
    exact yields_binaryExpression.mpr ⟨_, _, _, he, hmore, rfl⟩
  | @chainStep n c vs c₁ t p c₂ e c' hvs ht hp _ hloop he =>
    intro ch c'' hmore
    have hprecedence : precedenceOf (c₁.nodeTo c₂ (.operator (some t)) []) = p := by
      show t.precedence?.getD 0 = p
      rw [hp]
      rfl
    rw [chainOf, hprecedence] at hmore
    exact hloop _ _ (continues_chainFrom.mpr
      ⟨hvs.shorter, .inr ⟨_, _, _, _, _, ht, hp, he, hmore⟩⟩)
  | binary hvs hpeek hassign hloop =>
    refine yields_assignment.mpr (.inl ⟨hloop _ _ ?_, hassign⟩)
    exact continues_chainFrom.mpr ⟨hvs.shorter, .inl ⟨hpeek, rfl, rfl⟩⟩
  | @assign n c vs c₁ c₂ e c' hvs hassign _ hloop he =>
    have hpeek : ∀ t, c₁.peek? = some t → t.precedence? = none := by
      intro t ht
      rw [hassign.peek?] at ht
      cases ht
      rfl
    refine yields_assignment.mpr (.inr ⟨_, c₁, c₂, e, hloop _ _ ?_, hassign, he, rfl⟩)
    exact continues_chainFrom.mpr ⟨hvs.shorter, .inl ⟨hpeek, rfl, rfl⟩⟩
  | property hname hk hcolon _ he =>
    exact yields_propertyAssignment.mpr ⟨_, _, _, _, _, hname, hk, hcolon, he, rfl⟩
  | parameter hname => exact yields_parameter.mpr ⟨hname, rfl⟩
  | listEnd _ ht => exact yields_commaItemsUntil.mpr (.inl ⟨ht, rfl⟩)
  | listLast hclose hpeek _ ht hv =>
    have hcomma := ht.peek?_ne (u := .comma) (ne_of_mem_of_not_mem hclose (by decide))
    exact yields_commaItemsUntil.mpr
      (.inr ⟨hpeek, _, _, yields_of_reads_item hv, .inl ⟨hcomma, ht, rfl⟩⟩)
  | listMore hpeek _ hcomma _ hv hvs =>
    exact yields_commaItemsUntil.mpr
      (.inr ⟨hpeek, _, _, yields_of_reads_item hv, .inr ⟨_, _, hcomma, hvs, rfl⟩⟩)
  | declared hname hpeek => exact yields_variableDeclaration.mpr (.inl ⟨hname, hpeek, rfl⟩)
  | initialized hname hassign _ he =>
    exact yields_variableDeclaration.mpr (.inr ⟨_, _, _, hname, hassign, he, rfl⟩)
  | lastDeclaration _ hpeek hd =>
    exact yields_commaItems.mpr ⟨_, _, hd, .inl ⟨hpeek, rfl, rfl⟩⟩
  | moreDeclarations _ hcomma _ hd hds =>
    exact yields_commaItems.mpr ⟨_, _, hd, .inr ⟨_, _, hcomma, hds, rfl⟩⟩
  | noStatement hclose => exact yields_itemsUntil.mpr (.inl ⟨hclose, rfl⟩)
  | moreStatements hpeek _ _ hs hss =>
    exact yields_itemsUntil.mpr (.inr ⟨hpeek, _, _, _, hs, hss, rfl⟩)
  | empty ht => exact yields_statementOf.mpr (.empty ht)
  | block hopen _ hss =>
    exact yields_statementOf.mpr (.block (yields_block.mpr ⟨_, _, hopen, hss, rfl⟩))
  | variableStatement hkeyword ht _ hskip hds =>
    refine yields_statementOf.mpr (.declaration hkeyword (yields_variableStatement.mpr ?_))
    exact ⟨_, _, _, ht, hds, hskip, rfl⟩
  | ifThen ht hopen _ hclose _ hpeek he hs =>
    have hcond := yields_conditional.mpr ⟨_, _, _, _, _, _, ht, hopen, he, hclose, hs, rfl⟩
    refine yields_statementOf.mpr (.choice (yields_ifStatement.mpr (.inl ?_)))
    exact ⟨hcond, hpeek, rfl⟩
  | ifElse ht hopen _ hclose _ helse _ he hs hs' =>
    have hcond := yields_conditional.mpr ⟨_, _, _, _, _, _, ht, hopen, he, hclose, hs, rfl⟩
    refine yields_statementOf.mpr (.choice (yields_ifStatement.mpr (.inr ?_)))
    exact ⟨_, _, _, _, hcond, helse, hs', rfl⟩
  | whileDo ht hopen _ hclose _ he hs =>
    have hcond := yields_conditional.mpr ⟨_, _, _, _, _, _, ht, hopen, he, hclose, hs, rfl⟩
    exact yields_statementOf.mpr (.loop (yields_whileStatement.mpr ⟨_, hcond, rfl⟩))
  | returnNothing ht hends hskip =>
    refine yields_statementOf.mpr (.result (yields_returnStatement.mpr (.inl ?_)))
    exact ⟨_, ht, hends, hskip, rfl⟩
  | returnValue ht hends _ hskip he =>
    refine yields_statementOf.mpr (.result (yields_returnStatement.mpr (.inr ?_)))
    exact ⟨_, _, _, ht, hends, he, hskip, rfl⟩
  | function ht hname hopen _ hbrace _ hps hss =>
    have hbody := yields_block.mpr ⟨_, _, hbrace, hss, rfl⟩
    refine yields_statementOf.mpr (.function (yields_functionDeclaration.mpr ?_))
    exact ⟨_, _, _, _, _, _, ht, hname, hopen, hps, hbody, rfl⟩
  | expressionStatement ht hbegins _ hskip he =>
    refine yields_statementOf.mpr (.expression ht hbegins (yields_expressionStatement.mpr ?_))
    exact ⟨_, _, he, hskip, rfl⟩

/-! ### Sources -/

/-- The statements of a source are what can be derived of its tokens. -/
theorem itemsToEnd_iff_derivesAll :
    itemsToEnd (nested n).statement c = .ok vs ↔ DerivesAll n c vs := by
  constructor
  · intro h
    induction hlength : c.rest.length using Nat.strongRecOn generalizing c vs with
    | _ length ih =>
      subst hlength
      rcases itemsToEnd_eq_ok.mp h with ⟨hend, rfl⟩ | ⟨-, v, m, rest, hv, hrest, rfl⟩
      · exact .nil hend
      · exact .cons ((sound n).statement hv) (ih _ hv.shorter hrest rfl)
  · intro h
    induction h with
    | nil hend => exact itemsToEnd_eq_ok.mpr (.inl ⟨hend, rfl⟩)
    | @cons c s c' ss hs _ ih =>
      have hne : c.rest ≠ [] := by
        intro hend
        have hshort := hs.shorter
        rw [hend] at hshort
        exact Nat.not_lt_zero _ hshort
      exact itemsToEnd_eq_ok.mpr (.inr ⟨hne, s, c', ss, reads_of_derives hs, ih, rfl⟩)

/-- The root of the tree of a source. -/
def rootOf (size : Nat) (lexemes : List Lexeme) (statements : List Ast) : Ast where
  kind := .sourceFile
  fullStart := 0
  start := (lexemes.head?.map (·.start)).getD size
  stop := size
  children := statements

/-- **The grammar of a source.** A source parses exactly if its tokens are statements, and its
    tree is made of theirs. -/
theorem parse_eq_ok {source : String} {root : Ast} :
    parse source = .ok root
      ↔ ∃ lexemes ss, lex source = .ok lexemes ∧ DerivesAll maxNesting { rest := lexemes } ss
        ∧ root = rootOf source.utf8ByteSize lexemes ss := by
  constructor
  · intro h
    obtain ⟨lexemes, hlex, h⟩ := bind_eq_ok.mp h
    obtain ⟨ss, hss, h⟩ := bind_eq_ok.mp h
    cases h
    exact ⟨lexemes, ss, hlex, itemsToEnd_iff_derivesAll.mp hss, rfl⟩
  · rintro ⟨lexemes, ss, hlex, hss, rfl⟩
    exact bind_eq_ok.mpr ⟨_, hlex, bind_eq_ok.mpr ⟨_, itemsToEnd_iff_derivesAll.mpr hss, rfl⟩⟩

end Transcode.Script
