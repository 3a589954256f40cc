import Transcode.Proofs.Agreement

namespace Transcode.Script.Indexed

open Transcode.Script.Parser

/-!
# The parts of the grammar, by index

One lemma for each part of the grammar: the machine agrees with it, as long as what is called again
does (`Ready`).  Most parts call again only after a token has been taken, so they agree wherever no
more than `r` tokens are left if what is called again does wherever fewer are left.  That is the
induction of `ready_again`.  The loops of the machine go round as often as those of the grammar, by
induction on the rounds.

Only operators are read in another way than the grammar reads them: the machine calls itself for
what binds tighter, while the grammar grows a chain (`agrees_climb`).
-/

variable {α : Type} {tokens : List Lexeme} {guard : NestingGuard} {pos first : Nat}

/-- A parameter is an identifier for both, and calls nothing again. -/
theorem agrees_parameter : Agrees tokens guard (parameter tokens) pos
    (outcome (Script.parameter (cursor tokens pos))) := by
  unfold parameter Script.parameter Parser.node Parser.map
  rw [agrees_here_bind, bind_assoc]
  refine (agrees_leaf _ _).bind fun name pos' _ _ hle => ?_
  exact agrees_finish .parameter [name] hle

section

variable {again : Again} {r : Nat} (hagain : Ready tokens again r) (hr : tokens.length ≤ pos + r)

include hagain hr

/-! ### Expressions -/

/-- Arguments: each of them is an expression behind a token taken. -/
theorem agrees_arguments : Agrees tokens guard (arguments tokens again) pos
    (outcome (Script.arguments (levelsAt guard) (cursor tokens pos))) := by
  have hrounds := hagain.rounds
  unfold arguments Script.arguments
  apply agrees_list _ (by omega)
  intro pos' hlt hle
  exact hagain.expression hle (by omega)

/-- A property: its value comes behind a name and a colon. -/
theorem agrees_property : Agrees tokens guard (property tokens again) pos
    (outcome (propertyAssignment (levelsAt guard) (cursor tokens pos))) := by
  unfold property propertyAssignment Parser.node Parser.map Parser.bind keepLeft propertyName
  simp only [bind_assoc, pure_bind, agrees_here_bind]
  refine (agrees_leaf _ _).bind fun key pos₁ _ hlt₁ _ => ?_
  apply agrees_expect_bind
  intro _ hlt₂
  refine (hagain.expression hlt₂ (by omega)).bind fun value pos₃ _ _ hle => ?_
  exact agrees_finish .propertyAssignment [key, value] hle

/-- An object: it is a list of properties, which call again themselves. -/
theorem agrees_objectLiteral : Agrees tokens guard (objectLiteral tokens again) pos
    (outcome (Script.objectLiteral (levelsAt guard) (cursor tokens pos))) := by
  have hrounds := hagain.rounds
  unfold objectLiteral Script.objectLiteral Parser.node
  rw [agrees_here_bind]
  refine (agrees_list ?_ (by omega)).bind fun properties pos' _ _ hle => ?_
  · intro pos' _ _
    exact agrees_property hagain (by omega)
  · exact agrees_finish .objectLiteral properties hle

/-- An array: it is a list of expressions. -/
theorem agrees_arrayLiteral : Agrees tokens guard (arrayLiteral tokens again) pos
    (outcome (Script.arrayLiteral (levelsAt guard) (cursor tokens pos))) := by
  have hrounds := hagain.rounds
  unfold arrayLiteral Script.arrayLiteral Parser.node
  rw [agrees_here_bind]
  refine (agrees_list ?_ (by omega)).bind fun elements pos' _ _ hle => ?_
  · intro pos' hlt hle
    exact hagain.expression hle (by omega)
  · exact agrees_finish .arrayLiteral elements hle

/-- An expression behind the parenthesis that opens it. -/
theorem agrees_parenthesized (hpeek : (cursor tokens pos).peek? = some .leftParen) :
    Agrees tokens guard (parenthesized tokens again) pos
      (outcome (Script.parenthesized (levelsAt guard) (cursor tokens pos))) := by
  unfold parenthesized Script.parenthesized Parser.node Parser.map keepLeft keepRight Parser.bind
  simp only [bind_assoc, pure_bind, agrees_here_bind]
  apply agrees_advance_of_peek? hpeek
  intro _ hlt
  refine (hagain.expression hlt (by omega)).bind fun value pos' _ _ _ => ?_
  apply agrees_expect_bind
  intro _ hlt'
  exact agrees_finish .parenthesized [value] hlt'

omit hagain hr in
/-- A path of names.  The rounds left are enough for the tokens left, and each takes two. -/
theorem agrees_memberPath {rounds : Nat} {base : Ast}
    {shorter : (cursor tokens pos).rest.length < (cursor tokens first).rest.length}
    (hle : pos ≤ tokens.length) (hrounds : tokens.length < pos + rounds) :
    Agrees tokens guard (memberPath tokens first rounds base) pos
      (outcome (Script.memberPath (c := cursor tokens first)
        ⟨base, cursor tokens pos, shorter⟩)) := by
  induction rounds generalizing pos base with
  | zero => omega
  | succ rounds ih =>
    rw [memberPath, Script.memberPath]
    -- A round takes a point and a name.
    apply agrees_eat_bind
    · intro hlt htakes
      simp only [Cursor.take?_of_takes htakes]
      refine (agrees_leaf _ _).bind fun name pos' _ _ hle' => ?_
      exact ih hle' (by omega)
    · intro hne
      simp only [Cursor.take?_eq_none_iff.mpr hne]
      exact agrees_pure base hle

/-- What comes after the keyword of a construction. -/
def constructedAfter (inner : Nested) : Parser (List Ast) := fun c => do
  let callee ← Script.memberPath (← Script.identifier c)
  if callee.next.peek? = some .leftParen then
    let args ← Script.arguments inner callee.next
    return (callee.andThen args).map (callee.value :: ·)
  else return callee.map ([·])

/-- What comes after the keyword: a path, with arguments if a parenthesis comes next. -/
theorem agrees_constructed : Agrees tokens guard (constructed tokens again) pos
    (outcome (constructedAfter (levelsAt guard) (cursor tokens pos))) := by
  have hrounds := hagain.rounds
  unfold constructed constructedAfter
  rw [agrees_here_bind]
  refine (agrees_leaf _ _).bind fun name pos₁ _ hlt₁ hle₁ => ?_
  refine (agrees_memberPath hle₁ (by omega)).bind fun callee pos₂ _ hlt₂ hle₂ => ?_
  rw [agrees_peek_bind]
  by_cases hparen : (cursor tokens pos₂).peek? = some .leftParen
  · simp only [hparen, if_true]
    refine (agrees_arguments hagain (by omega)).bind fun args pos₃ _ _ hle₃ => ?_
    exact agrees_pure (callee :: args) hle₃
  · simp only [hparen, if_false]
    exact agrees_pure [callee] hle₂

/-- A construction, behind its keyword. -/
theorem agrees_newExpression (hpeek : (cursor tokens pos).peek? = some .newKeyword) :
    Agrees tokens guard (newExpression tokens again) pos
      (outcome (Script.newExpression (levelsAt guard) (cursor tokens pos))) := by
  unfold newExpression Script.newExpression Parser.node keepRight Parser.bind
  rw [bind_assoc, agrees_here_bind]
  apply agrees_advance_of_peek? hpeek
  intro _ hlt
  rw [bind_assoc]
  refine (agrees_constructed hagain (by omega)).bind fun children pos' _ _ hle => ?_
  exact agrees_finish .newExpression children hle

/-- The first token says which of the primary expressions it is, for both. -/
theorem agrees_primary : Agrees tokens guard (primary tokens again) pos
    (outcome (Script.primary (levelsAt guard) (cursor tokens pos))) := by
  unfold primary Script.primary
  rw [agrees_peek_bind]
  cases hpeek : (cursor tokens pos).peek? with
  | none => exact agrees_leaf atoms .expression
  | some t =>
    cases t
    case leftParen => exact agrees_parenthesized hagain hr hpeek
    case leftBrace => exact agrees_objectLiteral hagain hr
    case leftBracket => exact agrees_arrayLiteral hagain hr
    case newKeyword => exact agrees_newExpression hagain hr hpeek
    all_goals exact agrees_leaf atoms .expression

omit hr in
/-- What comes after a primary expression. A round takes a member or arguments, and the expression
    so far is the first child of what it makes. -/
theorem agrees_postfixFrom {rounds : Nat} {base : Ast}
    {shorter : (cursor tokens pos).rest.length < (cursor tokens first).rest.length}
    (hr : tokens.length ≤ pos + r) (hle : pos ≤ tokens.length)
    (hrounds : tokens.length < pos + rounds) :
    Agrees tokens guard (postfixFrom tokens again first rounds base) pos
      (outcome (Script.postfixFrom (levelsAt guard) (c := cursor tokens first)
        ⟨base, cursor tokens pos, shorter⟩)) := by
  induction rounds generalizing pos base with
  | zero => omega
  | succ rounds ih =>
    rw [postfixFrom, Script.postfixFrom, agrees_peek_bind]
    -- Every round takes a token, so the rounds last as long as the tokens do.
    simp only
    cases hpeek : (cursor tokens pos).peek? with
    | none => exact agrees_pure base hle
    | some t =>
      cases t
      case dot =>
        unfold keepRight Parser.bind
        rw [bind_assoc]
        apply agrees_advance_of_peek? hpeek
        intro _ hlt
        rw [bind_assoc]
        refine (agrees_leaf _ _).bind fun name pos' _ _ hle' => ?_
        exact ih (by omega) hle' (by omega)
      case leftParen =>
        refine (agrees_arguments hagain hr).bind fun args pos' _ _ hle' => ?_
        exact ih (by omega) hle' (by omega)
      all_goals exact agrees_pure base hle

/-- A primary expression and what comes after it. -/
theorem agrees_postfixExpression : Agrees tokens guard (postfixExpression tokens again) pos
    (outcome (Script.postfixExpression (levelsAt guard) (cursor tokens pos))) := by
  have hrounds := hagain.rounds
  unfold postfixExpression Script.postfixExpression
  rw [agrees_here_bind]
  refine (agrees_primary hagain hr).bind fun base pos' _ hlt hle => ?_
  exact agrees_postfixFrom hagain (by omega) hle (by omega)

/-- An operand. It is one level deeper than what it stands in, and only the machine counts that in a
    number. -/
theorem agrees_unary : Agrees tokens guard (unary tokens again) pos
    (outcome ((levelsAt guard).unary (cursor tokens pos))) := by
  apply agrees_nested (p := unaryExpression) Nested.unary (fun _ => rfl) (fun _ _ => rfl)
  intro guard
  rw [agrees_peek_bind]
  cases hsign : (cursor tokens pos).peek?.filter isPrefixOperator with
  | none =>
    have hnone : operator? isPrefixOperator (cursor tokens pos) = none := by
      rw [operator?_eq_none_iff]
      intro t ht
      simpa [ht] using hsign
    rw [unaryExpression, hnone]
    exact agrees_postfixExpression hagain hr
  | some t =>
    obtain ⟨hpeek, hsign⟩ := Option.filter_eq_some_iff.mp hsign
    obtain ⟨hlt, htakes⟩ := takes_cursor hpeek
    obtain ⟨_, hop⟩ := operator?_eq_some_iff.mpr ⟨htakes, hsign, rfl⟩
    rw [unaryExpression, hop]
    simp only
    rw [agrees_here_bind]
    apply agrees_operator_bind hpeek
    intro _
    refine (hagain.unary hlt (by omega)).bind fun operand pos' _ _ hle => ?_
    exact agrees_finish .prefixUnary _ hle

omit hr in
/-- The tree grows as the chain does, as long as the next operator takes over the whole chain. -/
theorem agrees_climb {least rounds : Nat} {ch : Chain} (hr : tokens.length < pos + r)
    (hle : pos ≤ tokens.length) (hrounds : tokens.length < pos + rounds)
    (hcovers : Covers ch.toAst (cursor tokens first) (cursor tokens pos))
    (hpush : ∀ t p, (cursor tokens pos).peek? = some t → t.precedence? = some p →
      ∀ op e, ch.push op p e = .binary ch op p (.operand e)) :
    Agrees tokens guard (climb tokens again least first rounds ch.toAst) pos
      (chainAbove (levelsAt guard) least ch (cursor tokens pos)
        >>= fun r => .ok (r.1.toAst, r.2)) := by
  induction rounds generalizing pos ch with
  | zero => omega
  | succ rounds ih =>
    rw [climb, agrees_peek_bind]
    rcases endsRow_or least (cursor tokens pos) with hends | ⟨t, p, m, htakes, hp, hle'⟩
    · rw [chainAbove_of_endsRow hends]
      have hpure : Agrees tokens guard (pure ch.toAst) pos
          (.ok (ch.toAst, cursor tokens pos)) := agrees_pure _ hle
      cases hpeek : (cursor tokens pos).peek? with
      | none => exact hpure
      | some t =>
        simp only
        cases hp : t.precedence? with
        | none => exact hpure
        | some p =>
          simp only
          rw [if_pos (hends t p hpeek hp)]
          exact hpure
    · -- The operator takes over the tree, and what it takes on its right is a row by itself.
      have hpeek := htakes.peek?
      obtain ⟨hlt, htakes⟩ := takes_cursor hpeek
      simp only [hpeek, hp]
      rw [if_neg (by omega), chainAbove_eq_chainWithin htakes hp hle' (hpush t p hpeek hp),
        bind_assoc]
      apply agrees_operator_bind hpeek
      intro _
      refine (hagain.binary (p + 1) hlt (by omega)).bind_map fun right pos' hright hle'' => ?_
      obtain ⟨hcovers', hends, hshort⟩ := chainWithin_eq_ok covers_levelsAt hright
      simp only [length_rest_cursor] at hshort
      rw [agrees_finish_bind, ← toAst_binary (p := p) hcovers hcovers']
      apply ih (by omega) hle'' (by omega)
      · rw [toAst_binary hcovers hcovers']
        exact covers_nodeTo _ _ _ _
      · -- The operator that comes next binds no tighter than the one just read.
        intro u q hu hq op e
        have hq' := hends u q hu hq
        rw [Chain.push, if_neg (by omega)]

/-- Binary expressions: the machine climbs to what the chain is put together to. -/
theorem agrees_binary (least : Nat) : Agrees tokens guard (binary tokens again least) pos
    (chainWithin (levelsAt guard) least (cursor tokens pos)
      >>= fun r => .ok (r.1.toAst, r.2)) := by
  have hrounds := hagain.rounds
  unfold binary chainWithin
  rw [agrees_here_bind, bind_assoc]
  refine (agrees_unary hagain hr).bind_outcome fun left pos' hleft hle => ?_
  have hyields := run_eq_ok.mp hleft
  have hshort := hyields.shorter
  simp only [length_rest_cursor] at hshort
  have hcovers : Covers (Chain.operand left).toAst (cursor tokens pos) (cursor tokens pos') :=
    covers_levelsAt hyields
  apply agrees_climb hagain (by omega) hle (by omega) hcovers
  intro t p _ _ op e
  rfl

/-- An assignment, whose right side is an assignment again. -/
theorem agrees_assignment : Agrees tokens guard (assignment tokens again) pos
    (outcome (Script.assignment (levelsAt guard) (cursor tokens pos))) := by
  unfold assignment Script.assignment
  rw [agrees_here_bind]
  have hbinary : Agrees tokens guard (binary tokens again 1) pos
      (outcome (binaryExpression (levelsAt guard) (cursor tokens pos))) := by
    have hrun := run_binaryExpression (levelsAt guard) (cursor tokens pos)
    rw [Parser.run] at hrun
    rw [hrun]
    exact agrees_binary hagain hr 1
  refine hbinary.bind fun target pos₁ _ hlt₁ hle₁ => ?_
  rw [agrees_peek_bind]
  by_cases hpeek : (cursor tokens pos₁).peek? = some .assign
  · obtain ⟨hlt₂, htakes⟩ := takes_cursor hpeek
    obtain ⟨_, hop⟩ := (operator?_eq_some_iff (p := (· == .assign))).mpr
      ⟨htakes, beq_self_eq_true _, rfl⟩
    rw [if_pos hpeek]
    simp only [hop]
    apply agrees_operator_bind hpeek
    intro _
    refine (hagain.expression hlt₂ (by omega)).bind fun value pos₃ _ _ hle₃ => ?_
    exact agrees_finish .binaryExpression _ hle₃
  · have hnone : operator? (· == .assign) (cursor tokens pos₁) = none := by
      rw [operator?_eq_none_iff]
      intro t ht
      exact beq_eq_false_iff_ne.mpr fun hassign => hpeek (hassign ▸ ht)
    rw [if_neg hpeek]
    simp only [hnone]
    exact agrees_pure target hle₁

/-- An expression is an assignment, one level deeper. -/
theorem agrees_expression : Agrees tokens guard (expression tokens again) pos
    (outcome ((levelsAt guard).expression (cursor tokens pos))) := by
  apply agrees_nested (p := Script.assignment) Nested.expression (fun _ => rfl) (fun _ _ => rfl)
  intro guard
  exact agrees_assignment hagain hr

/-! ### Statements -/

omit hr in
/-- Statements up to a brace that closes.  Each takes a token, so the rounds are enough. -/
theorem agrees_statementsTo {rounds : Nat} (hr : tokens.length < pos + r)
    (hle : pos ≤ tokens.length) (hrounds : tokens.length < pos + rounds) :
    Agrees tokens guard (statementsTo tokens again rounds) pos
      (outcome (itemsUntil .rightBrace (levelsAt guard).statement (cursor tokens pos))) := by
  induction rounds generalizing pos with
  | zero => omega
  | succ rounds ih =>
    rw [statementsTo, itemsUntil]
    apply agrees_eat_bind
    · intro hlt htakes
      rw [Cursor.take?_of_takes htakes]
      exact agrees_pure [] hlt
    · intro hne
      rw [Cursor.take?_eq_none_iff.mpr hne]
      refine (hagain.statement hle hr).bind fun v pos' _ hlt hle' => ?_
      refine (ih (by omega) hle' (by omega)).bind fun vs pos'' _ _ hle'' => ?_
      exact agrees_pure (v :: vs) hle''

/-- A block, behind the brace that opens it. -/
theorem agrees_block : Agrees tokens guard (block tokens again) pos
    (outcome (Script.block (levelsAt guard) (cursor tokens pos))) := by
  have hrounds := hagain.rounds
  unfold block Script.block Parser.node keepRight Parser.bind
  simp only [bind_assoc, pure_bind, agrees_here_bind]
  apply agrees_expect_bind
  intro _ hlt
  refine (agrees_statementsTo hagain (by omega) hlt (by omega)).bind
    fun statements pos' _ _ hle => ?_
  exact agrees_finish .block statements hle

/-- The declaration of one variable, with a value or without. -/
theorem agrees_declaration : Agrees tokens guard (declaration tokens again) pos
    (outcome (variableDeclaration (levelsAt guard) (cursor tokens pos))) := by
  unfold declaration variableDeclaration Parser.node orMore Parser.map
  simp only [bind_assoc, pure_bind, agrees_here_bind]
  refine (agrees_leaf _ _).bind fun name pos₁ _ hlt₁ hle₁ => ?_
  apply agrees_eat_bind
  · intro hlt₂ htakes
    simp only [Parsed.map, Cursor.take?_of_takes htakes, bind_assoc, pure_bind, if_true]
    refine (hagain.expression hlt₂ (by omega)).bind fun value pos₃ _ _ hle₃ => ?_
    exact agrees_finish .variableDeclaration [name, value] hle₃
  · intro hne
    simp only [Parsed.map, Cursor.take?_eq_none_iff.mpr hne]
    exact agrees_finish .variableDeclaration [name] hle₁

omit hr in
/-- Declarations with commas in between.  The rounds left are enough for the tokens left. -/
theorem agrees_declarations {rounds : Nat} (hr : tokens.length ≤ pos + r)
    (hle : pos ≤ tokens.length) (hrounds : tokens.length < pos + rounds) :
    Agrees tokens guard (declarations tokens again rounds) pos
      (outcome (commaItems (variableDeclaration (levelsAt guard)) (cursor tokens pos))) := by
  induction rounds generalizing pos with
  | zero => omega
  | succ rounds ih =>
    rw [declarations, commaItems]
    refine (agrees_declaration hagain hr).bind fun v pos₁ _ hlt₁ hle₁ => ?_
    apply agrees_eat_bind
    · intro hlt₂ htakes
      simp only [Cursor.take?_of_takes htakes]
      refine (ih (by omega) hlt₂ (by omega)).bind fun vs pos₃ _ _ hle₃ => ?_
      exact agrees_pure (v :: vs) hle₃
    · intro hne
      simp only [Cursor.take?_eq_none_iff.mpr hne]
      exact agrees_pure [v] hle₁

omit hagain hr in
/-- A node with an optional token at its end. -/
theorem agrees_eat_finish {t : Token} {kind : Kind} {children : List Ast}
    {shorter : (cursor tokens pos).rest.length < (cursor tokens first).rest.length}
    (hle : pos ≤ tokens.length) :
    Agrees tokens guard (eat tokens t >>= fun _ => finish tokens kind first children) pos
      (outcome (c := cursor tokens first)
        (.ok (((⟨children, cursor tokens pos, shorter⟩ : Parsed _ _).skip t).node kind))) := by
  unfold Parsed.skip
  apply agrees_eat_bind
  · intro hlt htakes
    simp only [Cursor.take?_of_takes htakes]
    exact agrees_finish kind children hlt
  · intro hne
    simp only [Cursor.take?_eq_none_iff.mpr hne]
    exact agrees_finish kind children hle

/-- Declarations behind a keyword, with a semicolon or without. -/
theorem agrees_variableStatement {keyword : Token}
    (hpeek : (cursor tokens pos).peek? = some keyword) :
    Agrees tokens guard (variableStatement tokens again) pos
      (outcome (Script.variableStatement (levelsAt guard) keyword (cursor tokens pos))) := by
  have hrounds := hagain.rounds
  unfold variableStatement Script.variableStatement Parser.node Parser.skip keepRight Parser.bind
  simp only [bind_assoc, pure_bind, agrees_here_bind]
  apply agrees_advance_of_peek? hpeek
  intro _ hlt
  refine (agrees_declarations hagain (by omega) hlt (by omega)).bind fun children pos' _ _ hle => ?_
  exact agrees_eat_finish hle

/-- A condition in its parentheses. -/
theorem agrees_condition : Agrees tokens guard (condition tokens again) pos
    (outcome (Script.condition (levelsAt guard) (cursor tokens pos))) := by
  unfold condition Script.condition keepLeft keepRight Parser.bind
  simp only [bind_assoc, pure_bind]
  apply agrees_expect_bind
  intro _ hlt
  refine (hagain.expression hlt (by omega)).bind fun value pos' _ _ _ => ?_
  apply agrees_expect_bind
  intro _ hlt'
  exact agrees_pure value hlt'

/-- A keyword, a condition and the statement that depends on it. -/
theorem agrees_conditional {keyword : Token}
    (hpeek : (cursor tokens pos).peek? = some keyword) :
    Agrees tokens guard (conditional tokens again) pos
      (outcome (Script.conditional (levelsAt guard) keyword (cursor tokens pos))) := by
  unfold conditional Script.conditional Parser.map keepRight Parser.bind
  simp only [bind_assoc, pure_bind]
  apply agrees_advance_of_peek? hpeek
  intro _ hlt
  refine (agrees_condition hagain (by omega)).bind fun test pos₁ _ hlt₁ hle₁ => ?_
  refine (hagain.statement hle₁ (by omega)).bind fun body pos₂ _ _ hle₂ => ?_
  exact agrees_pure [test, body] hle₂

/-- A choice, with a second statement if `else` comes next. -/
theorem agrees_ifStatement (hpeek : (cursor tokens pos).peek? = some .ifKeyword) :
    Agrees tokens guard (ifStatement tokens again) pos
      (outcome (Script.ifStatement (levelsAt guard) (cursor tokens pos))) := by
  unfold ifStatement Script.ifStatement Parser.node orMore Parser.map
  simp only [bind_assoc, pure_bind, agrees_here_bind]
  refine (agrees_conditional hagain hr hpeek).bind fun children pos₁ _ hlt₁ hle₁ => ?_
  apply agrees_eat_bind
  · intro hlt₂ htakes
    simp only [Cursor.take?_of_takes htakes, bind_assoc, pure_bind, if_true]
    refine (hagain.statement hlt₂ (by omega)).bind fun other pos₃ _ _ hle₃ => ?_
    exact agrees_finish .ifStatement (children ++ [other]) hle₃
  · intro hne
    simp only [Cursor.take?_eq_none_iff.mpr hne]
    exact agrees_finish .ifStatement children hle₁

/-- A loop is a condition with a statement for both. -/
theorem agrees_whileStatement (hpeek : (cursor tokens pos).peek? = some .whileKeyword) :
    Agrees tokens guard (whileStatement tokens again) pos
      (outcome (Script.whileStatement (levelsAt guard) (cursor tokens pos))) := by
  unfold whileStatement Script.whileStatement Parser.node
  rw [agrees_here_bind]
  refine (agrees_conditional hagain hr hpeek).bind fun children pos' _ _ hle => ?_
  exact agrees_finish .whileStatement children hle

/-- A result, unless the statement ends where it would begin. -/
theorem agrees_returnStatement (hpeek : (cursor tokens pos).peek? = some .returnKeyword) :
    Agrees tokens guard (returnStatement tokens again) pos
      (outcome (Script.returnStatement (levelsAt guard) (cursor tokens pos))) := by
  unfold returnStatement returned Script.returnStatement returnClause Parser.node Parser.skip
  simp only [bind_assoc, pure_bind, agrees_here_bind]
  apply agrees_advance_of_peek? hpeek
  intro _ hlt
  rw [agrees_peek_bind]
  simp only
  cases (cursor tokens (pos + 1)).peek? with
  | none => exact agrees_eat_finish hlt
  | some t =>
    cases t
    case semicolon | rightBrace => exact agrees_eat_finish hlt
    all_goals
      simp only [bind_assoc, pure_bind]
      refine (hagain.expression hlt (by omega)).bind fun value pos' _ _ hle => ?_
      exact agrees_eat_finish hle

/-- A function, behind its keyword: a name, parameters and a block. -/
theorem agrees_functionDeclaration
    (hpeek : (cursor tokens pos).peek? = some .functionKeyword) :
    Agrees tokens guard (functionDeclaration tokens again) pos
      (outcome (Script.functionDeclaration (levelsAt guard) (cursor tokens pos))) := by
  have hrounds := hagain.rounds
  unfold functionDeclaration Script.functionDeclaration Parser.node Parser.map keepRight Parser.bind
  simp only [bind_assoc, pure_bind, agrees_here_bind]
  apply agrees_advance_of_peek? hpeek
  intro _ hlt
  refine (agrees_leaf _ _).bind fun name pos₁ _ hlt₁ hle₁ => ?_
  refine (agrees_list ?_ (by omega)).bind fun parameters pos₂ _ hlt₂ hle₂ => ?_
  · intro pos' _ _
    exact agrees_parameter
  · refine (agrees_block hagain (by omega)).bind fun body pos₃ _ _ hle₃ => ?_
    exact agrees_finish .functionDeclaration _ hle₃

/-- An expression as a statement, with a semicolon or without. -/
theorem agrees_expressionStatement : Agrees tokens guard (expressionStatement tokens again) pos
    (outcome (Script.expressionStatement (levelsAt guard) (cursor tokens pos))) := by
  unfold expressionStatement Script.expressionStatement Parser.node Parser.skip Parser.map
  simp only [bind_assoc, pure_bind, agrees_here_bind]
  refine (agrees_expression hagain hr).bind fun value pos' _ _ hle => ?_
  exact agrees_eat_finish hle

omit hagain hr in
/-- A semicolon alone is a leaf for both. -/
theorem agrees_emptyStatement (hpeek : (cursor tokens pos).peek? = some .semicolon) :
    Agrees tokens guard (take tokens .emptyStatement) pos
      (outcome (Parser.leaf [(.semicolon, .emptyStatement)] .statement (cursor tokens pos))) := by
  obtain ⟨hlt, htakes⟩ := takes_cursor hpeek
  have hlookup : [(Token.semicolon, Kind.emptyStatement)].lookup .semicolon
      = some .emptyStatement := rfl
  obtain ⟨_, hleaf⟩ := yields_leaf.mpr ⟨.semicolon, .emptyStatement, htakes, hlookup, rfl⟩
  rw [hleaf]
  exact agrees_finish .emptyStatement [] hlt

/-- The first token says which statement it is, for both. -/
theorem agrees_statementOf : Agrees tokens guard (statementOf tokens again) pos
    (outcome (Script.statementOf (levelsAt guard) (cursor tokens pos))) := by
  unfold statementOf Script.statementOf
  rw [agrees_peek_bind]
  cases hpeek : (cursor tokens pos).peek? with
  | none => exact agrees_refuse .statement
  | some t =>
    cases t
    case semicolon => exact agrees_emptyStatement hpeek
    case leftBrace => exact agrees_block hagain hr
    case constKeyword | letKeyword | varKeyword =>
      exact agrees_variableStatement hagain hr hpeek
    case ifKeyword => exact agrees_ifStatement hagain hr hpeek
    case whileKeyword => exact agrees_whileStatement hagain hr hpeek
    case returnKeyword => exact agrees_returnStatement hagain hr hpeek
    case functionKeyword => exact agrees_functionDeclaration hagain hr hpeek
    all_goals exact agrees_expressionStatement hagain hr

/-- A statement, one level deeper than what it stands in. -/
theorem agrees_statement : Agrees tokens guard (statement tokens again) pos
    (outcome ((levelsAt guard).statement (cursor tokens pos))) := by
  apply agrees_nested (p := Script.statementOf) Nested.statement (fun _ => rfl) (fun _ _ => rfl)
  intro guard
  exact agrees_statementOf hagain hr

end

/-! ### Sources -/

/-- With a round for each token that is left, everything agrees that is called again. -/
theorem ready_again (tokens : List Lexeme) (rounds : Nat) :
    Ready tokens (again tokens rounds) rounds := by
  induction rounds with
  | zero =>
    exact {
      rounds := Nat.le_refl 0
      statement := fun _ _ => by omega
      expression := fun _ _ => by omega
      unary := fun _ _ => by omega
      binary := fun _ _ _ => by omega }
  | succ rounds ih =>
    exact {
      rounds := Nat.le_refl (rounds + 1)
      statement := fun _ hr => agrees_statement ih (by omega)
      expression := fun _ hr => agrees_expression ih (by omega)
      unary := fun _ hr => agrees_unary ih (by omega)
      binary := fun least _ hr => agrees_binary ih (by omega) least }

/-- Items up to the end of the tokens, one after the other. -/
theorem itemsToEnd_of_ne_nil {item : Parser α} {c : Cursor} (h : c.rest ≠ []) :
    itemsToEnd item c = item.run c >>= fun r => itemsToEnd item r.2 >>= fun vs =>
      .ok (r.1 :: vs) := by
  rw [itemsToEnd]
  split
  · contradiction
  · unfold Parser.run outcome
    cases item c <;> rfl

/-- The statements of a source are read up to its end. -/
theorem run_statementsToEnd {again : Again} {r rounds : Nat} (hagain : Ready tokens again r)
    (hr : tokens.length ≤ pos + r) (hle : pos ≤ tokens.length)
    (hrounds : tokens.length < pos + rounds) :
    statementsToEnd tokens again rounds ⟨pos, guard⟩
      = ((itemsToEnd (levelsAt guard).statement (cursor tokens pos)).map
          fun vs => (vs, ⟨tokens.length, guard⟩)).mapError .refused := by
  induction rounds generalizing pos with
  | zero => omega
  | succ rounds ih =>
    have hstep : statementsToEnd tokens again (rounds + 1) ⟨pos, guard⟩
        = (if tokens[pos]?.map (·.token) = none then pure [] else do
            let first ← statement tokens again
            let later ← statementsToEnd tokens again rounds
            return first :: later : Action (List Ast)) ⟨pos, guard⟩ := rfl
    rw [hstep, ← peek?_cursor]
    by_cases hend : pos = tokens.length
    · have hnil : (cursor tokens pos).rest = [] := by
        rw [← List.length_eq_zero_iff, length_rest_cursor]
        omega
      rw [itemsToEnd_eq_ok.mpr (.inl ⟨hnil, rfl⟩), Cursor.peek?, hnil, hend]
      rfl
    · have hlt : pos < tokens.length := by omega
      have hpeek : (cursor tokens pos).peek? ≠ none := by
        simp [peek?_cursor, hlt]
      have hne : (cursor tokens pos).rest ≠ [] := by
        rw [← List.length_pos_iff, length_rest_cursor]
        omega
      rw [if_neg hpeek, itemsToEnd_of_ne_nil hne]
      show statement tokens again ⟨pos, guard⟩ >>= _ = _
      have hfirst : Agrees tokens guard (statement tokens again) pos
          (outcome ((levelsAt guard).statement (cursor tokens pos))) := agrees_statement hagain hr
      -- A statement that is read leaves the position further on, so one round fewer is enough.
      rcases hfirst with ⟨e, hx, hact⟩ | ⟨v, pos', hx, hact, hle'⟩
      · rw [Parser.run, hx, hact]
        rfl
      · have hshort := (run_eq_ok.mp hx).shorter
        simp only [length_rest_cursor] at hshort
        rw [Parser.run, hx, hact]
        show statementsToEnd tokens again rounds ⟨pos', guard⟩ >>= _
          = Except.mapError _ (Except.map _ (itemsToEnd _ (cursor tokens pos') >>= _))
        rw [ih (by omega) hle' (by omega)]
        cases itemsToEnd (levelsAt guard).statement (cursor tokens pos') <;> rfl

/-- The machine and the grammar make the same of a source. -/
theorem sourceFile_eq {rounds : Nat} (h : tokens.length ≤ rounds) (size : Nat) :
    sourceFile tokens rounds size = (Script.sourceFile size tokens).mapError .refused := by
  have hrun : statementsToEnd tokens (again tokens rounds) (rounds + 1) {}
      = ((itemsToEnd (levelsAt {}).statement (cursor tokens 0)).map
          fun vs => (vs, ⟨tokens.length, {}⟩)).mapError .refused :=
    run_statementsToEnd (ready_again tokens rounds) (by omega) (by omega) (by omega)
  have hstart : cursor tokens 0 = { rest := tokens } := by
    simp [cursor]
  have hlevels : levelsAt {} = Script.nested maxNesting := by
    rw [levelsAt, NestingGuard.enter_of_lt (by decide) (by decide)]
    rfl
  rw [hstart, hlevels] at hrun
  rw [sourceFile, hrun, Script.sourceFile]
  cases itemsToEnd (Script.nested maxNesting).statement { rest := tokens } <;> rfl

end Transcode.Script.Indexed
