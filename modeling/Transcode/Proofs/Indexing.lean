import Transcode.Nesting
import Transcode.Proofs.Climbing

namespace Transcode.Script.Indexed

/-!
# Parsing by index

The parser of the script language as a machine: its state is the index of the next token and the
guard that counts the levels that are open, and it advances by adding one to the index, whether or
not there is a token left.  Apart from refusing a source, two things can go wrong with such a
machine.  It may index past the end of the tokens (`Stop.outOfRange`), and it may go round for ever.
Therefore every loop is given a number of rounds, and so is the recursion: a parser that is called
again after a token has been taken comes from `Again`, and what is left when the rounds are used up
is `Stop.unfinished`.  Parsers that are called before a token is taken are called directly, so the
rounds count tokens only.

That neither ever happens, and that the machine does what the grammar does, is shown later.
-/

/-! ### The machine -/

/-- The state of the machine. -/
structure State where
  /-- The index of the next token. -/
  pos : Nat := 0
  /-- The levels that are open. -/
  guard : NestingGuard := {}
  deriving DecidableEq, Repr

/-- Why the machine stops without a result. -/
inductive Stop
  /-- The source is refused. -/
  | refused (e : SourceError)
  /-- A token was asked for at an index past the last one. -/
  | outOfRange
  /-- There are no rounds left. -/
  | unfinished
  deriving DecidableEq, Repr

/-- What the machine may do. -/
abbrev Action (α : Type) := StateT State (Except Stop) α

/-- The place before the token with an index. -/
def cursor (tokens : List Lexeme) (pos : Nat) : Cursor where
  before := if pos = 0 then 0 else (tokens[pos - 1]?.map (·.stop)).getD 0
  rest := tokens.drop pos

/-- Stop because there are no rounds left. -/
def unfinished {α : Type} : Action α := fun _ =>
  .error .unfinished

/-- The index of the next token. -/
def here : Action Nat := fun s =>
  .ok (s.pos, s)

/-- Go to the next index. -/
def advance : Action Unit := fun s =>
  .ok ((), { s with pos := s.pos + 1 })

section

variable {α : Type} (tokens : List Lexeme)

/-- The next token. -/
def peek? : Action (Option Token) := fun s =>
  .ok (tokens[s.pos]?.map (·.token), s)

/-- Refuse the source, since something else was expected here. -/
def refuse (expected : Expectation) : Action α := fun s =>
  .error (.refused ((cursor tokens s.pos).unexpected expected))

/-- Take the next token if it is `t`. -/
def eat (t : Token) : Action Bool := do
  if (← peek? tokens) = some t then
    advance
    return true
  else return false

/-- Take the token `t`. -/
def expect (t : Token) : Action Unit := do
  if ← eat tokens t then return () else refuse tokens (.token t)

/-- The node over the tokens from an index up to the next token. -/
def finish (kind : Kind) (first : Nat) (children : List Ast) : Action Ast := fun s =>
  .ok ((cursor tokens first).nodeTo (cursor tokens s.pos) kind children, s)

/-- Take the next token, whatever it is, as a leaf. -/
def take (kind : Kind) : Action Ast := do
  let first ← here
  advance
  finish tokens kind first []

/-- Take any of the tokens that `kinds` lists, as a leaf of the kind given there. -/
def leaf (kinds : List (Token × Kind)) (expected : Expectation) : Action Ast := do
  match (← peek? tokens).bind (kinds.lookup ·) with
  | some kind => take tokens kind
  | none => refuse tokens expected

/-- Take the next token, which has to exist, as an operator. -/
def operator (t : Token) : Action Ast := fun s =>
  match tokens[s.pos]? with
  | some _ => take tokens (.operator (some t)) s
  | none => .error .outOfRange

-- Whoever asks for an operator has to know that a token is left.
example : operator [] .bang {} = .error .outOfRange := rfl

end

/-- Do something one level deeper. -/
def nested {α : Type} (act : Action α) : Action α := fun s =>
  match s.guard.enter maxNesting with
  | (_, some fault) => .error (.refused (.tooDeep fault))
  | (guard, none) => do
    let done ← act { s with guard := guard }
    return (done.1, { done.2 with guard := done.2.guard.exit })

/-! ### Calling again -/

/-- The parsers for what comes after a token, and the rounds that a loop may take there. -/
structure Again where
  rounds : Nat
  statement : Action Ast
  expression : Action Ast
  unary : Action Ast
  /-- Operands with the operators that bind at least so tight. -/
  binary : Nat → Action Ast

section

variable (tokens : List Lexeme)

/-! ### Lists -/

/-- Items with commas in between up to the token `close`, which is taken. -/
def itemsTo {α : Type} (close : Token) (item : Action α) : Nat → Action (List α)
  | 0 => unfinished
  | rounds + 1 => do
    if ← eat tokens close then return []
    let first ← item
    if ← eat tokens .comma then
      let later ← itemsTo close item rounds
      return first :: later
    expect tokens close
    return [first]

/-- A delimited list. -/
def list {α : Type} (rounds : Nat) (opening closing : Token) (item : Action α) :
    Action (List α) := do
  expect tokens opening
  itemsTo tokens closing item rounds

/-- A name. -/
def identifier : Action Ast :=
  leaf tokens [(.ident, .identifier)] .identifier

/-- A parameter of a function. -/
def parameter : Action Ast := do
  let first ← here
  let name ← identifier tokens
  finish tokens .parameter first [name]

variable (again : Again)

/-! ### Expressions -/

/-- The arguments of a call. -/
def arguments : Action (List Ast) :=
  list tokens again.rounds .leftParen .rightParen again.expression

/-- A name or string, a colon and a value. -/
def property : Action Ast := do
  let first ← here
  let key ← leaf tokens propertyNames .propertyName
  expect tokens .colon
  let value ← again.expression
  finish tokens .propertyAssignment first [key, value]

/-- Properties in braces. -/
def objectLiteral : Action Ast := do
  let first ← here
  let properties ← list tokens again.rounds .leftBrace .rightBrace (property tokens again)
  finish tokens .objectLiteral first properties

/-- Expressions in brackets. -/
def arrayLiteral : Action Ast := do
  let first ← here
  let elements ← list tokens again.rounds .leftBracket .rightBracket again.expression
  finish tokens .arrayLiteral first elements

/-- An expression in parentheses.  The opening one is not looked at. -/
def parenthesized : Action Ast := do
  let first ← here
  advance
  let value ← again.expression
  expect tokens .rightParen
  finish tokens .parenthesized first [value]

/-- The names after a path that begins at an index. -/
def memberPath (first : Nat) : Nat → Ast → Action Ast
  | 0, _ => unfinished
  | rounds + 1, base => do
    if ← eat tokens .dot then
      let name ← identifier tokens
      let access ← finish tokens .propertyAccess first [base, name]
      memberPath first rounds access
    else return base

/-- What is constructed: a path, and arguments if there are any. -/
def constructed : Action (List Ast) := do
  let first ← here
  let name ← identifier tokens
  let callee ← memberPath tokens first again.rounds name
  if (← peek? tokens) = some .leftParen then
    let args ← arguments tokens again
    return callee :: args
  else return [callee]

/-- A construction.  The keyword is not looked at. -/
def newExpression : Action Ast := do
  let first ← here
  advance
  let children ← constructed tokens again
  finish tokens .newExpression first children

/-- An expression without operators. -/
def primary : Action Ast := do
  match ← peek? tokens with
  | some .leftParen => parenthesized tokens again
  | some .leftBrace => objectLiteral tokens again
  | some .leftBracket => arrayLiteral tokens again
  | some .newKeyword => newExpression tokens again
  | _ => leaf tokens atoms .expression

/-- The names and arguments after an expression that begins at an index. -/
def postfixFrom (first : Nat) : Nat → Ast → Action Ast
  | 0, _ => unfinished
  | rounds + 1, base => do
    match ← peek? tokens with
    | some .dot =>
      advance
      let name ← identifier tokens
      let access ← finish tokens .propertyAccess first [base, name]
      postfixFrom first rounds access
    | some .leftParen =>
      let args ← arguments tokens again
      let call ← finish tokens .callExpression first (base :: args)
      postfixFrom first rounds call
    | _ => return base

/-- An expression with the names and arguments after it. -/
def postfixExpression : Action Ast := do
  let first ← here
  let base ← primary tokens again
  postfixFrom tokens again first again.rounds base

/-- An operand: a sign before another one, or an expression without operators. -/
def unary : Action Ast := nested do
  match (← peek? tokens).filter isPrefixOperator with
  | some t =>
    let first ← here
    let sign ← operator tokens t
    let operand ← again.unary
    finish tokens .prefixUnary first [sign, operand]
  | none => postfixExpression tokens again

/-- The operators that bind at least so tight, with their operands, after a tree that begins at an
    index. -/
def climb (least first : Nat) : Nat → Ast → Action Ast
  | 0, _ => unfinished
  | rounds + 1, left => do
    match ← peek? tokens with
    | none => return left
    | some t =>
      match t.precedence? with
      | none => return left
      | some precedence =>
        if precedence < least then return left
        else
          let sign ← operator tokens t
          let right ← again.binary (precedence + 1)
          let operation ← finish tokens .binaryExpression first [left, sign, right]
          climb least first rounds operation

/-- Operands with the operators that bind at least so tight. -/
def binary (least : Nat) : Action Ast := do
  let first ← here
  let left ← unary tokens again
  climb tokens again least first again.rounds left

/-- An assignment, or an expression without one. -/
def assignment : Action Ast := do
  let first ← here
  let target ← binary tokens again 1
  if (← peek? tokens) = some .assign then
    let sign ← operator tokens .assign
    let value ← again.expression
    finish tokens .binaryExpression first [target, sign, value]
  else return target

/-- An expression. -/
def expression : Action Ast :=
  nested (assignment tokens again)

/-! ### Statements -/

/-- Statements up to the closing brace, which is taken. -/
def statementsTo : Nat → Action (List Ast)
  | 0 => unfinished
  | rounds + 1 => do
    if ← eat tokens .rightBrace then return []
    let first ← again.statement
    let later ← statementsTo rounds
    return first :: later

/-- Statements in braces. -/
def block : Action Ast := do
  let first ← here
  expect tokens .leftBrace
  let statements ← statementsTo tokens again again.rounds
  finish tokens .block first statements

/-- A name, and a value if there is one. -/
def declaration : Action Ast := do
  let first ← here
  let name ← identifier tokens
  if ← eat tokens .assign then
    let value ← again.expression
    finish tokens .variableDeclaration first [name, value]
  else finish tokens .variableDeclaration first [name]

/-- Declarations with commas in between. -/
def declarations : Nat → Action (List Ast)
  | 0 => unfinished
  | rounds + 1 => do
    let first ← declaration tokens again
    if ← eat tokens .comma then
      let later ← declarations rounds
      return first :: later
    else return [first]

/-- Declarations after a keyword, which is not looked at. -/
def variableStatement : Action Ast := do
  let first ← here
  advance
  let children ← declarations tokens again again.rounds
  let _ ← eat tokens .semicolon
  finish tokens .variableStatement first children

/-- The condition of a statement, in parentheses. -/
def condition : Action Ast := do
  expect tokens .leftParen
  let value ← again.expression
  expect tokens .rightParen
  return value

/-- A condition and the statement under it, after a keyword, which is not looked at. -/
def conditional : Action (List Ast) := do
  advance
  let test ← condition tokens again
  let body ← again.statement
  return [test, body]

/-- `if` with its branches. -/
def ifStatement : Action Ast := do
  let first ← here
  let children ← conditional tokens again
  if ← eat tokens .elseKeyword then
    let other ← again.statement
    finish tokens .ifStatement first (children ++ [other])
  else finish tokens .ifStatement first children

/-- `while` with its body. -/
def whileStatement : Action Ast := do
  let first ← here
  let children ← conditional tokens again
  finish tokens .whileStatement first children

/-- The value of a `return`, unless the statement or its block ends before it. -/
def returned : Action (List Ast) := do
  match ← peek? tokens with
  | none | some .semicolon | some .rightBrace => return []
  | _ =>
    let value ← again.expression
    return [value]

/-- `return` with its value. -/
def returnStatement : Action Ast := do
  let first ← here
  advance
  let children ← returned tokens again
  let _ ← eat tokens .semicolon
  finish tokens .returnStatement first children

/-- A function with its name, its parameters and its body. -/
def functionDeclaration : Action Ast := do
  let first ← here
  advance
  let name ← identifier tokens
  let parameters ← list tokens again.rounds .leftParen .rightParen (parameter tokens)
  let body ← block tokens again
  finish tokens .functionDeclaration first (name :: parameters ++ [body])

/-- An expression as a statement. -/
def expressionStatement : Action Ast := do
  let first ← here
  let value ← expression tokens again
  let _ ← eat tokens .semicolon
  finish tokens .expressionStatement first [value]

/-- A statement, told by its first token. -/
def statementOf : Action Ast := do
  match ← peek? tokens with
  | none => refuse tokens .statement
  | some .semicolon => take tokens .emptyStatement
  | some .leftBrace => block tokens again
  | some .constKeyword | some .letKeyword | some .varKeyword => variableStatement tokens again
  | some .ifKeyword => ifStatement tokens again
  | some .whileKeyword => whileStatement tokens again
  | some .returnKeyword => returnStatement tokens again
  | some .functionKeyword => functionDeclaration tokens again
  | some _ => expressionStatement tokens again

/-- A statement. -/
def statement : Action Ast :=
  nested (statementOf tokens again)

end

/-! ### Sources -/

section

variable (tokens : List Lexeme)

/-- The parsers with so many rounds. -/
def again : Nat → Again
  | 0 => ⟨0, unfinished, unfinished, unfinished, fun _ => unfinished⟩
  | rounds + 1 =>
    let inner := again rounds
    ⟨rounds + 1, statement tokens inner, expression tokens inner, unary tokens inner,
      binary tokens inner⟩

/-- Statements up to the end of the tokens. -/
def statementsToEnd (inner : Again) : Nat → Action (List Ast)
  | 0 => unfinished
  | rounds + 1 => do
    if (← peek? tokens) = none then return []
    let first ← statement tokens inner
    let later ← statementsToEnd inner rounds
    return first :: later

/-- The tree of a source, with so many rounds for what nests and one more for the statements. -/
def sourceFile (rounds size : Nat) : Except Stop Ast := do
  let (statements, _) ← statementsToEnd tokens (again tokens rounds) (rounds + 1) {}
  return {
    kind := .sourceFile
    fullStart := 0
    start := (tokens.head?.map (·.start)).getD size
    stop := size
    children := statements }

end

end Transcode.Script.Indexed
