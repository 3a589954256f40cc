import Transcode.Script.Chain
import Transcode.Script.Cursor
import Transcode.Script.Lexer

namespace Transcode.Script

/-!
# The grammar of the script language

Statements, expressions and prefix expressions nest, and only so deep.  The three parsers for
them are built level by level: those with `n + 1` levels left are written in terms of those
with `n` left, and with none left they refuse.  All else in the grammar is a parser that is
given the three of the level below, so the grammar needs no recursion of its own but the loops
over tokens.
-/

/-- The parsers of what nests. -/
structure Nested where
  statement : Parser Ast
  expression : Parser Ast
  /-- An operand of binary operators. -/
  unary : Parser Ast

/-- How deep statements and expressions may nest. -/
def maxNesting : Nat := 128

open Transcode.Script.Parser

/-! ### Leaves -/

/-- A name. -/
def identifier : Parser Ast :=
  leaf [(.ident, .identifier)] .identifier

/-- The expressions of a single token. -/
def atoms : List (Token × Kind) :=
  [(.ident, .identifier), (.thisKeyword, .thisKeyword), (.number, .numericLiteral),
   (.string, .stringLiteral), (.trueKeyword, .trueKeyword), (.falseKeyword, .falseKeyword)]

/-- What may stand for the name of a property. -/
def propertyNames : List (Token × Kind) :=
  [(.ident, .identifier), (.string, .stringLiteral)]

/-- The name of a property in an object literal. -/
def propertyName : Parser Ast :=
  leaf propertyNames .propertyName

/-- A parameter of a function. -/
def parameter : Parser Ast :=
  node .parameter (identifier.map ([·]))

/-! ### Expressions -/

section

variable (inner : Nested)

/-- The arguments of a call. -/
def arguments : Parser (List Ast) :=
  delimited .leftParen .rightParen inner.expression

/-- An expression in parentheses. -/
def parenthesized : Parser Ast :=
  node .parenthesized <|
    (((token .leftParen).keepRight inner.expression).keepLeft (token .rightParen)).map ([·])

/-- A name or string, a colon and a value. -/
def propertyAssignment : Parser Ast :=
  node .propertyAssignment <|
    (propertyName.keepLeft (token .colon)).bind fun key => inner.expression.map ([key, ·])

/-- Properties in braces. -/
def objectLiteral : Parser Ast :=
  node .objectLiteral <| delimited .leftBrace .rightBrace (propertyAssignment inner)

/-- Expressions in brackets. -/
def arrayLiteral : Parser Ast :=
  node .arrayLiteral <| delimited .leftBracket .rightBracket inner.expression

end

/-- The names after a name in a path `a.b.c`, each with a point before it; `base` is the path
    so far. -/
def memberPath {c : Cursor} (base : Parsed c Ast) : Except SourceError (Parsed c Ast) :=
  match base.next.take? .dot with
  | none => .ok base
  | some dot => do
    let name ← identifier dot.next
    have := Nat.lt_trans name.shorter dot.shorter
    memberPath
      ((((base.andThen dot).andThen name).map fun name => [base.value, name]).node .propertyAccess)
termination_by base.next.rest.length

section

variable (inner : Nested)

/-- `new`, a path of names, and arguments if there are any. -/
def newExpression : Parser Ast :=
  node .newExpression <| (token .newKeyword).keepRight fun c => do
    let callee ← memberPath (← identifier c)
    if callee.next.peek? = some .leftParen then
      let args ← arguments inner callee.next
      return (callee.andThen args).map (callee.value :: ·)
    else return callee.map ([·])

/-- An expression without operators. -/
def primary : Parser Ast := fun c =>
  match c.peek? with
  | some .leftParen => parenthesized inner c
  | some .leftBrace => objectLiteral inner c
  | some .leftBracket => arrayLiteral inner c
  | some .newKeyword => newExpression inner c
  | _ => leaf atoms .expression c

/-- The names and arguments after an expression; `base` is the expression so far. -/
def postfixFrom {c : Cursor} (base : Parsed c Ast) : Except SourceError (Parsed c Ast) :=
  match base.next.peek? with
  | some .dot => do
    let name ← (token .dot).keepRight identifier base.next
    have := name.shorter
    postfixFrom
      (((base.andThen name).map fun name => [base.value, name]).node .propertyAccess)
  | some .leftParen => do
    let args ← arguments inner base.next
    have := args.shorter
    postfixFrom (((base.andThen args).map (base.value :: ·)).node .callExpression)
  | _ => .ok base
termination_by base.next.rest.length

/-- An expression with the names and arguments after it. -/
def postfixExpression : Parser Ast := fun c => do
  postfixFrom inner (← primary inner c)

/-- The operators that may stand before an operand. -/
def isPrefixOperator (t : Token) : Bool :=
  t == .bang || t == .minus

/-- An operand: a prefix operator before another one, or an expression without operators. -/
def unaryExpression : Parser Ast := fun c =>
  match operator? isPrefixOperator c with
  | some operator => do
    let operand ← inner.unary operator.next
    return ((operator.andThen operand).map fun operand => [operator.value.2, operand]).node
      .prefixUnary
  | none => postfixExpression inner c

/-- The operators and operands after a chain. -/
def chainFrom {c : Cursor} (chain : Parsed c Chain) : Except SourceError (Parsed c Chain) :=
  match operator? (·.precedence?.isSome) chain.next with
  | none => .ok chain
  | some operator => do
    let right ← inner.unary operator.next
    have := Nat.lt_trans right.shorter operator.shorter
    chainFrom (((chain.andThen operator).andThen right).map
      (chain.value.push operator.value.2 (operator.value.1.precedence?.getD 0)))
termination_by chain.next.rest.length

/-- Operands with binary operators in between. -/
def binaryExpression : Parser Ast := fun c => do
  let first ← inner.unary c
  let chain ← chainFrom inner (first.map .operand)
  return chain.map Chain.toAst

/-- An expression: an assignment, which groups to the right, or a binary expression. -/
def assignment : Parser Ast := fun c => do
  let target ← binaryExpression inner c
  match operator? (· == .assign) target.next with
  | none => return target
  | some operator =>
    let value ← inner.expression operator.next
    return (((target.andThen operator).andThen value).map
      fun value => [target.value, operator.value.2, value]).node .binaryExpression

/-! ### Statements -/

/-- Statements in braces. -/
def block : Parser Ast :=
  node .block <| (token .leftBrace).keepRight (itemsUntil .rightBrace inner.statement)

/-- A name, and a value if there is one. -/
def variableDeclaration : Parser Ast :=
  node .variableDeclaration <|
    (identifier.map ([·])).orMore .assign (inner.expression.map ([·]))

/-- Declarations after a keyword. -/
def variableStatement (keyword : Token) : Parser Ast :=
  node .variableStatement <|
    ((token keyword).keepRight (commaItems (variableDeclaration inner))).skip .semicolon

/-- The condition of a statement, in parentheses. -/
def condition : Parser Ast :=
  ((token .leftParen).keepRight inner.expression).keepLeft (token .rightParen)

/-- The condition of a statement and the statement under it. -/
def conditional (keyword : Token) : Parser (List Ast) :=
  (token keyword).keepRight <| (condition inner).bind fun c => inner.statement.map ([c, ·])

/-- `if` with its branches. -/
def ifStatement : Parser Ast :=
  node .ifStatement <|
    (conditional inner .ifKeyword).orMore .elseKeyword (inner.statement.map ([·]))

/-- `while` with its body. -/
def whileStatement : Parser Ast :=
  node .whileStatement <| conditional inner .whileKeyword

/-- The value after `return`, unless the statement or its block ends there. -/
def returnClause : Parser (List Ast) := fun c => do
  let keyword ← token .returnKeyword c
  match keyword.next.peek? with
  | none | some .semicolon | some .rightBrace => return keyword.map fun _ => []
  | _ =>
    let value ← inner.expression keyword.next
    return (keyword.andThen value).map ([·])

/-- `return` with its value. -/
def returnStatement : Parser Ast :=
  node .returnStatement <| (returnClause inner).skip .semicolon

/-- A function with its name, its parameters and its body. -/
def functionDeclaration : Parser Ast :=
  node .functionDeclaration <| (token .functionKeyword).keepRight <| identifier.bind fun name =>
    (delimited .leftParen .rightParen parameter).bind fun params =>
      (block inner).map fun body => name :: params ++ [body]

/-- An expression as a statement. -/
def expressionStatement : Parser Ast :=
  node .expressionStatement <| (inner.expression.map ([·])).skip .semicolon

/-- A statement, told by its first token. -/
def statementOf : Parser Ast := fun c =>
  match c.peek? with
  | none => .error (c.unexpected .statement)
  | some .semicolon => leaf [(.semicolon, .emptyStatement)] .statement c
  | some .leftBrace => block inner c
  | some .constKeyword => variableStatement inner .constKeyword c
  | some .letKeyword => variableStatement inner .letKeyword c
  | some .varKeyword => variableStatement inner .varKeyword c
  | some .ifKeyword => ifStatement inner c
  | some .whileKeyword => whileStatement inner c
  | some .returnKeyword => returnStatement inner c
  | some .functionKeyword => functionDeclaration inner c
  | some _ => expressionStatement inner c

end

/-! ### Levels -/

/-- Nothing may nest any deeper. -/
def tooDeep : Parser Ast := fun _ =>
  .error (.tooDeep (.recursionLimit (maxNesting + 1) maxNesting))

/-- The parsers of what nests, with so many levels left. -/
def nested : Nat → Nested
  | 0 => ⟨tooDeep, tooDeep, tooDeep⟩
  | n + 1 =>
    let inner := nested n
    ⟨statementOf inner, assignment inner, unaryExpression inner⟩

/-! ### Sources -/

/-- The tree of a source given by its tokens. -/
def sourceFile (size : Nat) (lexemes : List Lexeme) : Except SourceError Ast := do
  let statements ← itemsToEnd (nested maxNesting).statement { rest := lexemes }
  return {
    kind := .sourceFile
    fullStart := 0
    start := (lexemes.head?.map (·.start)).getD size
    stop := size
    children := statements }

/-- The syntax tree of a source. -/
def parse (source : String) : Except SourceError Ast := do
  sourceFile source.utf8ByteSize (← lex source)

end Transcode.Script
