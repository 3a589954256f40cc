import Transcode.Node
import Transcode.Script.Token

namespace Transcode.Script

/-!
# The syntax tree of the script language

The kinds of nodes, each with a name to show.  An operator is a node of its own that knows its
token; in a tree made by hand it may lack one.
-/

/-- The kind of a syntax node. -/
inductive Kind
  | sourceFile
  | block
  | expressionStatement
  | variableStatement
  | variableDeclaration
  | ifStatement
  | whileStatement
  | returnStatement
  | functionDeclaration
  | parameter
  | callExpression
  | newExpression
  | propertyAccess
  | objectLiteral
  | propertyAssignment
  | arrayLiteral
  | binaryExpression
  | prefixUnary
  | parenthesized
  | identifier
  | thisKeyword
  | stringLiteral
  | numericLiteral
  | trueKeyword
  | falseKeyword
  | emptyStatement
  | operator (token : Option Token)
  deriving DecidableEq, Repr, Inhabited

namespace Kind

/-- The kinds with their names; an operator is there without its token. -/
def names : List (Kind × String) :=
  [(sourceFile, "SourceFile"), (block, "Block"), (expressionStatement, "ExpressionStatement"),
   (variableStatement, "VariableStatement"), (variableDeclaration, "VariableDeclaration"),
   (ifStatement, "IfStatement"), (whileStatement, "WhileStatement"),
   (returnStatement, "ReturnStatement"), (functionDeclaration, "FunctionDeclaration"),
   (parameter, "Parameter"), (callExpression, "CallExpression"),
   (newExpression, "NewExpression"), (propertyAccess, "PropertyAccessExpression"),
   (objectLiteral, "ObjectLiteralExpression"), (propertyAssignment, "PropertyAssignment"),
   (arrayLiteral, "ArrayLiteralExpression"), (binaryExpression, "BinaryExpression"),
   (prefixUnary, "PrefixUnaryExpression"), (parenthesized, "ParenthesizedExpression"),
   (identifier, "Identifier"), (thisKeyword, "ThisKeyword"), (stringLiteral, "StringLiteral"),
   (numericLiteral, "NumericLiteral"), (trueKeyword, "TrueKeyword"),
   (falseKeyword, "FalseKeyword"), (emptyStatement, "EmptyStatement"),
   (operator none, "Token")]

/-- The kind without what depends on the node. -/
def withoutToken : Kind → Kind
  | operator _ => operator none
  | k => k

/-- The name of a kind. -/
def name (k : Kind) : String :=
  (names.lookup k.withoutToken).getD ""

/-- The kind with a given name; an operator comes without a token. -/
def ofName? (s : String) : Option Kind :=
  (names.find? (·.2 == s)).map (·.1)

/-- Every kind is found under its name. -/
theorem ofName?_name (k : Kind) : ofName? k.name = some k.withoutToken := by
  cases k with
  | operator _ =>
    show ofName? (operator none).name = some (operator none)
    decide +kernel
  | _ => decide +kernel

/-- The token of a kind of leaf: a node that is a single token. -/
def leaf? : Kind → Option Token
  | .identifier => some .ident
  | .thisKeyword => some .thisKeyword
  | .stringLiteral => some .string
  | .numericLiteral => some .number
  | .trueKeyword => some .trueKeyword
  | .falseKeyword => some .falseKeyword
  | .emptyStatement => some .semicolon
  | .operator token => token
  | _ => none

end Kind

instance : Named Kind := ⟨Kind.name⟩

/-- A node of the syntax tree. -/
abbrev Ast := Node Kind

/-- The token of an operator node. -/
def operatorOf (n : Ast) : Option Token :=
  match n.kind with
  | .operator token => token
  | _ => none

end Transcode.Script
