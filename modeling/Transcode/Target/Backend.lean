import Transcode.Engine.Lists
import Transcode.Engine.Run
import Transcode.Target.Naming
import Transcode.Script.Grammar
import Transcode.Script.LiteralType
import Transcode.Trivia.Comment

namespace Transcode.Target

open Output Engine Script

/-!
# Scripts in Python

The backend that writes a script in Python.  Names become snake case, comments become `#`
comments, blocks become indented suites, and an object that is the last argument of a call
becomes keyword arguments.  Loops with `while` are left to the engine's rule for unknown nodes.
-/

/-- Spaces by which a suite, and a list over several lines, is indented. -/
def indentWidth : Int := 4

/-! ### Context -/

/-- What a parent tells the nodes below it. -/
structure Context where
  /-- The next object is written as keyword arguments. -/
  keywordArgs : Bool := false
  /-- Inside the body of a function. -/
  inFunction : Bool := false
  deriving DecidableEq, Repr

namespace Context

/-- For a value of its own. -/
def value : Context := {}

/-- For an object that becomes keyword arguments. -/
def keywords : Context := { keywordArgs := true }

/-- For the body of a function. -/
def body : Context := { inFunction := true }

/-- Keyword arguments are for the next object alone, so they are as the update says; inside a
    function one stays inside. -/
def merge (old update : Context) : Context where
  keywordArgs := update.keywordArgs
  inFunction := old.inFunction || update.inFunction

end Context

/-- A program of this backend. -/
abbrev Writing := Task Kind Context

/-! ### Comments -/

/-- A line of a comment. -/
def commentLine (line : List Char) : String :=
  if line.isEmpty then "#\n" else "# " ++ String.ofList line ++ "\n"

/-- A comment of the script as comment lines. -/
def comment (source : String) (span : Trivia.Span) : Tree :=
  let body := Trivia.stripMarkers (span.textIn source) (span.kind == .blockComment)
  if body.isEmpty then .ofText "#\n"
  else .ofFragments ((Text.lines body.toList).map fun line => .text (commentLine line))

section

variable (job : Job)

/-! ### Suites and clauses -/

/-- A statement as an indented suite: the statements of a block, or the statement itself, and
    `pass` when they come to nothing. -/
def suite (statement : Ast) : Writing Tree := do
  let statements := if statement.kind = .block then statement.children else [statement]
  let lines ← joinWithBlankLines job.source statements
  return Tree.empty
    |>.withBody (if lines.isEmpty then [.text "pass"] else lines)
    |>.withNewline
    |>.withIndent indentWidth

/-- A conditional statement under a keyword, with the clauses that follow it. -/
def ifClause (keyword : String) : Ast → Writing (Option Tree)
  | ⟨_, _, _, _, condition :: branch :: rest⟩ => do
    let condition ← convertNode condition
    let branch ← suite job branch
    let later ← match rest with
      | [] => pure []
      | otherwise :: _ =>
        if otherwise.kind = .ifStatement then do
          let clause ← ifClause "elif" otherwise
          pure [.text "\n", (clause.getD .empty).toFragment]
        else do
          let otherwise ← suite job otherwise
          pure [.text "\nelse:", otherwise.toFragment]
    return some <| .ofFragments <|
      [.text keyword, .text " ", condition.toFragment, .text ":", branch.toFragment] ++ later
  | _ => pure none

/-! ### Calls and objects -/

/-- Convert arguments.  The last one, if it is an object, becomes keyword arguments. -/
def convertArguments : List Ast → Writing (List Tree)
  | [] => pure []
  | [last] => do
    let update := if last.kind = .objectLiteral then Context.keywords else Context.value
    return [← convertUnder update last]
  | argument :: rest => do
    let first ← convertUnder Context.value argument
    let later ← convertArguments rest
    return first :: later

/-- A call: what is called, and the arguments in parentheses. -/
def call : List Ast → Writing (Option Tree)
  | [] => pure none
  | callee :: arguments => do
    let callee ← convertUnder Context.value callee
    let arguments ← convertArguments arguments
    return some (Tree.ofFragments [callee.toFragment, .text "("]
      |>.withBody (fragmentsOf arguments)
      |>.withSeparator ", "
      |>.withIndent indentWidth
      |>.withSuffix ")"
      |>.withComments)

/-- A property as a keyword argument, on a new line if it was on one, comments included. -/
def keywordArgument (property : Ast) : Writing Tree := do
  let output ← convertNode property
  let leading := attachLeadingTrivia job.source property output
  let argument ← leading.mapRequests .comment
  let lead := echoBreak job.source (some property) ""
  return .ofFragments [.text lead, argument.toFragment]

/-- Properties as keyword arguments. -/
def keywordArguments : List Ast → Writing (List Tree)
  | [] => pure []
  | property :: rest => do
    let first ← keywordArgument job property
    let later ← keywordArguments rest
    return first :: later

/-- An object, as keyword arguments if the context says so and as a dictionary otherwise. -/
def object (n : Ast) : Writing (Option Tree) := do
  if (← Program.context).keywordArgs then
    let arguments ← keywordArguments job n.children
    return some (Tree.empty.withBody (fragmentsOf arguments) |>.withSeparator ", ")
  else
    let layout : Delimited Context :=
      { opening := "\x7b", closing := "\x7d", indent := indentWidth }
    return some (← convertDelimited job.source n n.children layout)

/-- A property, as a keyword argument or as an entry of a dictionary. -/
def property : List Ast → Writing (Option Tree)
  | [key, value] => do
    let value ← convertUnder Context.value value
    let name := key.textIn job.source
    let isString := key.kind = .stringLiteral
    if (← Program.context).keywordArgs then
      let name := snakeCase (if isString then unquote name else name)
      return some (.ofFragments [.text name, .text "=", value.toFragment])
    else
      let key := if isString then doubleQuoted name else "\"" ++ name ++ "\""
      return some (Tree.withComments (.ofFragments [.text key, .text ": ", value.toFragment]))
  | _ => pure none

/-- An array as a list. -/
def array (n : Ast) : Writing (Option Tree) := do
  let layout : Delimited Context :=
    { context := some Context.value, opening := "[", closing := "]", indent := indentWidth }
  return some (← convertDelimited job.source n n.children layout)

/-! ### Operators -/

/-- How a binary operator is written; `text` is its source text. -/
def binarySymbol (operator : Token) (text : String) : String :=
  match operator with
  | .strictEqual | .equal => "=="
  | .strictNotEqual | .notEqual => "!="
  | .andAnd => "and"
  | .orOr => "or"
  | _ => text

/-- Whether a value of one type has to be made a string before it is added to one of another:
    strings are not added to numbers or truth values. -/
def needsString (self other : Option LiteralType) : Bool :=
  other == some .string && (self == some .number || self == some .boolean)

/-- An operand of an addition, made a string if need be. -/
def asString (needed : Bool) (operand : Tree) : Tree :=
  if needed then .ofFragments [.text "str(", operand.toFragment, .text ")"] else operand

/-- A binary expression. -/
def binary : List Ast → Writing (Option Tree)
  | [left, operator, right] =>
    match operatorOf operator with
    | none => pure none
    | some token => do
      let symbol := binarySymbol token (operator.textIn job.source)
      let leftType := if token = .plus then LiteralType.ofNode? left else none
      let rightType := if token = .plus then LiteralType.ofNode? right else none
      let leftTree ← convertNode left
      let rightTree ← convertNode right
      return some (.ofFragments
        [(asString (needsString leftType rightType) leftTree).toFragment, .text " ", .text symbol,
         .text " ", (asString (needsString rightType leftType) rightTree).toFragment])
  | _ => pure none

/-- An expression with a prefix operator. -/
def prefixed : List Ast → Writing (Option Tree)
  | [operator, operand] =>
    match operatorOf operator with
    | none => pure none
    | some token => do
      let symbol := if token = .bang then "not " else operator.textIn job.source
      let operand ← convertNode operand
      return some (.ofFragments [.text symbol, operand.toFragment])
  | _ => pure none

/-- A property of an object; the console's `log` is `print`. -/
def access (n : Ast) : Writing (Option Tree) :=
  if n.textIn job.source = "console.log" then pure (some (.ofText "print"))
  else
    match n.children with
    | [object, name] => do
      let object ← convertUnder Context.value object
      let name ← convertNode name
      return some (.ofFragments [object.toFragment, .text ".", name.toFragment])
    | _ => pure none

/-! ### Statements -/

/-- A name and its value, which is `None` if there is no other. -/
def declaration : List Ast → Writing (Option Tree)
  | [] => pure none
  | name :: rest => do
    let name ← convertNode name
    let value ← match rest with
      | [] => pure (Tree.ofText "None")
      | init :: _ => convertUnder Context.value init
    return some (.ofFragments [name.toFragment, .text " = ", value.toFragment])

/-- A `return`, which does not belong outside functions. -/
def returned (n : Ast) : Writing (Option Tree) := do
  if !(← Program.context).inFunction then
    reportAt n .warning "`return` outside of a function"
  let value ← match n.children with
    | [] => pure Tree.empty
    | value :: _ => do
      let value ← convertUnder Context.value value
      pure (Tree.ofFragments [.text " ", value.toFragment])
  return some (Tree.withComments (.ofFragments [.text "return", value.toFragment]))

/-- A function: its name, its parameters and the suite of its body. -/
def function : List Ast → Writing (Option Tree)
  | name :: p :: more => do
    let parameters ← convertAll (p :: more).dropLast
    let parameters := Tree.empty.withBody (fragmentsOf parameters) |>.withSeparator ", "
    let body ← Program.under Context.body (suite job ((p :: more).getLast (by simp)))
    let name ← convertNode name
    return some (Tree.withComments (.ofFragments
      [.text "def ", name.toFragment, .text "(", parameters.toFragment, .text "):",
       body.toFragment]))
  | _ => pure none

/-- The first node of a list, converted, in `f`. -/
def withFirst (f : Tree → Tree) : List Ast → Writing (Option Tree)
  | [] => pure none
  | n :: _ => do return some (f (← convertNode n))

/-! ### The backend -/

/-- What a node becomes. -/
def handle (n : Ast) : Writing (Option Tree) :=
  let children := n.children
  match n.kind with
  | .sourceFile => do return some (.ofFragments (← joinWithBlankLines job.source children))
  | .block => do
    return some (Tree.withComments (.ofFragments (← joinWithBlankLines job.source children)))
  | .expressionStatement =>
    withFirst (fun e => Tree.withComments (.ofFragments [e.toFragment])) children
  | .variableStatement => do
    let declarations ← convertAll children
    return some (Tree.empty.withBody (fragmentsOf declarations)
      |>.withSeparator "\n"
      |>.withComments)
  | .variableDeclaration => declaration children
  | .ifStatement => do return (← ifClause job "if" n).map Tree.withComments
  | .whileStatement => pure none
  | .returnStatement => returned n
  | .functionDeclaration => function job children
  | .parameter => withFirst id children
  | .callExpression => call children
  | .newExpression => call children
  | .propertyAccess => access job n
  | .objectLiteral => object job n
  | .propertyAssignment => property job children
  | .arrayLiteral => array job n
  | .binaryExpression => binary job children
  | .prefixUnary => prefixed job children
  | .parenthesized =>
    withFirst (fun e => .ofFragments [.text "(", e.toFragment, .text ")"]) children
  | .identifier => pure (some (Tree.ofText (snakeCase (n.textIn job.source))).withComments)
  | .thisKeyword => pure (some (.ofText "self"))
  | .stringLiteral => pure (some (Tree.ofText (doubleQuoted (n.textIn job.source))).withComments)
  | .numericLiteral => pure (some (Tree.ofText (n.textIn job.source)).withComments)
  | .trueKeyword => pure (some (.ofText "True"))
  | .falseKeyword => pure (some (.ofText "False"))
  | .emptyStatement => pure (some .empty)
  | .operator _ => pure none

end

/-- The backend that writes Python. -/
def backend : Backend Kind Context where
  initial := {}
  merge := Context.merge
  comment := fun job span => pure (comment job.source span)
  handler := handle

end Transcode.Target
