import Transcode.Script.Kind
import Transcode.Text.Slice

namespace Transcode.Script

open Text

/-!
# Canonical text

What is left of a syntax tree without its offsets is its *shape*: the kinds of its nodes and the
texts of its leaves.  A shape has one canonical text, made of words with single spaces in
between: every variable statement is a `let`, every statement that may end with a semicolon
does, commas stand between the items of a list only, and every `new` has its arguments.
-/

/-! ### Shapes -/

/-- A syntax tree without offsets.  Only leaves have a text. -/
inductive Shape
  | node (kind : Kind) (text : String) (children : List Shape)
  deriving Repr

mutual

/-- The shape of a syntax tree of `source`. -/
def shape (source : String) : Ast → Shape
  | ⟨kind, _, start, stop, children⟩ =>
    .node kind (if kind.leaf?.isSome then slice source start stop else "") (shapes source children)

/-- The shapes of some syntax trees. -/
def shapes (source : String) : List Ast → List Shape
  | [] => []
  | n :: rest => shape source n :: shapes source rest

end

theorem shapes_eq_map (source : String) (ns : List Ast) :
    shapes source ns = ns.map (shape source) := by
  induction ns with
  | nil => rfl
  | cons n ns ih => rw [shapes, ih, List.map_cons]

/-- The shape of a node is made of its kind, its text if it is a leaf, and its children. -/
theorem shape_eq (source : String) (n : Ast) :
    shape source n = .node n.kind (if n.kind.leaf?.isSome then slice source n.start n.stop else "")
      (n.children.map (shape source)) := by
  obtain ⟨kind, fullStart, start, stop, children⟩ := n
  rw [shape, shapes_eq_map]

/-! ### Words -/

/-- A token with its text. -/
structure Word where
  token : Token
  text : String
  deriving DecidableEq, Repr

/-- The word of a token that has only one spelling. -/
def mark (t : Token) : Word :=
  ⟨t, String.ofList (t.spelling?.getD [])⟩

/-- Words with commas between the parts. -/
def commaSeparated (parts : List (List Word)) : List Word :=
  [mark .comma].intercalate parts

/-- The words of a node that is no leaf, given those of its children. -/
def layout : Kind → List (List Word) → List Word
  | .block, parts => mark .leftBrace :: parts.flatten ++ [mark .rightBrace]
  | .expressionStatement, parts => parts.flatten ++ [mark .semicolon]
  | .variableStatement, parts => mark .letKeyword :: commaSeparated parts ++ [mark .semicolon]
  | .variableDeclaration, [name, value] => name ++ mark .assign :: value
  | .ifStatement, [condition, body] =>
    mark .ifKeyword :: mark .leftParen :: condition ++ mark .rightParen :: body
  | .ifStatement, [condition, body, other] =>
    mark .ifKeyword :: mark .leftParen :: condition ++ mark .rightParen :: body
      ++ mark .elseKeyword :: other
  | .whileStatement, [condition, body] =>
    mark .whileKeyword :: mark .leftParen :: condition ++ mark .rightParen :: body
  | .returnStatement, parts => mark .returnKeyword :: parts.flatten ++ [mark .semicolon]
  | .functionDeclaration, name :: rest =>
    mark .functionKeyword :: name ++ mark .leftParen :: commaSeparated rest.dropLast
      ++ mark .rightParen :: rest.getLast?.getD []
  | .callExpression, callee :: args =>
    callee ++ mark .leftParen :: commaSeparated args ++ [mark .rightParen]
  | .newExpression, callee :: args =>
    mark .newKeyword :: callee ++ mark .leftParen :: commaSeparated args ++ [mark .rightParen]
  | .propertyAccess, [object, name] => object ++ mark .dot :: name
  | .objectLiteral, parts => mark .leftBrace :: commaSeparated parts ++ [mark .rightBrace]
  | .propertyAssignment, [key, value] => key ++ mark .colon :: value
  | .arrayLiteral, parts => mark .leftBracket :: commaSeparated parts ++ [mark .rightBracket]
  | .parenthesized, parts => mark .leftParen :: parts.flatten ++ [mark .rightParen]
  | _, parts => parts.flatten

mutual

/-- The words of a shape. -/
def words : Shape → List Word
  | .node kind text children =>
    match kind.leaf? with
    | some t => [⟨t, text⟩]
    | none => layout kind (wordsOfAll children)

/-- The words of each of some shapes. -/
def wordsOfAll : List Shape → List (List Word)
  | [] => []
  | s :: rest => words s :: wordsOfAll rest

end

theorem wordsOfAll_eq_map (ss : List Shape) : wordsOfAll ss = ss.map words := by
  induction ss with
  | nil => rfl
  | cons s ss ih => rw [wordsOfAll, ih, List.map_cons]

theorem words_of_leaf {kind : Kind} {text : String} {children : List Shape} {t : Token}
    (h : kind.leaf? = some t) : words (.node kind text children) = [⟨t, text⟩] := by
  rw [words, h]

theorem words_of_branch {kind : Kind} {text : String} {children : List Shape}
    (h : kind.leaf? = none) :
    words (.node kind text children) = layout kind (children.map words) := by
  rw [words, h, wordsOfAll_eq_map]

/-- The canonical text of a shape. -/
def canonicalText (s : Shape) : String :=
  " ".intercalate ((words s).map (·.text))

end Transcode.Script
