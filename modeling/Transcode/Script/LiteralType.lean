import Transcode.Script.Kind

namespace Transcode.Script

/-!
# Types of literals

The types of literals and of the expressions made directly from them.  Where the type of an
operand is not known, that of the expression may still be: a comparison is boolean whatever it
compares, and what is added to a string becomes one.
-/

/-- The type of a value. -/
inductive LiteralType
  | string
  | number
  | boolean
  deriving DecidableEq, Repr

namespace LiteralType

/-- The name of a type. -/
def name : LiteralType → String
  | string => "String"
  | number => "Number"
  | boolean => "Boolean"

/-- The type of an expression with a prefix operator. -/
def ofPrefix? : Token → Option LiteralType
  | .bang => some boolean
  | .minus => some number
  | _ => none

/-- The type of an expression with a binary operator, from the types of its operands. -/
def ofBinary? (operator : Token) (left right : Option LiteralType) : Option LiteralType :=
  if operator.precedence?.any (· ≤ 4) then some boolean
  else if operator = .plus ∧ (left = some string ∨ right = some string) then some string
  else if operator = .assign then right
  else if left = some number ∧ right = some number then some number
  else none

/-- The type of an expression, if its literals tell. -/
def ofNode? : Ast → Option LiteralType
  | ⟨.stringLiteral, _, _, _, _⟩ => some string
  | ⟨.numericLiteral, _, _, _, _⟩ => some number
  | ⟨.trueKeyword, _, _, _, _⟩ => some boolean
  | ⟨.falseKeyword, _, _, _, _⟩ => some boolean
  | ⟨.parenthesized, _, _, _, inner :: _⟩ => ofNode? inner
  | ⟨.prefixUnary, _, _, _, operator :: _⟩ => (operatorOf operator).bind ofPrefix?
  | ⟨.binaryExpression, _, _, _, [left, operator, right]⟩ =>
    (operatorOf operator).bind fun t => ofBinary? t (ofNode? left) (ofNode? right)
  | _ => none

end LiteralType

end Transcode.Script
