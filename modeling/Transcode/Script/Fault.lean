import Transcode.Fault
import Transcode.Script.Token

namespace Transcode.Script

/-!
# Errors of the script language

A source is refused for four reasons: characters that make no token, a token that does not
belong where it stands, an end too early, and nesting too deep.
-/

/-- What the grammar would have taken. -/
inductive Expectation
  | token (t : Token)
  | statement
  | expression
  | identifier
  | propertyName
  deriving DecidableEq, Repr

/-- How an expectation is named. -/
def Expectation.describe : Expectation → String
  | .token t => t.describe
  | .statement => "statement"
  | .expression => "expression"
  | .identifier => "identifier"
  | .propertyName => "property name"

/-- Why a source is refused. -/
inductive SourceError
  /-- The characters from `start` to `stop` make no token. -/
  | invalidToken (start stop : Nat)
  /-- The token with text `found` stands at `offset` in place of something else. -/
  | unexpected (expected : Expectation) (found : String) (offset : Nat)
  /-- The source ends where something else was expected. -/
  | unexpectedEnd (expected : Expectation)
  /-- Statements or expressions nest too deep. -/
  | tooDeep (fault : Fault)
  deriving DecidableEq, Repr

/-- The text of an error. -/
def SourceError.message : SourceError → String
  | .invalidToken start stop => "invalid token at " ++ toString start ++ ".." ++ toString stop
  | .unexpected expected found offset =>
    "expected " ++ expected.describe ++ ", found " ++ found ++ " at " ++ toString offset
  | .unexpectedEnd expected => "expected " ++ expected.describe ++ ", found EOF"
  | .tooDeep fault => fault.message

end Transcode.Script
