import Transcode.Text.Slice

namespace Transcode.Target

open Text

/-!
# Names and strings in Python

Names in camel case get an underscore at each hump and lose their capitals; a name that begins
with a capital is a class or a constant and stays.  Strings get double quotes.
-/

/-- Whether a hump begins at the capital between two characters: after a small letter or a
    digit, or after a capital and before a small letter. -/
def startsHump (before : Char) (after : Option Char) : Bool :=
  before.isLower || before.isDigit || (before.isUpper && after.any Char.isLower)

/-- The characters of a name after `before`, in snake case. -/
def snakeAfter (before : Char) : List Char → List Char
  | [] => []
  | c :: rest =>
    if c.isUpper then
      (if startsHump before rest.head? then ['_', c.toLower] else [c.toLower]) ++ snakeAfter c rest
    else c :: snakeAfter c rest

/-- A name in snake case.  A name that begins with a capital stays as it is. -/
def snakeCase (name : String) : String :=
  match name.toList with
  | [] => ""
  | c :: rest => if c.isUpper then name else String.ofList (c :: snakeAfter c rest)

/-- What stands between the quotes of a literal: all but its first and its last byte. -/
def unquote (literal : String) : String :=
  slice literal 1 (literal.utf8ByteSize - 1)

/-- Escape the double quotes of a string, and lift the escape from single ones. -/
def requote : List Char → List Char
  | [] => []
  | '\\' :: '\x27' :: rest => '\x27' :: requote rest
  | '"' :: rest => '\\' :: '"' :: requote rest
  | c :: rest => c :: requote rest

/-- A string literal with double quotes. -/
def doubleQuoted (literal : String) : String :=
  if literal.toList.head? = some '\x27' then
    "\"" ++ String.ofList (requote (unquote literal).toList) ++ "\""
  else literal

example : snakeCase "getHTTPServer" = "get_http_server" := by decide +kernel
example : snakeCase "MAX_SIZE" = "MAX_SIZE" := by decide +kernel
example : doubleQuoted "'it\\'s \"x\"'" = "\"it's \\\"x\\\"\"" := by decide +kernel

end Transcode.Target
