import Transcode.Record.Token
import Transcode.Record.Value

namespace Transcode.Record

/-!
# Reading a JSON text

The tokens of a text make at most one value.  The reader keeps the arrays and objects that
are open in a list, the innermost first, so that nesting costs no recursion.
-/

/-- An array or object that is open, with what it holds so far in reverse. -/
inductive Open
  | array (items : List Value)
  /-- The field named `key` is being read. -/
  | object (fields : List (Option String × Value)) (key : Option String)

mutual

/-- Read on where a value has to stand. -/
def awaitValue (outer : List Open) : List Token → Option Value
  | .null :: rest => afterValue .null outer rest
  | .bool b :: rest => afterValue (.bool b) outer rest
  | .natural n :: rest => afterValue (.natural n) outer rest
  | .otherNumber :: rest => afterValue .otherNumber outer rest
  | .string text :: rest => afterValue (.string text) outer rest
  | .openArray :: .closeArray :: rest => afterValue (.array []) outer rest
  | .openArray :: rest => awaitValue (.array [] :: outer) rest
  | .openObject :: .closeObject :: rest => afterValue (.object []) outer rest
  | .openObject :: .string key :: .colon :: rest => awaitValue (.object [] key :: outer) rest
  | _ => none

/-- Read on after a value. -/
def afterValue (v : Value) : List Open → List Token → Option Value
  | [], [] => some v
  | .array items :: outer, .comma :: rest => awaitValue (.array (v :: items) :: outer) rest
  | .array items :: outer, .closeArray :: rest =>
    afterValue (.array (v :: items).reverse) outer rest
  | .object fields key :: outer, .comma :: .string key' :: .colon :: rest =>
    awaitValue (.object ((key, v) :: fields) key' :: outer) rest
  | .object fields key :: outer, .closeObject :: rest =>
    afterValue (.object ((key, v) :: fields).reverse) outer rest
  | _, _ => none

end

/-- The value that a text denotes. -/
def Value.ofText? (text : String) : Option Value :=
  (tokens? text.toList).bind (awaitValue [])

end Transcode.Record
