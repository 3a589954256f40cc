namespace Transcode.Record

/-!
# JSON values, as far as records need them

The records that are read from JSON hold texts, names and natural numbers.  So a number is
kept only when it is written with digits alone, and every other number is just a number.
A string is kept with the text it denotes; one that escapes half of a surrogate pair is well
formed but denotes no text.
-/

/-- A JSON value. -/
inductive Value
  | null
  | bool (b : Bool)
  /-- A number written with digits alone. -/
  | natural (n : Nat)
  /-- A number with a sign, a fraction or an exponent. -/
  | otherNumber
  | string (text : Option String)
  | array (items : List Value)
  | object (fields : List (Option String × Value))
  deriving Repr

/-- The fields of a record, whose fields have the given names in this order: an object names its
    fields, and an array has as many of them as it has items, from the first one on.  A key that
    denotes no text names no field of anything, and there is no field for one item too many. -/
def Value.fields? (names : List String) : Value → Option (List (String × Value))
  | .object fields => fields.mapM fun field => field.1.map (·, field.2)
  | .array items => if items.length ≤ names.length then some (names.zip items) else none
  | _ => none

/-- What a name stands for in a list of fields. -/
inductive Field
  | absent
  | once (v : Value)
  | repeated

/-- Look a name up. -/
def field (fields : List (String × Value)) (name : String) : Field :=
  match fields.filter (·.1 == name) with
  | [] => .absent
  | [(_, v)] => .once v
  | _ => .repeated

/-- The text of a value that is a text. -/
def Value.text? : Value → Option String
  | .string text => text
  | _ => none

/-- The name of a choice: a text, or an object that holds nothing but `null` under that name. -/
def Value.choice? : Value → Option String
  | .string text => text
  | .object [(name, .null)] => name
  | _ => none

/-- The number of a value that is a natural number of at most 64 bits. -/
def Value.word? : Value → Option Nat
  | .natural n => if n < UInt64.size then some n else none
  | _ => none

/-- A field that has to be there, once, and to be read by `read`. -/
def required {α : Type} (fields : List (String × Value)) (name : String)
    (read : Value → Option α) : Option α :=
  match field fields name with
  | .once v => read v
  | _ => none

/-- A field that may be missing, for which `default` stands in. -/
def optional {α : Type} (fields : List (String × Value)) (name : String)
    (read : Value → Option α) (default : α) : Option α :=
  match field fields name with
  | .once v => read v
  | .absent => some default
  | .repeated => none

end Transcode.Record
