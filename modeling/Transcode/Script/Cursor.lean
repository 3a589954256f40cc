import Transcode.Script.Fault
import Transcode.Script.Kind

namespace Transcode.Script

/-!
# Parsers over tokens

A parser reads from a cursor, the place between the tokens taken and the tokens to come.  It
fails with an error, or takes at least one token: what it returns holds a proof that fewer
tokens are left.  That proof is what ends every loop of the grammar.

The combinators here are all that the grammar is made of.
-/

/-- A place in a list of tokens. -/
structure Cursor where
  /-- Where the last token taken ends. -/
  before : Nat := 0
  /-- The tokens to come. -/
  rest : List Lexeme
  deriving DecidableEq, Repr

/-- What a parser returns that began at `c`. -/
structure Parsed (c : Cursor) (α : Type) where
  value : α
  next : Cursor
  shorter : next.rest.length < c.rest.length

/-- A parser of `α`. -/
abbrev Parser (α : Type) := (c : Cursor) → Except SourceError (Parsed c α)

namespace Cursor

/-- The next token. -/
def peek? (c : Cursor) : Option Token :=
  c.rest.head?.map (·.token)

/-- The error that something else was expected here. -/
def unexpected (c : Cursor) (expected : Expectation) : SourceError :=
  match c.rest with
  | [] => .unexpectedEnd expected
  | lexeme :: _ => .unexpected expected lexeme.text lexeme.start

/-- Take the next token if it satisfies `p`. -/
def takeIf? (c : Cursor) (p : Token → Bool) : Option (Parsed c Token) :=
  match h : c.rest with
  | [] => none
  | lexeme :: rest =>
    if p lexeme.token then some ⟨lexeme.token, ⟨lexeme.stop, rest⟩, by simp [h]⟩ else none

/-- What is taken is the first token to come, and the others are left. -/
theorem takeIf?_eq_some {c : Cursor} {p : Token → Bool} {r : Parsed c Token}
    (h : c.takeIf? p = some r) :
    ∃ lexeme rest, c.rest = lexeme :: rest ∧ p lexeme.token = true ∧ r.value = lexeme.token
      ∧ r.next = ⟨lexeme.stop, rest⟩ := by
  unfold takeIf? at h
  split at h
  · exact nomatch h
  · rename_i lexeme rest hc
    split at h
    · rename_i hp
      cases h
      exact ⟨lexeme, rest, hc, hp, rfl, rfl⟩
    · exact nomatch h

/-- Take the next token if it is `t`. -/
def take? (c : Cursor) (t : Token) : Option (Parsed c Token) :=
  c.takeIf? (· == t)

/-- The node over the tokens from here up to `next`.  Its leading trivia begin where the token
    before it ends. -/
def nodeTo (c : Cursor) (next : Cursor) (kind : Kind) (children : List Ast) : Ast where
  kind := kind
  fullStart := c.before
  start := (c.rest.head?.map (·.start)).getD c.before
  stop := next.before
  children := children

end Cursor

namespace Parsed

variable {α β : Type} {c : Cursor}

/-- What is read first and what is read after it, as one. -/
def andThen (first : Parsed c α) (later : Parsed first.next β) : Parsed c β :=
  ⟨later.value, later.next, Nat.lt_trans later.shorter first.shorter⟩

/-- The same with another value. -/
def map (f : α → β) (r : Parsed c α) : Parsed c β :=
  ⟨f r.value, r.next, r.shorter⟩

/-- The node over all that was read. -/
def node (r : Parsed c (List Ast)) (kind : Kind) : Parsed c Ast :=
  ⟨c.nodeTo r.next kind r.value, r.next, r.shorter⟩

/-- Take a token of kind `t` as well, if it comes next. -/
def skip (r : Parsed c α) (t : Token) : Parsed c α :=
  match r.next.take? t with
  | some taken => (r.andThen taken).map fun _ => r.value
  | none => r

end Parsed

namespace Parser

variable {α β : Type}

/-- Take the token `t`. -/
def token (t : Token) : Parser Token := fun c =>
  match c.take? t with
  | some taken => .ok taken
  | none => .error (c.unexpected (.token t))

/-- Take any of the tokens that `kinds` lists, as a leaf of the kind given there. -/
def leaf (kinds : List (Token × Kind)) (expected : Expectation) : Parser Ast := fun c =>
  match c.takeIf? fun t => (kinds.lookup t).isSome with
  | some taken =>
    .ok ((taken.map fun _ => []).node ((kinds.lookup taken.value).getD .identifier))
  | none => .error (c.unexpected expected)

/-- Take a token that satisfies `p` as an operator node, together with the token. -/
def operator? (p : Token → Bool) (c : Cursor) : Option (Parsed c (Token × Ast)) :=
  (c.takeIf? p).map fun taken =>
    taken.map fun t => (t, c.nodeTo taken.next (.operator (some t)) [])

/-- One parser after the other; the second may depend on what the first read. -/
def bind (p : Parser α) (q : α → Parser β) : Parser β := fun c => do
  let first ← p c
  let later ← q first.value first.next
  return first.andThen later

/-- Two parsers, of which the second one's value counts. -/
def keepRight (p : Parser α) (q : Parser β) : Parser β :=
  p.bind fun _ => q

/-- Two parsers, of which the first one's value counts. -/
def keepLeft (p : Parser α) (q : Parser β) : Parser α := fun c => do
  let first ← p c
  let later ← q first.next
  return (first.andThen later).map fun _ => first.value

/-- The same with another value. -/
def map (f : α → β) (p : Parser α) : Parser β := fun c => do
  return (← p c).map f

/-- The node over what a parser reads, with its value as children. -/
def node (kind : Kind) (p : Parser (List Ast)) : Parser Ast := fun c => do
  return (← p c).node kind

/-- A parser and, if token `t` comes next, another one after the token, whose values are added. -/
def orMore (p : Parser (List α)) (t : Token) (q : Parser (List α)) : Parser (List α) := fun c => do
  let first ← p c
  match first.next.take? t with
  | none => return first
  | some taken =>
    let later ← q taken.next
    return ((first.andThen taken).andThen later).map (first.value ++ ·)

/-- A parser with an optional token after it. -/
def skip (p : Parser α) (t : Token) : Parser α := fun c => do
  return (← p c).skip t

/-! ### Loops -/

/-- Items up to the token `close`, which is taken. -/
def itemsUntil (close : Token) (item : Parser α) (c : Cursor) :
    Except SourceError (Parsed c (List α)) :=
  match c.take? close with
  | some taken => .ok (taken.map fun _ => [])
  | none => do
    let first ← item c
    have := first.shorter
    let later ← itemsUntil close item first.next
    return (first.andThen later).map (first.value :: ·)
termination_by c.rest.length

/-- Items with commas in between up to the token `close`, which is taken.  A comma may stand
    after the last item. -/
def commaItemsUntil (close : Token) (item : Parser α) (c : Cursor) :
    Except SourceError (Parsed c (List α)) :=
  match c.take? close with
  | some taken => .ok (taken.map fun _ => [])
  | none => do
    let first ← item c
    match first.next.take? .comma with
    | some comma =>
      have := Nat.lt_trans comma.shorter first.shorter
      let later ← commaItemsUntil close item comma.next
      return ((first.andThen comma).andThen later).map (first.value :: ·)
    | none =>
      let closing ← token close first.next
      return (first.andThen closing).map fun _ => [first.value]
termination_by c.rest.length

/-- Items with commas in between, at least one. -/
def commaItems (item : Parser α) (c : Cursor) : Except SourceError (Parsed c (List α)) := do
  let first ← item c
  match first.next.take? .comma with
  | some comma =>
    have := Nat.lt_trans comma.shorter first.shorter
    let later ← commaItems item comma.next
    return ((first.andThen comma).andThen later).map (first.value :: ·)
  | none => return first.map ([·])
termination_by c.rest.length

/-- A delimited list: `open`, items with commas in between, `close`. -/
def delimited (opening closing : Token) (item : Parser α) : Parser (List α) :=
  (token opening).keepRight (commaItemsUntil closing item)

/-- Items up to the end of the tokens. -/
def itemsToEnd (item : Parser α) (c : Cursor) : Except SourceError (List α) :=
  match c.rest with
  | [] => .ok []
  | _ :: _ => do
    let first ← item c
    have := first.shorter
    return first.value :: (← itemsToEnd item first.next)
termination_by c.rest.length

end Parser

end Transcode.Script
