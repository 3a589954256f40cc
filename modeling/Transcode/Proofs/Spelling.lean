import Transcode.Proofs.Printing

namespace Transcode.Script

open Text

/-!
# Reading printed words

`Cursor.Prints` says that the tokens from one cursor up to another are spelled like some words.
What a rule of the grammar prints is taken apart here, so that no later proof looks at words one
by one.

The printed text of something need not go on like the source does: semicolons come in and
trailing commas go.  What matters is that it goes on with no token that belongs to what was
printed, unless the source does so too (`Follows`).
-/

variable {source source' : String} {c c' d d' : Cursor} {t : Token} {vs : List Ast} {k : Kind}
  {w : Word} {ws ws' : List Word} {s s' : Shape} {ss : List Shape}

/-! ### Reading words -/

namespace Cursor

/-- The next token is spelled like the word, and `c'` is the place after it. -/
def Spells (source : String) (c : Cursor) (w : Word) (c' : Cursor) : Prop :=
  ∃ l rest, c.rest = l :: rest ∧ l.token = w.token ∧ slice source l.start l.stop = w.text
    ∧ c' = ⟨l.stop, rest⟩

/-- The next tokens are spelled like the words, and `c'` is the place after them. -/
def Prints (source : String) : Cursor → List Word → Cursor → Prop
  | c, [], c' => c' = c
  | c, w :: ws, c' => ∃ m, c.Spells source w m ∧ m.Prints source ws c'

/-- A token that is spelled like a word is taken. -/
theorem Spells.takes (h : c.Spells source w c') : c.Takes w.token c' := by
  obtain ⟨l, rest, hrest, ht, -, rfl⟩ := h
  exact ⟨l, rest, hrest, ht, rfl⟩

/-- A leaf spelled like a word has its shape. -/
theorem Spells.shape (h : c.Spells source w c') (hk : k.leaf? = some w.token) :
    shape source (c.nodeTo c' k []) = .node k w.text [] := by
  obtain ⟨l, rest, hrest, -, hslice, rfl⟩ := h
  have hstart : (c.nodeTo ⟨l.stop, rest⟩ k []).start = l.start := by
    rw [nodeTo, hrest]
    rfl
  rw [shape_eq, hstart]
  show Shape.node k (if k.leaf?.isSome then slice source l.start l.stop else "") [] = _
  rw [hk, hslice]
  rfl

/-- Words are printed part by part. -/
theorem prints_append :
    c.Prints source (ws ++ ws') c' ↔ ∃ m, c.Prints source ws m ∧ m.Prints source ws' c' := by
  induction ws generalizing c with
  | nil =>
    constructor
    · intro h
      exact ⟨c, rfl, h⟩
    · rintro ⟨m, rfl, h⟩
      exact h
  | cons w ws ih =>
    constructor
    · rintro ⟨m, hw, h⟩
      obtain ⟨m', hws, hws'⟩ := ih.mp h
      exact ⟨m', ⟨m, hw, hws⟩, hws'⟩
    · rintro ⟨m', ⟨m, hw, hws⟩, hws'⟩
      exact ⟨m, hw, ih.mpr ⟨m', hws, hws'⟩⟩

/-- A mark before some words is taken before them. -/
theorem Prints.mark (h : c.Prints source (mark t :: ws) c') :
    ∃ m, c.Takes t m ∧ m.Prints source ws c' := by
  obtain ⟨m, ht, h⟩ := h
  exact ⟨m, ht.takes, h⟩

/-- One word is spelled by one token. -/
theorem Prints.singleton (h : c.Prints source [w] c') : c.Spells source w c' := by
  obtain ⟨m, hw, rfl⟩ := h
  exact hw

/-- A mark behind some words is taken after them. -/
theorem Prints.lastMark (h : c.Prints source (ws ++ [Script.mark t]) c') :
    ∃ m, c.Prints source ws m ∧ m.Takes t c' := by
  obtain ⟨m, hws, ht⟩ := prints_append.mp h
  exact ⟨m, hws, ht.singleton.takes⟩

/-- A leaf that is printed is read back. -/
theorem Prints.leaf (hk : k.leaf? = some t)
    (h : d.Prints source' (words (Script.shape source (c.nodeTo c' k []))) d') :
    d.Takes t d'
      ∧ Script.shape source' (d.nodeTo d' k []) = Script.shape source (c.nodeTo c' k []) := by
  obtain ⟨text, hshape, hwords⟩ := words_leaf source c c' hk
  rw [hwords] at h
  rw [hshape]
  exact ⟨h.singleton.takes, h.singleton.shape hk⟩

/-- What prints the words of a node prints those of its children as the node lays them out. -/
theorem Prints.node (vs : List Ast) (hk : k.leaf? = none)
    (h : d.Prints source' (words (.node k "" (shapes source vs))) d') :
    d.Prints source' (layout k ((vs.map (Script.shape source)).map words)) d' := by
  rwa [words_of_branch hk, shapes_eq_map] at h

end Cursor

/-- Tokens with the right texts are spelled like their words. -/
theorem prints_of_lexemes {ls : List Lexeme} {b : Nat}
    (h : ∀ l ∈ ls, slice source l.start l.stop = l.text) :
    ∃ c', Cursor.Prints source ⟨b, ls⟩ (ls.map fun l => ⟨l.token, l.text⟩) c' ∧ c'.rest = [] := by
  induction ls generalizing b with
  | nil => exact ⟨_, rfl, rfl⟩
  | cons l ls ih =>
    obtain ⟨hl, hls⟩ := List.forall_mem_cons.mp h
    obtain ⟨c', hprints, hend⟩ := ih hls
    exact ⟨c', ⟨_, ⟨l, ls, rfl, rfl, hl, rfl⟩, hprints⟩, hend⟩

/-! ### Taking apart what rules print -/

open Cursor

/-- What is printed of a first part and of those after it. -/
theorem prints_comma {part part' : List Word} {parts : List (List Word)}
    (h : d.Prints source' (commaSeparated (part :: part' :: parts)) d') :
    ∃ d₁ d₂, d.Prints source' part d₁ ∧ d₁.Takes .comma d₂
      ∧ d₂.Prints source' (commaSeparated (part' :: parts)) d' := by
  rw [commaSeparated_cons_cons] at h
  obtain ⟨d₁, hpart, h⟩ := prints_append.mp h
  obtain ⟨d₂, hcomma, hparts⟩ := h.mark
  exact ⟨d₁, d₂, hpart, hcomma, hparts⟩

/-- What is printed of a list of one item. -/
theorem prints_item {item : Item} {close : Token}
    (h : d.Prints source' (printed (.list item close) [s]) d') :
    ∃ d₁, d.Prints source' (printed item.symbol [s]) d₁ ∧ d₁.Takes close d' := by
  rw [printed, List.map_singleton, commaSeparated_singleton] at h
  rw [printed_item]
  exact h.lastMark

/-- What is printed of a list of several items. -/
theorem prints_items {item : Item} {close : Token}
    (h : d.Prints source' (printed (.list item close) (s :: s' :: ss)) d') :
    ∃ d₁ d₂, d.Prints source' (printed item.symbol [s]) d₁ ∧ d₁.Takes .comma d₂
      ∧ d₂.Prints source' (printed (.list item close) (s' :: ss)) d' := by
  -- The closing token is taken off to get at the parts, and put back to what is left of them.
  obtain ⟨m, hparts, hclose⟩ := prints_append.mp h
  obtain ⟨d₁, d₂, hs, hcomma, hrest⟩ := prints_comma hparts
  rw [printed_item]
  exact ⟨d₁, d₂, hs, hcomma, prints_append.mpr ⟨m, hrest, hclose⟩⟩

/-- What is printed of something with arguments. -/
theorem prints_arguments
    (h : d.Prints source' (ws ++ mark .leftParen :: commaSeparated (ss.map words)
      ++ [mark .rightParen]) d') :
    ∃ d₁ d₂, d.Prints source' ws d₁ ∧ d₁.Takes .leftParen d₂
      ∧ d₂.Prints source' (printed (.list .expression .rightParen) ss) d' := by
  rw [List.append_assoc] at h
  obtain ⟨d₁, hws, h⟩ := prints_append.mp h
  obtain ⟨d₂, hopen, h⟩ := h.mark
  exact ⟨d₁, d₂, hws, hopen, h⟩

/-- What is printed of a chain, the last operand of which is `s`. -/
theorem prints_chain (h : d.Prints source' (printed .chain (s :: s' :: ss)) d') :
    ∃ d₁ d₂, d.Prints source' (printed .chain ss) d₁ ∧ d₁.Prints source' (words s') d₂
      ∧ d₂.Prints source' (words s) d' := by
  simp only [printed, List.reverse_cons, List.flatMap_append, List.flatMap_singleton] at h
  obtain ⟨d₂, h, hs⟩ := prints_append.mp h
  obtain ⟨d₁, hss, hs'⟩ := prints_append.mp h
  exact ⟨d₁, d₂, hss, hs', hs⟩

/-- What is printed of the statements of a block. -/
theorem prints_statements (h : d.Prints source' (printed .statements (s :: ss)) d') :
    ∃ d₁, d.Prints source' (words s) d₁ ∧ d₁.Prints source' (printed .statements ss) d' := by
  rw [printed, List.flatMap_cons, List.append_assoc] at h
  exact prints_append.mp h

/-- What is printed of a condition and the statement under it. -/
theorem prints_conditional {keyword : Token}
    (h : d.Prints source' (mark keyword :: mark .leftParen :: ws ++ mark .rightParen :: ws') d') :
    ∃ d₁ d₂ d₃ d₄, d.Takes keyword d₁ ∧ d₁.Takes .leftParen d₂ ∧ d₂.Prints source' ws d₃
      ∧ d₃.Takes .rightParen d₄ ∧ d₄.Prints source' ws' d' := by
  obtain ⟨d₃, h, hbody⟩ := prints_append.mp h
  obtain ⟨d₁, hkeyword, h⟩ := h.mark
  obtain ⟨d₂, hopen, hws⟩ := h.mark
  obtain ⟨d₄, hclose, hws'⟩ := hbody.mark
  exact ⟨d₁, d₂, d₃, d₄, hkeyword, hopen, hws, hclose, hws'⟩

/-- What is printed of a function. -/
theorem prints_function {name body : Ast}
    (h : d.Prints source' (layout .functionDeclaration
      (((name :: vs ++ [body]).map (shape source)).map words)) d') :
    ∃ d₁ d₂ d₃ d₄, d.Takes .functionKeyword d₁ ∧ d₁.Prints source' (words (shape source name)) d₂
      ∧ d₂.Takes .leftParen d₃
      ∧ d₃.Prints source' (printed (.list .parameter .rightParen) (vs.map (shape source))) d₄
      ∧ d₄.Prints source' (words (shape source body)) d' := by
  have hwords : d.Prints source' ((mark .functionKeyword :: words (shape source name))
      ++ mark .leftParen :: (printed (.list .parameter .rightParen) (vs.map (shape source))
        ++ words (shape source body))) d' := by
    simpa [layout, printed] using h
  obtain ⟨d₂, hname, h⟩ := prints_append.mp hwords
  obtain ⟨d₁, hfunction, hname⟩ := hname.mark
  obtain ⟨d₃, hopen, h⟩ := h.mark
  obtain ⟨d₄, hparameters, hbody⟩ := prints_append.mp h
  exact ⟨d₁, d₂, d₃, d₄, hfunction, hname, hopen, hparameters, hbody⟩

/-! ### What comes after -/

/-- The tokens with which something that was derived may go on. -/
def goesOn (t : Token) : Bool :=
  t ∈ [Token.dot, .leftParen, .assign, .comma, .elseKeyword] || t.precedence?.isSome

/-- What comes next at `d` does not go on with what was derived, unless it does at `c`. -/
def Follows (c d : Cursor) : Prop :=
  ∀ t, goesOn t = true → d.peek? = some t → c.peek? = some t

/-- What goes on with nothing there goes on with nothing here. -/
theorem Follows.ne (h : Follows c d) (ht : goesOn t = true) (hne : c.peek? ≠ some t) :
    d.peek? ≠ some t :=
  fun hd => hne (h t ht hd)

/-- Places with the same token next go on alike. -/
theorem follows_of_takes (h : c.Takes t c') (h' : d.Takes t d') : Follows c d := by
  intro u _ hu
  rw [← hu, h.peek?, h'.peek?]

/-- A token that goes on with nothing may follow anything. -/
theorem follows_of_stop (ht : goesOn t = false) (h : d.Takes t d') : Follows c d := by
  intro u hgoesOn hu
  rw [h.peek?] at hu
  cases hu
  rw [ht] at hgoesOn
  cases hgoesOn

/-- The token that is printed first comes next. -/
theorem Heads.peek? (h : Heads ws c) (hp : d.Prints source' ws d') :
    ∃ t, c.peek? = some t ∧ d.peek? = some t.canonical := by
  obtain ⟨t, w, rest, ht, rfl, hw⟩ := h
  obtain ⟨m, hspells, -⟩ := hp
  refine ⟨t, ht, ?_⟩
  rw [hspells.takes.peek?, hw]

/-- Words that do not begin with a token are printed so that it does not come first, -/
theorem Heads.ne (h : Heads ws c) (hp : d.Prints source' ws d') (ht : t ≠ .letKeyword)
    (hne : c.peek? ≠ some t) : d.peek? ≠ some t := by
  obtain ⟨u, hu, hd⟩ := h.peek? hp
  rw [hu] at hne
  rw [hd]
  -- The token is printed as it is, or as `let`.
  rcases canonical_cases u with hcanonical | hcanonical
  · rw [hcanonical]
    exact hne
  · rw [hcanonical]
    exact fun heq => ht (Option.some.inj heq).symm

/-- and go on with nothing that they did not go on with. -/
theorem Heads.follows (h : Heads ws c) (hp : d.Prints source' ws d') : Follows c d := by
  intro t ht hpeek
  have hlet : t ≠ .letKeyword := by
    rintro rfl
    cases ht
  by_contra hne
  exact h.ne hp hlet hne hpeek

end Transcode.Script
