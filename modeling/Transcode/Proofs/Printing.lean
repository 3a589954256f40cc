import Transcode.Proofs.Boundaries
import Transcode.Proofs.Relexing

namespace Transcode.Script

open Text

/-!
# The words of parsed trees

The words of a tree are marks and the words of its leaves (`mem_words`), and the leaves of a tree
that was parsed are tokens of the source, so that its canonical text is read back word by word
(`lex_canonicalText`).

`printed` tells how each rule of the grammar prints what it derives.  It prints the first token
first, but for the keyword of a variable statement (`heads_of_derives`).
-/

variable {source : String} {w : Word}

/-! ### Marks and leaves -/

/-- The tokens that layouts add. -/
def marks : List Token :=
  [.letKeyword, .ifKeyword, .elseKeyword, .whileKeyword, .returnKeyword, .functionKeyword,
   .newKeyword, .leftParen, .rightParen, .leftBrace, .rightBrace, .leftBracket, .rightBracket,
   .comma, .semicolon, .colon, .dot, .assign]

/-- One of the words that layouts add. -/
def IsMark (w : Word) : Prop :=
  ∃ t ∈ marks, w = mark t

/-- One part needs no comma. -/
theorem commaSeparated_singleton (part : List Word) : commaSeparated [part] = part :=
  List.intercalate_singleton

/-- Two parts have a comma in between. -/
theorem commaSeparated_cons_cons (part part' : List Word) (parts : List (List Word)) :
    commaSeparated (part :: part' :: parts)
      = part ++ mark .comma :: commaSeparated (part' :: parts) := by
  rw [commaSeparated, List.intercalate_cons_cons, List.append_assoc]
  rfl

/-- A word among parts with commas is a comma or is in a part. -/
theorem mem_commaSeparated {parts : List (List Word)} (h : w ∈ commaSeparated parts) :
    w = mark .comma ∨ ∃ part ∈ parts, w ∈ part := by
  induction parts with
  | nil => cases h
  | cons part parts ih =>
    cases parts with
    | nil =>
      rw [commaSeparated_singleton] at h
      exact .inr ⟨part, List.mem_cons_self, h⟩
    | cons part' parts =>
      rw [commaSeparated_cons_cons, List.mem_append, List.mem_cons] at h
      rcases h with h | h | h
      · exact .inr ⟨part, List.mem_cons_self, h⟩
      · exact .inl h
      · rcases ih h with h | ⟨p, hp, hw⟩
        · exact .inl h
        · exact .inr ⟨p, List.mem_cons_of_mem _ hp, hw⟩

/-- A word of the last part is in a part. -/
theorem mem_getLast? {parts : List (List Word)} (h : w ∈ parts.getLast?.getD []) :
    ∃ part ∈ parts, w ∈ part := by
  cases hlast : parts.getLast? with
  | none =>
    rw [hlast] at h
    cases h
  | some part =>
    rw [hlast] at h
    exact ⟨part, List.mem_of_getLast? hlast, h⟩

/-- A layout adds nothing but marks. -/
theorem mem_layout {k : Kind} {parts : List (List Word)} (h : w ∈ layout k parts) :
    IsMark w ∨ ∃ part ∈ parts, w ∈ part := by
  have hmark : ∀ t ∈ marks, IsMark (mark t) := fun t ht => ⟨t, ht, rfl⟩
  have hdropLast : ∀ (parts : List (List Word)) (part : List Word), part ∈ parts.dropLast →
      part ∈ parts := fun parts part hpart => List.dropLast_subset parts hpart
  simp only [marks, List.forall_mem_cons] at hmark
  unfold layout at h
  split at h
  all_goals
    simp only [List.mem_append, List.mem_cons, List.mem_flatten, List.not_mem_nil, or_false] at h
  all_goals grind [mem_commaSeparated, mem_getLast?]

/-- The words of a tree are marks and the words of its leaves. -/
theorem mem_words (v : Ast) (h : w ∈ words (shape source v)) :
    IsMark w ∨ ∃ n ∈ v.preorder, ∃ t, n.kind.leaf? = some t
      ∧ w = ⟨t, slice source n.start n.stop⟩ := by
  rw [shape_eq] at h
  cases hk : v.kind.leaf? with
  | some t =>
    rw [words_of_leaf hk, List.mem_singleton, hk] at h
    exact .inr ⟨v, v.self_mem_preorder, t, hk, h⟩
  | none =>
    rw [words_of_branch hk] at h
    rcases mem_layout h with h | ⟨part, hpart, hw⟩
    · exact .inl h
    · simp only [List.map_map, List.mem_map, Function.comp_apply] at hpart
      obtain ⟨child, hchild, rfl⟩ := hpart
      rcases mem_words child hw with h | ⟨n, hn, hleaf⟩
      · exact .inl h
      · exact .inr ⟨n, Node.mem_preorder_of_child hchild hn, hleaf⟩
termination_by sizeOf v
decreasing_by
  obtain ⟨kind, fullStart, start, stop, children⟩ := v
  have hsize : sizeOf child < sizeOf children := List.sizeOf_lt_of_mem hchild
  simp only [Node.mk.sizeOf_spec]
  omega

/-! ### Lexing -/

/-- Marks are readable. -/
theorem readable_of_isMark (h : IsMark w) : Readable w := by
  obtain ⟨t, ht, rfl⟩ := h
  have hspelling : ∀ t ∈ marks, t.spelling?.isSome = true := by decide
  exact readable_mark (hspelling t ht)

/-- A leaf of a tree that was parsed is a token of the source. -/
theorem exists_lexeme_of_leaf {root n : Ast} {t : Token} (h : parse source = .ok root)
    (hn : n ∈ root.preorder) (ht : n.kind.leaf? = some t) :
    ∃ ls l, Lexes 0 source.toList ls ∧ l ∈ ls ∧ l.token = t ∧ l.token.isComment = false
      ∧ slice source n.start n.stop = l.text := by
  obtain ⟨lexemes, ss, hlex, hss, rfl⟩ := parse_eq_ok.mp h
  obtain ⟨all, htokens, hall⟩ := lex_eq_ok.mp hlex
  have hlexes := lexes_of_tokensFrom htokens
  rcases begins_of_mem_preorder hss hn with ⟨front, l, back, hlexemes, -, hstart, hleaf⟩ | ⟨-, rfl⟩
  · obtain ⟨htoken, hstop⟩ := hleaf t ht
    have hl : l ∈ lexemes := hlexemes ▸ List.mem_append_right _ List.mem_cons_self
    rw [hall, List.mem_filter] at hl
    refine ⟨all, l, hlexes, hl.1, htoken, by simpa using hl.2, ?_⟩
    rw [hstart, hstop, slice_of_lexes hlexes hl.1]
  · cases ht

/-- It has the text of its token, if that can have only one. -/
theorem slice_of_leaf {root n : Ast} {t : Token} {cs : List Char} (h : parse source = .ok root)
    (hn : n ∈ root.preorder) (hleaf : n.kind.leaf? = some t) (ht : t.spelling? = some cs) :
    slice source n.start n.stop = String.ofList cs := by
  obtain ⟨ls, l, hlexes, hl, rfl, -, htext⟩ := exists_lexeme_of_leaf h hn hleaf
  obtain ⟨front, back, rfl⟩ := List.append_of_mem hl
  obtain ⟨-, c, more, after, -, -, hchars, hscan, -⟩ := hlexes.split
  rw [htext, hchars, spelled_of_scanToken hscan ht]

/-- The words of a tree that was parsed are readable. -/
theorem readable_of_parse {root : Ast} (h : parse source = .ok root) :
    ∀ w ∈ words (shape source root), Readable w := by
  intro w hw
  rcases mem_words _ hw with hmark | ⟨n, hn, t, ht, rfl⟩
  · exact readable_of_isMark hmark
  · obtain ⟨ls, l, hlexes, hl, rfl, hcomment, htext⟩ := exists_lexeme_of_leaf h hn ht
    have hread := readable_of_lexes hlexes hl hcomment
    rwa [← htext] at hread

/-- Canonical text is read back word by word. -/
theorem lex_canonicalText {s : Shape} (h : ∀ w ∈ words s, Readable w) :
    ∃ ls, lex (canonicalText s) = .ok ls
      ∧ (∀ l ∈ ls, slice (canonicalText s) l.start l.stop = l.text)
      ∧ ls.map (fun l => (⟨l.token, l.text⟩ : Word)) = words s := by
  obtain ⟨ls, hls, hwords⟩ := exists_lexes h 0
  have hlexes : Lexes 0 (canonicalText s).toList ls := by
    rw [canonicalText, String.toList_intercalate, List.map_map]
    exact hls
  refine ⟨ls, lex_eq_ok.mpr ⟨ls, tokensFrom_of_lexes hlexes, ?_⟩, fun l hl => ?_, hwords⟩
  · -- No word is a comment, so that the lexer drops none.
    symm
    rw [List.filter_eq_self]
    intro l hl
    have hw : (⟨l.token, l.text⟩ : Word) ∈ words s := by
      rw [← hwords]
      exact List.mem_map_of_mem hl
    simpa using (h _ hw).1
  · exact slice_of_lexes hlexes hl

/-! ### What rules print -/

/-- The words of what a rule derives. -/
def printed : Symbol → List Shape → List Word
  | .statements, ss => ss.flatMap words ++ [mark .rightBrace]
  | .declarations, ss => commaSeparated (ss.map words)
  | .chain, ss => ss.reverse.flatMap words
  | .list _ close, ss => commaSeparated (ss.map words) ++ [mark close]
  | _, [s] => words s
  | _, _ => []

/-- The token as it is printed: every variable statement is a `let`. -/
def Token.canonical : Token → Token
  | constKeyword | varKeyword => letKeyword
  | t => t

variable {n : Nat} {σ : Symbol} {c c' : Cursor} {t : Token} {vs : List Ast} {k : Kind}

/-- The shape of a node is made from those of its children. -/
theorem shape_nodeTo (hk : k.leaf? = none) :
    shape source (c.nodeTo c' k vs) = .node k "" (vs.map (shape source)) := by
  rw [shape_eq, Cursor.nodeTo, hk]
  rfl

/-- A leaf is the one word of its token. -/
theorem words_leaf (source : String) (c c' : Cursor) (hk : k.leaf? = some t) :
    ∃ text, shape source (c.nodeTo c' k []) = .node k text []
      ∧ words (shape source (c.nodeTo c' k [])) = [⟨t, text⟩] := by
  rw [shape_eq]
  exact ⟨_, rfl, words_of_leaf hk⟩

/-- The words of a chain are those of its operands and operators. -/
theorem words_chainOf (h : Derives n .chain c vs c') :
    words (shape source (chainOf vs).toAst)
      = vs.reverse.flatMap fun v => words (shape source v) := by
  have hwords : ∀ ch : Chain, words (shape source ch.toAst)
      = ch.inOrder.flatMap fun v => words (shape source v) := by
    intro ch
    induction ch with
    | operand e => rw [Chain.toAst, Chain.inOrder, List.flatMap_singleton]
    | binary l op p r ihl ihr =>
      rw [shape_eq, words_of_branch rfl, Chain.inOrder, List.flatMap_append, List.flatMap_cons,
        ← ihl, ← ihr]
      simp only [Chain.toAst, List.map_cons, List.map_nil, layout, List.flatten_cons,
        List.flatten_nil, List.append_nil]
  rw [hwords, inOrder_chainOf h]

/-- A chain is printed as the tree that it is put together to. -/
theorem printed_chain (h : Derives n .chain c vs c') :
    printed .chain (vs.map (shape source)) = words (shape source (chainOf vs).toAst) := by
  rw [printed, words_chainOf h, ← List.map_reverse, List.flatMap_map]

/-- An item of a list is printed as its words. -/
theorem printed_item (i : Item) (s : Shape) : printed i.symbol [s] = words s := by
  cases i with
  | _ => rfl

/-! ### First words -/

/-- All tokens but the keywords of declarations are printed as they are, -/
theorem canonical_eq_self (ht : t ∉ variableKeywords) : t.canonical = t := by
  cases t <;> first | rfl | exact absurd (by decide) ht

/-- among them those of the leaves, -/
theorem canonical_of_lookup {kinds : List (Token × Kind)} (h : kinds.lookup t = some k)
    (hkinds : ∀ t ∈ variableKeywords, kinds.lookup t = none) : t.canonical = t := by
  refine canonical_eq_self fun ht => ?_
  rw [hkinds t ht] at h
  cases h

/-- and those keywords as `let`. -/
theorem canonical_cases (t : Token) : t.canonical = t ∨ t.canonical = .letKeyword := by
  by_cases h : t ∈ variableKeywords
  · have hlet : ∀ t ∈ variableKeywords, t.canonical = .letKeyword := by decide
    exact .inr (hlet t h)
  · exact .inl (canonical_eq_self h)

/-- The first word is the next token as it is printed. -/
def Heads (ws : List Word) (c : Cursor) : Prop :=
  ∃ t w rest, c.peek? = some t ∧ ws = w :: rest ∧ w.token = t.canonical

/-- What comes later does not change the first word, -/
theorem Heads.append {ws rest : List Word} (h : Heads ws c) : Heads (ws ++ rest) c := by
  obtain ⟨t, w, ws', ht, rfl, hw⟩ := h
  exact ⟨t, w, ws' ++ rest, ht, rfl, hw⟩

/-- nor do other parts. -/
theorem Heads.commaSeparated {part : List Word} {parts : List (List Word)} (h : Heads part c) :
    Heads (commaSeparated (part :: parts)) c := by
  cases parts with
  | nil =>
    rw [commaSeparated_singleton]
    exact h
  | cons part' parts =>
    rw [commaSeparated_cons_cons]
    exact h.append

/-- The word of a token is the first one where the token is taken, -/
theorem heads_of_takes {rest : List Word} (h : c.Takes t c') (hw : w.token = t.canonical) :
    Heads (w :: rest) c :=
  ⟨t, w, rest, h.peek?, rfl, hw⟩

/-- and so is that of a leaf. -/
theorem heads_of_leaf (ht : c.Takes t c') (hk : k.leaf? = some t) (hcanonical : t.canonical = t) :
    Heads (words (shape source (c.nodeTo c' k []))) c := by
  obtain ⟨text, -, hwords⟩ := words_leaf source c c' hk
  rw [hwords]
  exact heads_of_takes ht hcanonical.symm

/-- What a rule prints begins with the first token of what it derives. -/
theorem heads_of_derives (h : Derives n σ c vs c') :
    Heads (printed σ (vs.map (shape source))) c := by
  induction h with
  | atom ht hk =>
    exact heads_of_leaf ht (leaf?_of_atom hk) (canonical_of_lookup hk (by decide))
  | parenthesized ht | object ht | array ht | newPlain ht | newCall ht | pathName ht | parameter ht
  | declared ht | initialized ht | noStatement ht | empty ht | block ht | ifThen ht | ifElse ht
  | whileDo ht | returnNothing ht | returnValue ht | function ht => exact heads_of_takes ht rfl
  | operand _ ih => exact ih
  | unsigned _ _ _ _ ih => exact ih
  | chainStart _ ih => exact ih.append
  | pathMember _ _ _ ih | member _ _ _ ih => exact ih.append
  | call _ _ _ ih | moreStatements _ _ _ ih | expressionStatement _ _ _ _ ih =>
    exact ih.append.append
  | @sign _ _ t _ _ _ ht hsign =>
    have hplain : ∀ t ∈ variableKeywords, isPrefixOperator t = false := by decide
    have ht' : t ∉ variableKeywords := by
      intro hmem
      rw [hplain t hmem] at hsign
      cases hsign
    exact (heads_of_leaf ht (k := .operator _) rfl (canonical_eq_self ht')).append
  | chainStep _ _ _ _ ih =>
    -- The chain is printed from its first operand, which is last in the list.
    simp only [printed, List.map_cons, List.reverse_cons, List.append_assoc,
      List.flatMap_append] at ih ⊢
    exact ih.append
  | binary hvs _ _ ih =>
    rw [printed_chain hvs] at ih
    exact ih
  | assign hvs _ _ ih =>
    rw [printed_chain hvs] at ih
    exact ih.append
  | property ht hk =>
    have hcanonical := canonical_of_lookup hk (by decide)
    exact (heads_of_leaf ht (leaf?_of_propertyName hk) hcanonical).append
  | listEnd hclose ht =>
    -- An empty list is printed as its closing token.
    have hplain : ∀ t ∈ closers, t ∉ variableKeywords := by decide
    exact heads_of_takes ht (canonical_eq_self (hplain _ hclose)).symm
  | listLast _ _ _ _ ih | listMore _ _ _ _ ih =>
    rw [List.map_singleton, printed_item] at ih
    exact ih.commaSeparated.append
  | lastDeclaration _ _ ih | moreDeclarations _ _ _ ih => exact ih.commaSeparated
  | variableStatement hkeyword ht =>
    -- Any of the keywords is printed as `let`.
    have hlet : ∀ t ∈ variableKeywords, .letKeyword = t.canonical := by decide
    exact heads_of_takes ht (hlet _ hkeyword)

end Transcode.Script
