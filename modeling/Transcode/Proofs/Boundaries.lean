import Mathlib.Data.List.Chain
import Transcode.Proofs.Derivation

namespace Transcode.Script

/-!
# Nodes begin at tokens

Every node of a syntax tree begins at one of the tokens of the source, and its leading trivia
begin where the token before that one ends (`begins_of_derives`).  The same induction on
derivations shows that no `*` comes right after a `/` in a source that parses
(`spans_of_derives`): an operator is followed by an operand, and no operand begins with `*`.
-/

/-- Where the last of some tokens ends; the beginning of the source if there are none. -/
def endOf (lexemes : List Lexeme) : Nat :=
  (lexemes.getLast?.map (·.stop)).getD 0

/-- The last of some lexemes is where they end. -/
theorem endOf_concat (lexemes : List Lexeme) (l : Lexeme) : endOf (lexemes ++ [l]) = l.stop := by
  rw [endOf, List.getLast?_concat]
  rfl

/-! ### Beginnings -/

/-- The cursor stands between two of the tokens, or at an end of them. -/
def Cursor.Splits (lexemes : List Lexeme) (c : Cursor) : Prop :=
  ∃ front, lexemes = front ++ c.rest ∧ c.before = endOf front

/-- The node begins at one of the tokens, and its leading trivia where the one before it ends.
    A leaf is just that token. -/
def Begins (lexemes : List Lexeme) (n : Ast) : Prop :=
  ∃ front l back, lexemes = front ++ l :: back ∧ n.fullStart = endOf front ∧ n.start = l.start
    ∧ ∀ t, n.kind.leaf? = some t → l.token = t ∧ n.stop = l.stop

/-- Every node of a tree begins at a token. -/
def AllBegin (lexemes : List Lexeme) (v : Ast) : Prop :=
  ∀ n ∈ v.preorder, Begins lexemes n

variable {lexemes : List Lexeme} {n : Nat} {σ : Symbol} {c c' : Cursor} {t : Token} {vs : List Ast}

/-- Behind a token a cursor stands between the lexemes again. -/
theorem Cursor.Takes.splits (h : c.Takes t c') (hc : c.Splits lexemes) : c'.Splits lexemes := by
  obtain ⟨l, rest, hrest, -, rfl⟩ := h
  obtain ⟨front, rfl, -⟩ := hc
  refine ⟨front ++ [l], ?_, (endOf_concat front l).symm⟩
  rw [hrest, List.append_assoc]
  rfl

/-- So it does behind one that may be skipped. -/
theorem Cursor.Skips.splits (h : c.Skips t c') (hc : c.Splits lexemes) : c'.Splits lexemes := by
  rcases h with h | ⟨-, rfl⟩
  · exact h.splits hc
  · exact hc

/-- Where a token is taken there is one. -/
theorem Cursor.Takes.rest_ne_nil (h : c.Takes t c') : c.rest ≠ [] := by
  obtain ⟨l, rest, hrest, -⟩ := h
  rw [hrest]
  exact List.cons_ne_nil _ _

/-- Where something is derived there is a token, too. -/
theorem Derives.rest_ne_nil (h : Derives n σ c vs c') : c.rest ≠ [] := by
  intro hnil
  have hshort := h.shorter
  rw [hnil] at hshort
  exact Nat.not_lt_zero _ hshort

/-- A node made of what lies between two cursors begins at a token if its children do. -/
theorem allBegin_nodeTo {k : Kind} (hk : k.leaf? = none) (hc : c.Splits lexemes)
    (hne : c.rest ≠ []) (hvs : ∀ v ∈ vs, AllBegin lexemes v) :
    AllBegin lexemes (c.nodeTo c' k vs) := by
  refine Node.forall_preorder ?_ hvs
  obtain ⟨front, hfront, hbefore⟩ := hc
  obtain ⟨l, back, hrest⟩ := List.exists_cons_of_ne_nil hne
  rw [hrest] at hfront
  refine ⟨front, l, back, hfront, hbefore, ?_, fun t ht => absurd (hk.symm.trans ht) nofun⟩
  rw [Cursor.nodeTo, hrest]
  rfl

/-- A leaf begins at its token. -/
theorem allBegin_leaf {k : Kind} (hk : k.leaf? = some t) (hc : c.Splits lexemes)
    (h : c.Takes t c') : AllBegin lexemes (c.nodeTo c' k []) := by
  refine Node.forall_preorder ?_ (List.forall_mem_nil _)
  obtain ⟨front, hfront, hbefore⟩ := hc
  obtain ⟨l, back, hrest, rfl, rfl⟩ := h
  rw [hrest] at hfront
  refine ⟨front, l, back, hfront, hbefore, ?_, fun t ht => ⟨?_, rfl⟩⟩
  · rw [Cursor.nodeTo, hrest]
    rfl
  · exact Option.some.inj (hk.symm.trans ht)

/-- The operands and operators of the chain that grows from `vs`. -/
theorem inOrder_chainOf (h : Derives n .chain c vs c') : (chainOf vs).inOrder = vs.reverse := by
  generalize hσ : Symbol.chain = σ at h
  induction h with
  | chainStart => rfl
  | chainStep hvs ht hp he ih =>
    rw [chainOf, Chain.inOrder_push, ih rfl]
    simp only [List.reverse_cons, List.append_assoc, List.cons_append, List.nil_append]
  | _ => cases hσ

/-- A chain has the operands and operators it is made of. -/
theorem mem_inOrder_chainOf (h : Derives n .chain c vs c') {v : Ast} :
    v ∈ (chainOf vs).inOrder ↔ v ∈ vs := by
  rw [inOrder_chainOf h, List.mem_reverse]

/-- The tree of a chain that is derived begins where its first operand does. -/
theorem allBegin_chainOf (h : Derives n .chain c vs c') (hvs : ∀ v ∈ vs, AllBegin lexemes v) :
    AllBegin lexemes (chainOf vs).toAst := by
  refine Chain.forall_preorder_toAst (fun l op p r hl => ?_) fun v hv =>
    hvs v ((mem_inOrder_chainOf h).mp hv)
  obtain ⟨front, lexeme, back, hlexemes, hfullStart, hstart, -⟩ := hl
  exact ⟨front, lexeme, back, hlexemes, hfullStart, hstart, nofun⟩

/-- An atom has the token it was read as, -/
theorem leaf?_of_atom {k : Kind} (h : atoms.lookup t = some k) : k.leaf? = some t := by
  cases t <;> cases h <;> rfl

/-- and so has the name of a property. -/
theorem leaf?_of_propertyName {k : Kind} (h : propertyNames.lookup t = some k) :
    k.leaf? = some t := by
  cases t <;> cases h <;> rfl

/-- The nodes that rules make of several tokens are no leaves. -/
theorem leaf?_of_branch {k : Kind} (h : k = .block ∨ k = .expressionStatement
    ∨ k = .variableStatement ∨ k = .variableDeclaration ∨ k = .ifStatement ∨ k = .whileStatement
    ∨ k = .returnStatement ∨ k = .functionDeclaration ∨ k = .parameter ∨ k = .callExpression
    ∨ k = .newExpression ∨ k = .propertyAccess ∨ k = .objectLiteral ∨ k = .propertyAssignment
    ∨ k = .arrayLiteral ∨ k = .binaryExpression ∨ k = .prefixUnary ∨ k = .parenthesized) :
    k.leaf? = none := by
  rcases h with rfl | rfl | rfl | rfl | rfl | rfl | rfl | rfl | rfl | rfl | rfl | rfl | rfl | rfl
    | rfl | rfl | rfl | rfl
  all_goals rfl

/-- The tokens of the leaves that rules make of one token. -/
theorem leaf?_of_leaf : Kind.leaf? .identifier = some .ident
    ∧ Kind.leaf? .emptyStatement = some .semicolon
    ∧ ∀ t, Kind.leaf? (.operator (some t)) = some t :=
  ⟨rfl, rfl, fun _ => rfl⟩

/-- What is derived between lexemes begins at one of them, by induction on the derivation. -/
theorem begins_of_derives (h : Derives n σ c vs c') (hc : c.Splits lexemes) :
    c'.Splits lexemes ∧ ∀ v ∈ vs, AllBegin lexemes v := by
  induction h with
  | @function n c c₁ c₂ c₃ ps c₄ c₅ ss c' ht hname hopen hps hbrace hss ihps ihss =>
    have hc₁ := ht.splits hc
    obtain ⟨hc₄, hps⟩ := ihps (hopen.splits (hname.splits hc₁))
    obtain ⟨hc', hss⟩ := ihss (hbrace.splits hc₄)
    have hident : AllBegin lexemes (c₁.nodeTo c₂ .identifier []) := allBegin_leaf rfl hc₁ hname
    have hbody : AllBegin lexemes (c₄.nodeTo c' .block ss) :=
      allBegin_nodeTo rfl hc₄ hbrace.rest_ne_nil hss
    have hall : AllBegin lexemes (c.nodeTo c' .functionDeclaration
        (c₁.nodeTo c₂ .identifier [] :: ps ++ [c₄.nodeTo c' .block ss])) :=
      allBegin_nodeTo rfl hc ht.rest_ne_nil (by grind)
    exact ⟨hc', by grind⟩
  | ifThen ht hopen _ hclose _ _ ihe ihs =>
    obtain ⟨hc₃, he⟩ := ihe (hopen.splits (ht.splits hc))
    obtain ⟨hc', hs⟩ := ihs (hclose.splits hc₃)
    have hne := ht.rest_ne_nil
    exact ⟨hc', by grind [allBegin_nodeTo, leaf?_of_branch]⟩
  | ifElse ht hopen _ hclose _ helse _ ihe ihs ihs' =>
    obtain ⟨hc₃, he⟩ := ihe (hopen.splits (ht.splits hc))
    obtain ⟨hc₅, hs⟩ := ihs (hclose.splits hc₃)
    obtain ⟨hc', hs'⟩ := ihs' (helse.splits hc₅)
    have hne := ht.rest_ne_nil
    exact ⟨hc', by grind [allBegin_nodeTo, leaf?_of_branch]⟩
  | whileDo ht hopen _ hclose _ ihe ihs =>
    obtain ⟨hc₃, he⟩ := ihe (hopen.splits (ht.splits hc))
    obtain ⟨hc', hs⟩ := ihs (hclose.splits hc₃)
    have hne := ht.rest_ne_nil
    exact ⟨hc', by grind [allBegin_nodeTo, leaf?_of_branch]⟩
  | returnNothing ht _ hskip =>
    refine ⟨hskip.splits (ht.splits hc), fun v hv => ?_⟩
    rw [List.mem_singleton.mp hv]
    exact allBegin_nodeTo rfl hc ht.rest_ne_nil nofun
  -- In all other rules the children begin where a token was taken or something derived began.
  | _ => grind [→ Cursor.Takes.splits, → Cursor.Skips.splits, → Cursor.Takes.rest_ne_nil,
      → Derives.rest_ne_nil, allBegin_nodeTo, allBegin_leaf, → leaf?_of_atom,
      → leaf?_of_propertyName, allBegin_chainOf, leaf?_of_branch, leaf?_of_leaf]

/-- Each of the statements of a source is derived from a place between its tokens. -/
theorem DerivesAll.forall_mem_splits {P : Ast → Prop} (h : DerivesAll n c vs)
    (hc : c.Splits lexemes)
    (hstatement : ∀ {c v c'}, Derives n .statement c [v] c' → c.Splits lexemes → P v) :
    ∀ v ∈ vs, P v := by
  induction h with
  | nil => exact List.forall_mem_nil _
  | cons hs _ ih =>
    obtain ⟨hc', -⟩ := begins_of_derives hs hc
    exact List.forall_mem_cons.mpr ⟨hstatement hs hc, ih hc'⟩

/-- So do the nodes of the statements of a source. -/
theorem begins_of_derivesAll (h : DerivesAll n c vs) (hc : c.Splits lexemes) :
    ∀ v ∈ vs, AllBegin lexemes v :=
  h.forall_mem_splits hc fun hs hc => (begins_of_derives hs hc).2 _ List.mem_cons_self

/-- So do all nodes of a source, unless it has no token and is its only node. -/
theorem begins_of_mem_preorder {size : Nat} {m : Ast}
    (h : DerivesAll n { rest := lexemes } vs) (hm : m ∈ (rootOf size lexemes vs).preorder) :
    Begins lexemes m ∨ lexemes = [] ∧ m = rootOf size lexemes vs := by
  rcases Node.mem_preorder.mp hm with rfl | ⟨v, hv, hmv⟩
  · cases lexemes with
    | nil => exact .inr ⟨rfl, rfl⟩
    | cons l back => exact .inl ⟨[], l, back, rfl, rfl, rfl, nofun⟩
  · exact .inl (begins_of_derivesAll h ⟨[], rfl, rfl⟩ v hv m hmv)

/-! ### Slash and star -/

/-- No `*` comes right after a `/`, the first token is no `*`, and the last one is no `/`. -/
structure Firm (lexemes : List Lexeme) : Prop where
  first : ∀ l ∈ lexemes.head?, l.token ≠ .star
  last : ∀ l ∈ lexemes.getLast?, l.token ≠ .slash
  apart : lexemes.IsChain fun a b => ¬ (a.token = .slash ∧ b.token = .star)

/-- No lexemes are firm, -/
theorem firm_nil : Firm [] :=
  ⟨nofun, nofun, .nil⟩

/-- a single one is if it is neither a star nor a slash, -/
theorem firm_singleton {l : Lexeme} (hstar : l.token ≠ .star) (hslash : l.token ≠ .slash) :
    Firm [l] :=
  ⟨by simpa using hstar, by simpa using hslash, .singleton l⟩

/-- and several are in two parts that are. -/
theorem Firm.append {a b : List Lexeme} (ha : Firm a) (hb : Firm b) : Firm (a ++ b) := by
  refine ⟨?_, ?_, ha.apart.append hb.apart fun x hx y _ h => ha.last x hx h.1⟩
  · intro l hl
    rw [List.head?_append, Option.mem_def, Option.or_eq_some_iff] at hl
    rcases hl with hl | ⟨-, hl⟩
    · exact ha.first l hl
    · exact hb.first l hl
  · intro l hl
    rw [List.getLast?_append, Option.mem_def, Option.or_eq_some_iff] at hl
    rcases hl with hl | ⟨-, hl⟩
    · exact hb.last l hl
    · exact ha.last l hl

/-- An operator between operands may be a `/` or a `*`. -/
theorem Firm.operator {a b : List Lexeme} {l : Lexeme} (ha : Firm a) (hb : Firm b) (hne : a ≠ [])
    (hne' : b ≠ []) : Firm (a ++ l :: b) := by
  refine ⟨?_, ?_, ?_⟩
  · rw [List.head?_append_of_ne_nil _ hne]
    exact ha.first
  · rw [List.getLast?_append_of_ne_nil _ (List.cons_ne_nil _ _), List.getLast?_cons_of_ne_nil hne']
    exact hb.last
  · have hlb : (l :: b).IsChain fun a b => ¬ (a.token = .slash ∧ b.token = .star) :=
      List.IsChain.cons hb.apart fun y hy h => hb.first y hy h.2
    exact ha.apart.append hlb fun x hx y _ h => ha.last x hx h.1

/-- What is read between two cursors is firm. -/
def Cursor.Spans (c c' : Cursor) : Prop :=
  ∃ mid, c.rest = mid ++ c'.rest ∧ Firm mid

namespace Cursor

variable {m : Cursor}

/-- What is firm up to a place and from there on is firm. -/
theorem Spans.trans (h : c.Spans m) (h' : m.Spans c') : c.Spans c' := by
  obtain ⟨a, ha, hfirm⟩ := h
  obtain ⟨b, hb, hfirm'⟩ := h'
  exact ⟨a ++ b, by rw [ha, hb, List.append_assoc], hfirm.append hfirm'⟩

/-- A token is firm by itself unless it is a star or a slash. -/
theorem Takes.spans (h : c.Takes t c') (hstar : t ≠ .star) (hslash : t ≠ .slash) :
    c.Spans c' := by
  obtain ⟨l, rest, hrest, rfl, rfl⟩ := h
  exact ⟨[l], hrest, firm_singleton hstar hslash⟩

/-- So is one that may be skipped. -/
theorem Skips.spans (h : c.Skips t c') (hstar : t ≠ .star) (hslash : t ≠ .slash) :
    c.Spans c' := by
  rcases h with h | ⟨-, rfl⟩
  · exact h.spans hstar hslash
  · exact ⟨[], rfl, firm_nil⟩

/-- An operator between what is read before and after it. -/
theorem Spans.operator {m' : Cursor} (h : c.Spans m) (ht : m.Takes t m') (h' : m'.Spans c')
    (hne : m.rest.length < c.rest.length) (hne' : c'.rest.length < m'.rest.length) :
    c.Spans c' := by
  obtain ⟨a, ha, hfirm⟩ := h
  obtain ⟨b, hb, hfirm'⟩ := h'
  obtain ⟨l, rest, hrest, -, rfl⟩ := ht
  refine ⟨a ++ l :: b, ?_, hfirm.operator hfirm' ?_ ?_⟩
  · rw [ha, hrest, List.append_assoc, List.cons_append, ← hb]
  · rintro rfl
    rw [ha] at hne
    exact Nat.lt_irrefl _ hne
  · rintro rfl
    rw [hb] at hne'
    exact Nat.lt_irrefl _ hne'

end Cursor

/-- A token that a table has is none that it has not. -/
theorem ne_of_lookup {kinds : List (Token × Kind)} {k : Kind} {u : Token}
    (h : kinds.lookup t = some k) (hu : kinds.lookup u = none) : t ≠ u := by
  rintro rfl
  rw [h] at hu
  cases hu

/-- **No operand begins with an operator.** What is derived is firm. -/
theorem spans_of_derives (h : Derives n σ c vs c') : c.Spans c' := by
  induction h with
  | atom ht hk => exact ht.spans (ne_of_lookup hk rfl) (ne_of_lookup hk rfl)
  | property ht hk hcolon _ ihe =>
    have hname := ht.spans (ne_of_lookup hk rfl) (ne_of_lookup hk rfl)
    exact (hname.trans (hcolon.spans (by decide) (by decide))).trans ihe
  -- A sign is neither, since it is `!` or `-`.
  | sign ht hsign _ ihe =>
    refine (ht.spans ?_ ?_).trans ihe
    · rintro rfl
      cases hsign
    · rintro rfl
      cases hsign
  -- The operator may be a slash or a star, but operands stand on both sides of it.
  | chainStep hvs ht _ he ihvs ihe => exact ihvs.operator ht ihe hvs.shorter he.shorter
  -- No closing token is a slash or a star.
  | listEnd hclose ht =>
    exact ht.spans (ne_of_mem_of_not_mem hclose (by decide))
      (ne_of_mem_of_not_mem hclose (by decide))
  | listLast hclose _ _ ht ihv =>
    exact ihv.trans (ht.spans (ne_of_mem_of_not_mem hclose (by decide))
      (ne_of_mem_of_not_mem hclose (by decide)))
  | variableStatement hkeyword ht _ hskip ihds =>
    have hfirst := ht.spans (ne_of_mem_of_not_mem hkeyword (by decide))
      (ne_of_mem_of_not_mem hkeyword (by decide))
    exact (hfirst.trans ihds).trans (hskip.spans (by decide) (by decide))
  | _ => grind [→ Cursor.Takes.spans, → Cursor.Skips.spans, Cursor.Spans.trans]

/-- The tokens of statements up to the end are firm. -/
theorem spans_of_derivesAll (h : DerivesAll n c vs) : Firm c.rest := by
  induction h with
  | nil hend =>
    rw [hend]
    exact firm_nil
  | cons hs _ ih =>
    obtain ⟨mid, hmid, hfirm⟩ := spans_of_derives hs
    rw [hmid]
    exact hfirm.append ih

end Transcode.Script
