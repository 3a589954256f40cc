import Transcode.Proofs.Boundaries
import Transcode.Proofs.Lexing

namespace Transcode.Script

open Text

/-!
# Where nodes stand

`Lays before lexemes vs` says that the trees `vs` stand over the tokens `lexemes`, which come
after offset `before`: every tree takes some of the tokens, in order, its leaves take one each,
and the tokens that no tree takes are punctuation and keywords.  The trees of a derivation stand
over the tokens that it takes (`placed_of_derives`), and what is known of the order of tokens then
carries over to nodes: where they begin and end, that siblings do not overlap and that children
stay inside their parent (`Lays.nests`), and that the names, literals and so on are the tokens
of these kinds (`Lays.atoms`).

`parse_spans` says all this of a source that parses.
-/

/-! ### Tokens in order -/

/-- Where the last of some tokens ends; `before` if there are none. -/
def endAfter (before : Nat) (lexemes : List Lexeme) : Nat :=
  lexemes.foldl (fun _ l => l.stop) before

/-- The tokens stand one after the other from an offset on, and each has some text. -/
def InOrder (before : Nat) : List Lexeme → Prop
  | [] => True
  | l :: rest => before ≤ l.start ∧ l.start < l.stop ∧ InOrder l.stop rest

variable {before : Nat} {lexemes mid after : List Lexeme} {l : Lexeme} {v : Ast} {vs ws : List Ast}

/-- Where lexemes end is where the last part of them does. -/
theorem endAfter_append :
    endAfter before (mid ++ after) = endAfter (endAfter before mid) after :=
  List.foldl_append

/-- Lexemes are in order if each part begins after the one before. -/
theorem inOrder_append :
    InOrder before (mid ++ after) ↔ InOrder before mid ∧ InOrder (endAfter before mid) after := by
  induction mid generalizing before with
  | nil => exact ⟨fun h => ⟨trivial, h⟩, And.right⟩
  | cons l mid ih =>
    rw [List.cons_append, InOrder, InOrder, ih, and_assoc, and_assoc]
    rfl

/-- They are in order after any earlier offset, too. -/
theorem InOrder.mono {before' : Nat} (h : InOrder before lexemes) (hle : before' ≤ before) :
    InOrder before' lexemes := by
  cases lexemes with
  | nil => trivial
  | cons l rest => exact ⟨Nat.le_trans hle h.1, h.2⟩

/-- Tokens in order stay in order when some of them are dropped. -/
theorem InOrder.filter (h : InOrder before lexemes) (p : Lexeme → Bool) :
    InOrder before (lexemes.filter p) := by
  induction lexemes generalizing before with
  | nil => trivial
  | cons l rest ih =>
    obtain ⟨hstart, hstop, hrest⟩ := h
    rw [List.filter_cons]
    split
    · exact ⟨hstart, hstop, ih hrest⟩
    · exact ih (hrest.mono (Nat.le_trans hstart (Nat.le_of_lt hstop)))

/-- They end after what comes before them. -/
theorem InOrder.le_endAfter (h : InOrder before lexemes) : before ≤ endAfter before lexemes := by
  induction lexemes generalizing before with
  | nil => exact Nat.le_refl _
  | cons l rest ih =>
    exact Nat.le_trans h.1 (Nat.le_trans (Nat.le_of_lt h.2.1) (ih h.2.2))

/-- Where one of some tokens in order stands. -/
theorem InOrder.of_mem (h : InOrder before lexemes) (hl : l ∈ lexemes) :
    before ≤ l.start ∧ l.start < l.stop ∧ l.stop ≤ endAfter before lexemes := by
  obtain ⟨front, back, rfl⟩ := List.append_of_mem hl
  obtain ⟨hfront, hstart, hstop, hback⟩ := inOrder_append.mp h
  rw [endAfter_append]
  exact ⟨Nat.le_trans hfront.le_endAfter hstart, hstop, hback.le_endAfter⟩

/-- Each begins before those that come later. -/
theorem InOrder.pairwise (h : InOrder before lexemes) :
    lexemes.Pairwise fun a b => a.start < b.start := by
  induction lexemes generalizing before with
  | nil => exact .nil
  | cons l rest ih =>
    obtain ⟨-, hstop, hrest⟩ := h
    exact .cons (fun l' hl' => Nat.lt_of_lt_of_le hstop (hrest.of_mem hl').1) (ih hrest)

/-- The tokens of some characters stand in order. -/
theorem inOrder_of_lexes {o : Nat} {cs : List Char} (h : Lexes o cs lexemes) :
    InOrder o lexemes := by
  induction h with
  | nil => trivial
  | layout _ _ ih => exact ih.mono (Nat.le_add_right _ _)
  | @token o c more cs t ls _ _ _ ih =>
    refine ⟨Nat.le_refl _, ?_, ih⟩
    have hc := c.utf8Size_pos
    rw [stop_eq, String.toList_ofList, byteLength_cons]
    show o < o + (c.utf8Size + byteLength more)
    omega

/-! ### Trees over tokens -/

/-- A token that makes an expression of its own: a name, a literal or `this`. -/
def Token.isAtom (t : Token) : Bool :=
  (atoms.lookup t).isSome

/-- The kind of a node over such a token. -/
def Kind.isAtom (k : Kind) : Bool :=
  (atoms.map (·.2)).contains k

/-- The trees stand over the tokens, the first of which comes after an offset. -/
inductive Lays : Nat → List Lexeme → List Ast → Prop
  | nil (before : Nat) : Lays before [] []
  /-- A token that belongs to no tree is no atom. -/
  | token (before : Nat) {l : Lexeme} {lexemes : List Lexeme} {vs : List Ast} :
      l.token.isAtom = false → Lays l.stop lexemes vs → Lays before (l :: lexemes) vs
  | leaf {before : Nat} {l : Lexeme} {lexemes : List Lexeme} {v : Ast} {vs : List Ast} :
      v.kind.leaf? = some l.token → v.kind.isAtom = l.token.isAtom → v.fullStart = before →
      v.start = l.start → v.stop = l.stop → v.children = [] → Lays l.stop lexemes vs →
      Lays before (l :: lexemes) (v :: vs)
  | branch {before : Nat} {l : Lexeme} {mid lexemes : List Lexeme} {v : Ast} {vs : List Ast} :
      v.kind.leaf? = none → v.fullStart = before → v.start = l.start →
      v.stop = endAfter before (l :: mid) → Lays before (l :: mid) v.children →
      Lays (endAfter before (l :: mid)) lexemes vs → Lays before (l :: mid ++ lexemes) (v :: vs)

/-- Nodes laid over lexemes in turn are laid over all of them. -/
theorem Lays.append (h : Lays before mid vs) (h' : Lays (endAfter before mid) after ws) :
    Lays before (mid ++ after) (vs ++ ws) := by
  induction h with
  | nil => exact h'
  | token before hl _ ih => exact .token before hl (ih h')
  | leaf hk ha hfullStart hstart hstop hchildren _ ih =>
    exact .leaf hk ha hfullStart hstart hstop hchildren (ih h')
  | branch hk hfullStart hstart hstop hchildren _ _ ih =>
    rw [endAfter_append] at h'
    rw [List.append_assoc]
    exact .branch hk hfullStart hstart hstop hchildren (ih h')

/-! ### Trees between cursors -/

namespace Cursor

/-- The trees stand over the tokens between two cursors. -/
def Lays (c : Cursor) (vs : List Ast) (c' : Cursor) : Prop :=
  ∃ mid, c.rest = mid ++ c'.rest ∧ c'.before = endAfter c.before mid
    ∧ Script.Lays c.before mid vs

/-- A tree stands over the tokens between two cursors, from the first of them to the last. -/
structure Covers (c : Cursor) (v : Ast) (c' : Cursor) : Prop where
  lays : c.Lays [v] c'
  shorter : c'.rest.length < c.rest.length
  fullStart : v.fullStart = c.before
  start : ∃ l rest, c.rest = l :: rest ∧ v.start = l.start
  stop : v.stop = c'.before

/-- Trees one after the other cover all tokens between two cursors. -/
inductive Tiles : Cursor → List Ast → Cursor → Prop
  | nil (c : Cursor) : Tiles c [] c
  | cons {c m c' : Cursor} {v : Ast} {vs : List Ast} :
      c.Covers v m → Tiles m vs c' → Tiles c (v :: vs) c'

variable {c m c' : Cursor} {t : Token} {v : Ast} {vs ws : List Ast} {k : Kind}

/-- No nodes are laid over no tokens. -/
theorem Lays.refl (c : Cursor) : c.Lays [] c :=
  ⟨[], rfl, rfl, .nil _⟩

/-- Nodes laid up to a place and from there on are laid over all tokens in between. -/
theorem Lays.trans (h : c.Lays vs m) (h' : m.Lays ws c') : c.Lays (vs ++ ws) c' := by
  obtain ⟨a, ha, hbefore, hlays⟩ := h
  obtain ⟨b, hb, hbefore', hlays'⟩ := h'
  refine ⟨a ++ b, by rw [ha, hb, List.append_assoc], ?_, ?_⟩
  · rw [endAfter_append, ← hbefore, hbefore']
  · rw [hbefore] at hlays'
    exact hlays.append hlays'

/-- What nodes are laid over leaves no more tokens. -/
theorem Lays.le (h : c.Lays vs c') : c'.rest.length ≤ c.rest.length := by
  obtain ⟨mid, hmid, -⟩ := h
  rw [hmid, List.length_append]
  exact Nat.le_add_left _ _

/-- A token that is no atom belongs to no tree. -/
theorem Takes.lays (h : c.Takes t c') (ht : t.isAtom = false) : c.Lays [] c' := by
  obtain ⟨l, rest, hrest, rfl, rfl⟩ := h
  exact ⟨[l], hrest, rfl, .token _ ht (.nil _)⟩

/-- What may be skipped is no atom, so no node is laid over it. -/
theorem Skips.lays (h : c.Skips t c') (ht : t.isAtom = false) : c.Lays [] c' := by
  rcases h with h | ⟨-, rfl⟩
  · exact h.lays ht
  · exact .refl _

/-- Trees after a token. -/
theorem Takes.lays_then (h : c.Takes t m) (ht : t.isAtom = false) (h' : m.Lays vs c') :
    c.Lays vs c' :=
  (h.lays ht).trans h'

/-- Trees before a token. -/
theorem Lays.then_takes (h : c.Lays vs m) (h' : m.Takes t c') (ht : t.isAtom = false) :
    c.Lays vs c' := by
  have hlays := h.trans (h'.lays ht)
  rwa [List.append_nil] at hlays

/-- Trees before a token that may be missing. -/
theorem Lays.then_skips (h : c.Lays vs m) (h' : m.Skips t c') (ht : t.isAtom = false) :
    c.Lays vs c' := by
  have hlays := h.trans (h'.lays ht)
  rwa [List.append_nil] at hlays

/-- A node that covers its tokens is laid before those that follow. -/
theorem Covers.lays_then (h : c.Covers v m) (h' : m.Lays vs c') : c.Lays (v :: vs) c' :=
  h.lays.trans h'

/-- A leaf covers the token that it is made of. -/
theorem covers_leaf (hk : k.leaf? = some t) (ha : k.isAtom = t.isAtom) (h : c.Takes t c') :
    c.Covers (c.nodeTo c' k []) c' := by
  have hshorter := h.shorter
  obtain ⟨l, rest, hrest, rfl, rfl⟩ := h
  have hstart : (c.nodeTo ⟨l.stop, rest⟩ k []).start = l.start := by
    rw [nodeTo, hrest]
    rfl
  refine ⟨⟨[l], hrest, rfl, ?_⟩, hshorter, rfl, ⟨l, rest, hrest, hstart⟩, rfl⟩
  exact .leaf hk ha rfl hstart rfl rfl (.nil _)

/-- A node covers the tokens that its children stand over. -/
theorem covers_of_lays (hk : v.kind.leaf? = none) (hshorter : c'.rest.length < c.rest.length)
    (hfullStart : v.fullStart = c.before)
    (hstart : ∃ l rest, c.rest = l :: rest ∧ v.start = l.start)
    (hstop : v.stop = c'.before) (h : c.Lays v.children c') : c.Covers v c' := by
  obtain ⟨mid, hmid, hbefore, hlays⟩ := h
  refine ⟨⟨mid, hmid, hbefore, ?_⟩, hshorter, hfullStart, hstart, hstop⟩
  -- A node takes a token at least, so that it begins with one.
  cases mid with
  | nil =>
    rw [hmid] at hshorter
    exact absurd hshorter (Nat.lt_irrefl _)
  | cons l mid =>
    obtain ⟨l', rest, hrest, hstart⟩ := hstart
    rw [hmid, List.cons_append] at hrest
    obtain ⟨rfl, -⟩ := List.cons.inj hrest
    have hbranch := Lays.branch hk hfullStart hstart (hstop.trans hbefore) hlays (.nil _)
    rwa [List.append_nil] at hbranch

/-- A node with tokens starts where the first of them does. -/
theorem start_nodeTo (h : c'.rest.length < c.rest.length) :
    ∃ l rest, c.rest = l :: rest ∧ (c.nodeTo c' k vs).start = l.start := by
  cases hrest : c.rest with
  | nil =>
    rw [hrest] at h
    exact absurd h (Nat.not_lt_zero _)
  | cons l rest =>
    refine ⟨l, rest, rfl, ?_⟩
    rw [nodeTo, hrest]
    rfl

/-- A node that begins with a token of its own. -/
theorem Takes.covers (h : c.Takes t m) (ht : t.isAtom = false) (hk : k.leaf? = none)
    (h' : m.Lays vs c') : c.Covers (c.nodeTo c' k vs) c' := by
  have hshorter := Nat.lt_of_le_of_lt h'.le h.shorter
  exact covers_of_lays hk hshorter rfl (start_nodeTo hshorter) rfl (h.lays_then ht h')

/-- A node that begins with its first child. -/
theorem Covers.covers (h : c.Covers v m) (hk : k.leaf? = none) (h' : m.Lays vs c') :
    c.Covers (c.nodeTo c' k (v :: vs)) c' := by
  have hshorter := Nat.lt_of_le_of_lt h'.le h.shorter
  exact covers_of_lays hk hshorter rfl (start_nodeTo hshorter) rfl (h.lays_then h')

/-- Nodes tile tokens exactly if they do in two parts. -/
theorem tiles_append : c.Tiles (vs ++ ws) c' ↔ ∃ m, c.Tiles vs m ∧ m.Tiles ws c' := by
  induction vs generalizing c with
  | nil =>
    constructor
    · exact fun h => ⟨c, .nil c, h⟩
    · rintro ⟨m, ⟨⟩, h⟩
      exact h
  | cons v vs ih =>
    constructor
    · rintro (_ | ⟨hv, h⟩)
      obtain ⟨m, hvs, hws⟩ := ih.mp h
      exact ⟨m, .cons hv hvs, hws⟩
    · rintro ⟨m, _ | ⟨hv, hvs⟩, hws⟩
      exact .cons hv (ih.mpr ⟨m, hvs, hws⟩)

/-- The tree of a chain covers what its operands and operators cover together. -/
theorem Tiles.covers_toAst {ch : Chain} (h : c.Tiles ch.inOrder c') : c.Covers ch.toAst c' := by
  induction ch generalizing c c' with
  | operand e =>
    obtain _ | ⟨he, ⟨⟩⟩ := h
    exact he
  | binary l op p r ihl ihr =>
    obtain ⟨m, hl, _ | ⟨hop, hr⟩⟩ := tiles_append.mp h
    have hleft := ihl hl
    have hright := ihr hr
    have hlays := hleft.lays_then (hop.lays_then hright.lays)
    have hshorter := Nat.lt_trans hright.shorter (Nat.lt_trans hop.shorter hleft.shorter)
    exact covers_of_lays rfl hshorter hleft.fullStart hleft.start hright.stop hlays

end Cursor

/-! ### Trees of derivations -/

/-- How the trees that a rule derives stand between the cursors. -/
def Placed (c c' : Cursor) : Symbol → List Ast → Prop
  | .statements, vs | .declarations, vs | .list _ _, vs => c.Lays vs c'
  | .chain, vs => c.Tiles vs.reverse c'
  | _, [v] => c.Covers v c'
  | _, _ => False

section

variable {n : Nat} {c c' : Cursor} {t : Token} {σ : Symbol} {k : Kind}

/-- An item of a list covers its tokens, whatever sort of item it is. -/
theorem covers_of_placed_item {item : Item} (h : Placed c c' item.symbol [v]) : c.Covers v c' := by
  cases item with
  | _ => exact h

/-- A token read as an atom is one exactly if the node is. -/
theorem isAtom_of_lookup (h : atoms.lookup t = some k) : k.isAtom = t.isAtom := by
  cases t <;> cases h <;> rfl

/-- So is the name of a property. -/
theorem isAtom_of_propertyName (h : propertyNames.lookup t = some k) : k.isAtom = t.isAtom := by
  cases t <;> cases h <;> rfl

/-- What closes a list is no atom. -/
theorem isAtom_of_closer (h : t ∈ closers) : t.isAtom = false := by
  revert t
  decide

/-- Neither is the keyword of a declaration, -/
theorem isAtom_of_keyword (h : t ∈ variableKeywords) : t.isAtom = false := by
  revert t
  decide

/-- nor an operator between operands, -/
theorem isAtom_of_precedence {p : Nat} (h : t.precedence? = some p) : t.isAtom = false := by
  cases t <;> first | rfl | cases h

/-- nor an operator in front of one. -/
theorem isAtom_of_sign (h : isPrefixOperator t = true) : t.isAtom = false := by
  cases t <;> first | rfl | cases h

/-- An operator node covers its token. -/
theorem covers_operator (ht : t.isAtom = false) (h : c.Takes t c') :
    c.Covers (c.nodeTo c' (.operator (some t)) []) c' :=
  Cursor.covers_leaf rfl (ht.symm ▸ rfl) h

/-- An identifier covers the token that it is. -/
theorem covers_identifier (h : c.Takes .ident c') :
    c.Covers (c.nodeTo c' .identifier []) c' :=
  Cursor.covers_leaf rfl rfl h

/-- The trees of a derivation stand over the tokens that it takes. -/
theorem placed_of_derives (h : Derives n σ c vs c') : Placed c c' σ vs := by
  induction h with
  | atom ht hk => exact Cursor.covers_leaf (leaf?_of_atom hk) (isAtom_of_lookup hk) ht
  | parenthesized hopen _ hclose he =>
    exact hopen.covers rfl rfl (he.lays.then_takes hclose rfl)
  | object hopen _ hps => exact hopen.covers rfl rfl hps
  | array hopen _ hes => exact hopen.covers rfl rfl hes
  | newPlain hnew _ _ _ hp => exact hnew.covers rfl rfl hp.lays
  | newCall hnew _ hparen _ hp hargs =>
    exact hnew.covers rfl rfl (hp.lays_then (hparen.lays_then rfl hargs))
  | pathName hname => exact covers_identifier hname
  | pathMember _ hdot hname hp =>
    exact hp.covers rfl (hdot.lays_then rfl (covers_identifier hname).lays)
  | operand _ he => exact he
  | member _ hdot hname he =>
    exact he.covers rfl (hdot.lays_then rfl (covers_identifier hname).lays)
  | call _ hparen _ he hargs => exact he.covers rfl (hparen.lays_then rfl hargs)
  | sign ht hsign _ he => exact (covers_operator (isAtom_of_sign hsign) ht).covers rfl he.lays
  | unsigned _ _ _ _ he => exact he
  | chainStart _ he => exact .cons he (.nil _)
  -- A chain keeps its trees in reverse, the newest first.
  | chainStep _ ht hp _ hvs he =>
    have hop := covers_operator (isAtom_of_precedence hp) ht
    rw [Placed, List.reverse_cons, List.reverse_cons, List.append_assoc]
    exact Cursor.tiles_append.mpr ⟨_, hvs, .cons hop (.cons he (.nil _))⟩
  | binary hvs _ _ ih =>
    rw [Placed, ← inOrder_chainOf hvs] at ih
    exact ih.covers_toAst
  | assign hvs hassign _ ih he =>
    rw [Placed, ← inOrder_chainOf hvs] at ih
    have hop := covers_operator rfl hassign
    exact ih.covers_toAst.covers rfl (hop.lays_then he.lays)
  | property hname hk hcolon _ he =>
    have hkey := Cursor.covers_leaf (leaf?_of_propertyName hk) (isAtom_of_propertyName hk) hname
    exact hkey.covers rfl (hcolon.lays_then rfl he.lays)
  | parameter hname => exact (covers_identifier hname).covers rfl (.refl _)
  | listEnd hclose ht => exact ht.lays (isAtom_of_closer hclose)
  | listLast hclose _ _ ht hv =>
    exact (covers_of_placed_item hv).lays.then_takes ht (isAtom_of_closer hclose)
  | listMore _ _ hcomma _ hv hvs =>
    exact (covers_of_placed_item hv).lays_then (hcomma.lays_then rfl hvs)
  | declared hname _ => exact (covers_identifier hname).covers rfl (.refl _)
  | initialized hname hassign _ he =>
    exact (covers_identifier hname).covers rfl (hassign.lays_then rfl he.lays)
  | lastDeclaration _ _ hd => exact hd.lays
  | moreDeclarations _ hcomma _ hd hds => exact hd.lays_then (hcomma.lays_then rfl hds)
  | noStatement hclose => exact hclose.lays rfl
  | moreStatements _ _ _ hs hss => exact hs.lays_then hss
  | empty ht => exact Cursor.covers_leaf rfl rfl ht
  | block hopen _ hss => exact hopen.covers rfl rfl hss
  | variableStatement hkeyword ht _ hskip hds =>
    exact ht.covers (isAtom_of_keyword hkeyword) rfl (hds.then_skips hskip rfl)
  | ifThen ht hopen _ hclose _ _ he hs =>
    exact ht.covers rfl rfl (hopen.lays_then rfl (he.lays_then (hclose.lays_then rfl hs.lays)))
  | ifElse ht hopen _ hclose _ helse _ he hs hs' =>
    have hbranches := hs.lays_then (helse.lays_then rfl hs'.lays)
    exact ht.covers rfl rfl (hopen.lays_then rfl (he.lays_then (hclose.lays_then rfl hbranches)))
  | whileDo ht hopen _ hclose _ he hs =>
    exact ht.covers rfl rfl (hopen.lays_then rfl (he.lays_then (hclose.lays_then rfl hs.lays)))
  | returnNothing ht _ hskip => exact ht.covers rfl rfl (hskip.lays rfl)
  | returnValue ht _ _ hskip he => exact ht.covers rfl rfl (he.lays.then_skips hskip rfl)
  | function ht hname hopen _ hbrace _ hps hss =>
    have hbody := hbrace.covers (k := .block) rfl rfl hss
    have hrest := Cursor.Lays.trans (hopen.lays_then rfl hps) hbody.lays
    exact ht.covers rfl rfl ((covers_identifier hname).lays_then hrest)
  | expressionStatement _ _ _ hskip he => exact he.covers rfl (hskip.lays rfl)

/-- So do the trees of a whole source. -/
theorem lays_of_derivesAll (h : DerivesAll n c vs) : Lays c.before c.rest vs := by
  induction h with
  | nil hend =>
    rw [hend]
    exact .nil _
  | cons hs _ ih =>
    obtain ⟨mid, hmid, hbefore, hlays⟩ := (placed_of_derives hs : Cursor.Covers _ _ _).lays
    rw [hbefore] at ih
    rw [hmid]
    exact hlays.append ih

end

/-! ### What this says of nodes -/

/-- The children of a node stay inside it one after the other, and the leading trivia of a child
    are either those of the node or come after the node's first token. -/
structure Nests (n : Ast) : Prop where
  fullStart_le : n.fullStart ≤ n.start
  start_le : n.start ≤ n.stop
  inside : ∀ child ∈ n.children, n.start ≤ child.start ∧ child.stop ≤ n.stop
  leading : ∀ child ∈ n.children,
    child.fullStart = n.fullStart ∧ child.start = n.start ∨ n.start < child.fullStart
  apart : n.children.Pairwise fun a b => a.stop ≤ b.fullStart

/-- A tree before trees that come one after the other. -/
theorem spread_cons {middle last : Nat}
    (hv : before ≤ v.fullStart ∧ v.fullStart ≤ v.start ∧ v.start < v.stop)
    (hstop : v.stop = middle) (hlast : middle ≤ last)
    (hall : ∀ w ∈ vs, middle ≤ w.fullStart ∧ w.fullStart ≤ w.start ∧ w.start < w.stop
      ∧ w.stop ≤ last)
    (hpair : vs.Pairwise fun a b => a.stop ≤ b.fullStart) :
    (∀ w ∈ v :: vs, before ≤ w.fullStart ∧ w.fullStart ≤ w.start ∧ w.start < w.stop
        ∧ w.stop ≤ last)
      ∧ (v :: vs).Pairwise fun a b => a.stop ≤ b.fullStart := by
  subst hstop
  obtain ⟨hbefore, hle, hlt⟩ := hv
  refine ⟨List.forall_mem_cons.mpr ⟨⟨hbefore, hle, hlt, hlast⟩, fun w hw => ?_⟩,
    List.pairwise_cons.mpr ⟨fun w hw => (hall w hw).1, hpair⟩⟩
  obtain ⟨hafter, hw⟩ := hall w hw
  exact ⟨by omega, hw⟩

/-- Trees over tokens in order come one after the other. -/
theorem Lays.spread (h : Lays before lexemes vs) (ho : InOrder before lexemes) :
    (∀ v ∈ vs, before ≤ v.fullStart ∧ v.fullStart ≤ v.start ∧ v.start < v.stop
        ∧ v.stop ≤ endAfter before lexemes)
      ∧ vs.Pairwise fun a b => a.stop ≤ b.fullStart := by
  induction h with
  | nil => exact ⟨nofun, .nil⟩
  | @token before l lexemes vs _ _ ih =>
    obtain ⟨hstart, hstop, hrest⟩ := ho
    obtain ⟨hall, hpair⟩ := ih hrest
    refine ⟨fun v hv => ?_, hpair⟩
    obtain ⟨hbefore, hv⟩ := hall v hv
    exact ⟨by omega, hv⟩
  | @leaf before l lexemes v vs _ _ hfullStart hvstart hvstop _ _ ih =>
    obtain ⟨hstart, hstop, hrest⟩ := ho
    obtain ⟨hall, hpair⟩ := ih hrest
    exact spread_cons ⟨by omega, by omega, by omega⟩ hvstop hrest.le_endAfter hall hpair
  | @branch before l mid lexemes v vs _ hfullStart hvstart hvstop _ _ _ ih =>
    obtain ⟨⟨hstart, hstop, hmid⟩, hrest⟩ := inOrder_append.mp ho
    obtain ⟨hall, hpair⟩ := ih hrest
    have hmidle : l.stop ≤ endAfter before (l :: mid) := hmid.le_endAfter
    rw [endAfter_append]
    exact spread_cons ⟨by omega, by omega, by omega⟩ hvstop hrest.le_endAfter hall hpair

/-- A tree over some tokens begins with the first of them or after it. -/
theorem Lays.leading (h : Lays before (l :: lexemes) vs) (ho : InOrder before (l :: lexemes))
    (hv : v ∈ vs) : v.fullStart = before ∧ v.start = l.start ∨ l.stop ≤ v.fullStart := by
  obtain ⟨-, hstop, hrest⟩ := ho
  cases h with
  | token _ _ hvs => exact .inr ((hvs.spread hrest).1 v hv).1
  | leaf _ _ hfullStart hstart _ _ hvs =>
    rcases List.mem_cons.mp hv with rfl | hv
    · exact .inl ⟨hfullStart, hstart⟩
    · exact .inr ((hvs.spread hrest).1 v hv).1
  | branch _ hfullStart hstart _ _ hvs =>
    rcases List.mem_cons.mp hv with rfl | hv
    · exact .inl ⟨hfullStart, hstart⟩
    · obtain ⟨hmid, hafter⟩ := inOrder_append.mp hrest
      exact .inr (Nat.le_trans hmid.le_endAfter ((hvs.spread hafter).1 v hv).1)

/-- All nodes of trees over tokens in order. -/
theorem Lays.nests (h : Lays before lexemes vs) (ho : InOrder before lexemes) :
    ∀ v ∈ vs, ∀ n ∈ v.preorder, Nests n ∧ n.start < n.stop := by
  induction h with
  | nil => exact nofun
  | token _ _ _ ih => exact ih ho.2.2
  | @leaf before l lexemes v vs _ _ hfullStart hstart hstop hchildren _ ih =>
    refine List.forall_mem_cons.mpr ⟨fun n hn => ?_, ih ho.2.2⟩
    rw [Node.preorder_eq, hchildren] at hn
    rw [List.mem_singleton.mp hn]
    have hl := ho.1
    have hl' := ho.2.1
    refine ⟨⟨by omega, by omega, ?_, ?_, ?_⟩, by omega⟩
    · rw [hchildren]
      exact List.forall_mem_nil _
    · rw [hchildren]
      exact List.forall_mem_nil _
    · rw [hchildren]
      exact .nil
  | @branch before l mid lexemes v vs _ hfullStart hstart hstop hchildren _ ihchildren ih =>
    obtain ⟨hmid, hrest⟩ := inOrder_append.mp ho
    refine List.forall_mem_cons.mpr ⟨fun n hn => ?_, ih hrest⟩
    rcases Node.mem_preorder.mp hn with rfl | ⟨child, hchild, hn⟩
    · obtain ⟨hall, hpair⟩ := hchildren.spread hmid
      have hlead := fun child hchild => hchildren.leading (v := child) hmid hchild
      obtain ⟨hle, hlt, hafter⟩ := hmid
      have hend : l.stop ≤ endAfter before (l :: mid) := hafter.le_endAfter
      refine ⟨⟨by omega, by omega, fun child hchild => ?_, fun child hchild => ?_, hpair⟩, by omega⟩
      · obtain ⟨-, hle', -, hstop'⟩ := hall child hchild
        rcases hlead child hchild with ⟨-, heq⟩ | hgt <;> exact ⟨by omega, by omega⟩
      · rcases hlead child hchild with ⟨heq, heq'⟩ | hgt
        · exact .inl ⟨heq.trans hfullStart.symm, heq'.trans hstart.symm⟩
        · exact .inr (by omega)
    · exact ihchildren hmid child hchild n hn

/-- Where lexemes end, one of them does. -/
theorem exists_stop_eq_endAfter (before : Nat) (l : Lexeme) (mid : List Lexeme) :
    ∃ l' ∈ l :: mid, l'.stop = endAfter before (l :: mid) := by
  induction mid generalizing before l with
  | nil => exact ⟨l, List.mem_cons_self, rfl⟩
  | cons l' mid ih =>
    obtain ⟨l'', hl'', hstop⟩ := ih l.stop l'
    exact ⟨l'', List.mem_cons_of_mem _ hl'', hstop⟩

/-- Nodes begin and end where tokens do. -/
theorem Lays.ends (h : Lays before lexemes vs) : ∀ v ∈ vs, ∀ n ∈ v.preorder,
    (n.fullStart = before ∨ ∃ l ∈ lexemes, l.stop = n.fullStart)
      ∧ (∃ l ∈ lexemes, l.start = n.start) ∧ ∃ l ∈ lexemes, l.stop = n.stop := by
  induction h with
  | nil => exact List.forall_mem_nil _
  | token before _ _ ih =>
    intro v hv n hn
    grind [ih v hv n hn]
  | leaf _ _ hfullStart hstart hstop hchildren _ ih =>
    refine List.forall_mem_cons.mpr ⟨fun n hn => ?_, fun v hv n hn => ?_⟩
    · rw [Node.preorder_eq, hchildren] at hn
      rw [List.mem_singleton.mp hn]
      exact ⟨.inl hfullStart, ⟨_, List.mem_cons_self, hstart.symm⟩,
        ⟨_, List.mem_cons_self, hstop.symm⟩⟩
    · grind [ih v hv n hn]
  | @branch before l mid lexemes v vs _ hfullStart hstart hstop _ _ ihchildren ih =>
    have hend := exists_stop_eq_endAfter before l mid
    refine List.forall_mem_cons.mpr ⟨fun n hn => ?_, fun v hv n hn => ?_⟩
    · rcases Node.mem_preorder.mp hn with rfl | ⟨child, hchild, hn⟩
      · grind
      · grind [ihchildren child hchild n hn]
    · grind [ih v hv n hn]

/-- The token of a leaf, and where it begins and ends. -/
def leafPlace (n : Ast) : Option Token × Nat × Nat :=
  (n.kind.leaf?, n.start, n.stop)

/-- A token, and where it begins and ends. -/
def tokenPlace (l : Lexeme) : Option Token × Nat × Nat :=
  (some l.token, l.start, l.stop)

/-- The atoms of the trees, from left to right, are the atoms among the tokens. -/
theorem Lays.atoms (h : Lays before lexemes vs) :
    ((vs.flatMap Node.preorder).filter (·.kind.isAtom)).map leafPlace
      = (lexemes.filter (·.token.isAtom)).map tokenPlace := by
  induction h with
  | nil => rfl
  | token _ hl _ ih =>
    rw [ih, List.filter_cons_of_neg (by rw [hl]; exact Bool.false_ne_true)]
  | @leaf before l lexemes v vs hk ha _ hstart hstop hchildren _ ih =>
    have hpreorder : v.preorder = [v] := by
      rw [Node.preorder_eq, hchildren]
      rfl
    have hplace : leafPlace v = tokenPlace l := by
      rw [leafPlace, tokenPlace, hk, hstart, hstop]
    rw [List.flatMap_cons, hpreorder, List.singleton_append, List.filter_cons, List.filter_cons, ha]
    split
    · rw [List.map_cons, List.map_cons, ih, hplace]
    · exact ih
  | @branch before l mid lexemes v vs hk _ _ _ _ _ ihchildren ih =>
    -- Atoms are leaves, so the tree itself is none; those in it are the atoms among its tokens.
    have ha : v.kind.isAtom = false := by
      have hall : ∀ k ∈ Script.atoms.map (·.2), k.leaf? ≠ none := by decide
      rw [Kind.isAtom, List.contains_eq_mem, decide_eq_false_iff_not]
      exact fun hmem => hall _ hmem hk
    rw [List.flatMap_cons, Node.preorder_eq, List.cons_append, List.filter_cons, ha,
      if_neg Bool.false_ne_true, List.filter_append, List.filter_append, List.map_append,
      List.map_append, ihchildren, ih]

/-! ### Sources -/

/-- An offset is a boundary of a text if no character straddles it. -/
def IsBoundary (source : String) (offset : Nat) : Prop :=
  ∃ front back, source.toList = front ++ back ∧ byteLength front = offset

/-- Every text has boundaries at its beginning -/
theorem isBoundary_zero (source : String) : IsBoundary source 0 :=
  ⟨[], source.toList, rfl, rfl⟩

/-- and at its end, -/
theorem isBoundary_size (source : String) : IsBoundary source source.utf8ByteSize :=
  ⟨source.toList, [], (List.append_nil _).symm, (utf8ByteSize_eq_byteLength source).symm⟩

/-- and none behind it. -/
theorem IsBoundary.le {source : String} {offset : Nat} (h : IsBoundary source offset) :
    offset ≤ source.utf8ByteSize := by
  obtain ⟨front, back, hsource, rfl⟩ := h
  rw [utf8ByteSize_eq_byteLength, hsource, byteLength_append]
  exact Nat.le_add_right _ _

/-- Between two boundaries there is some text. -/
theorem isEmpty_slice {source : String} {start stop : Nat} (h : IsBoundary source start)
    (h' : IsBoundary source stop) (hlt : start < stop) :
    (slice source start stop).isEmpty = false := by
  obtain ⟨a, b, hsource, rfl⟩ := h
  obtain ⟨a', b', hsource', rfl⟩ := h'
  rcases List.append_eq_append_iff.mp (hsource.symm.trans hsource') with ⟨m, rfl, rfl⟩ | ⟨m, rfl, -⟩
  · rw [byteLength_append] at hlt ⊢
    have hslice := slice_append a m b'
    rw [List.append_assoc, ← hsource, String.ofList_toList] at hslice
    rw [hslice]
    cases m with
    | nil => exact absurd hlt (Nat.lt_irrefl _)
    | cons ch m => simp
  · rw [byteLength_append] at hlt
    omega

/-- Tokens begin and end between characters. -/
theorem isBoundary_of_mem {source : String} (h : Lexes 0 source.toList lexemes)
    (hl : l ∈ lexemes) : IsBoundary source l.start ∧ IsBoundary source l.stop := by
  obtain ⟨front, back, rfl⟩ := List.append_of_mem hl
  obtain ⟨cs, c, more, cs', hsource, hstart, htext, -⟩ := h.split
  refine ⟨⟨cs, c :: more ++ cs', hsource, by omega⟩, ⟨cs ++ c :: more, cs', ?_, ?_⟩⟩
  · rw [hsource, List.append_assoc]
  · rw [stop_eq, hstart, htext, String.toList_ofList, byteLength_append]
    omega

/-- The trees of a source stand over its tokens. -/
theorem lays_of_parse {source : String} {root : Ast} (h : parse source = .ok root) :
    ∃ all, Lexes 0 source.toList all
      ∧ lex source = .ok (all.filter (!·.token.isComment))
      ∧ Lays 0 (all.filter (!·.token.isComment)) root.children
      ∧ root = rootOf source.utf8ByteSize (all.filter (!·.token.isComment)) root.children := by
  obtain ⟨lexemes, ss, hlex, hss, rfl⟩ := parse_eq_ok.mp h
  obtain ⟨all, htokens, rfl⟩ := lex_eq_ok.mp hlex
  exact ⟨all, lexes_of_tokensFrom htokens, hlex, lays_of_derivesAll hss, rfl⟩

/-- How the nodes of a tree stand in its source, given the tokens of the source. -/
structure Spanned (source : String) (lexemes : List Lexeme) (root : Ast) : Prop where
  /-- The leading trivia of a node, its first token and its end come in this order, inside the
      source and between characters. -/
  ordered : ∀ n ∈ root.preorder,
    n.fullStart ≤ n.start ∧ n.start ≤ n.stop ∧ n.stop ≤ source.utf8ByteSize
      ∧ IsBoundary source n.fullStart ∧ IsBoundary source n.start ∧ IsBoundary source n.stop
  /-- Every node but the root has some text, and begins and ends where tokens do. -/
  tokens : ∀ n ∈ root.children.flatMap Node.preorder,
    n.start < n.stop ∧ (∃ l ∈ lexemes, l.start = n.start) ∧ ∃ l ∈ lexemes, l.stop = n.stop
  /-- Children stay inside their parent. -/
  inside : ∀ n ∈ root.preorder, ∀ child ∈ n.children,
    n.start ≤ child.start ∧ child.stop ≤ n.stop
  /-- They come one after the other, each with its leading trivia after the one before. -/
  apart : ∀ n ∈ root.preorder, n.children.Pairwise fun a b => a.stop ≤ b.fullStart
  /-- The names, numbers, strings, truth values and `this` of the tree, from left to right, are the
      tokens of these kinds, each at its place. -/
  atoms : (root.preorder.filter (·.kind.isAtom)).map leafPlace
    = (lexemes.filter (·.token.isAtom)).map tokenPlace

section

variable {source : String} {size : Nat} {root n : Ast}

/-- The root of a source begins at its first token, or at its end if it has none. -/
theorem isBoundary_start_rootOf (vs : List Ast)
    (h : ∀ l ∈ lexemes, IsBoundary source l.start ∧ IsBoundary source l.stop) :
    IsBoundary source (rootOf source.utf8ByteSize lexemes vs).start := by
  rw [rootOf]
  cases hhead : lexemes.head? with
  | none => exact isBoundary_size source
  | some l => exact (h l (List.mem_of_head? hhead)).1

/-- The trees of a source nest in its root. -/
theorem Lays.nests_rootOf (h : Lays 0 lexemes vs) (ho : InOrder 0 lexemes)
    (hsize : ∀ l ∈ lexemes, l.start ≤ size ∧ l.stop ≤ size) : Nests (rootOf size lexemes vs) := by
  have hstop : ∀ v ∈ vs, v.stop ≤ size := by
    intro v hv
    obtain ⟨-, -, l, hl, hlast⟩ := h.ends v hv v v.self_mem_preorder
    exact hlast ▸ (hsize l hl).2
  cases lexemes with
  | nil =>
    have hnone : ∀ v, v ∉ vs := by
      intro v hv
      obtain ⟨-, ⟨l, hl, -⟩, -⟩ := h.ends v hv v v.self_mem_preorder
      cases hl
    exact ⟨Nat.zero_le _, Nat.le_refl _, fun v hv => absurd hv (hnone v),
      fun v hv => absurd hv (hnone v), (h.spread ho).2⟩
  | cons l rest =>
    refine ⟨Nat.zero_le _, (hsize l List.mem_cons_self).1, fun v hv => ⟨?_, hstop v hv⟩,
      fun v hv => ?_, (h.spread ho).2⟩
    · have hle := ((h.spread ho).1 v hv).2.1
      have hl := ho.2.1
      show l.start ≤ v.start
      rcases h.leading ho hv with ⟨-, heq⟩ | hafter <;> omega
    · have hl := ho.2.1
      rcases h.leading ho hv with hfirst | hafter
      · exact .inl hfirst
      · exact .inr (Nat.lt_of_lt_of_le hl hafter)

/-- In a source that parses, children nest. -/
theorem nests_of_parse (h : parse source = .ok root) : ∀ n ∈ root.preorder, Nests n := by
  obtain ⟨all, hlexes, -, hlays, hroot⟩ := lays_of_parse h
  have horder := (inOrder_of_lexes hlexes).filter (!·.token.isComment)
  have hsize : ∀ l ∈ all.filter (!·.token.isComment),
      l.start ≤ source.utf8ByteSize ∧ l.stop ≤ source.utf8ByteSize := by
    intro l hl
    obtain ⟨hstart, hstop⟩ := isBoundary_of_mem hlexes (List.mem_filter.mp hl).1
    exact ⟨hstart.le, hstop.le⟩
  intro n hn
  rcases Node.mem_preorder.mp hn with rfl | ⟨v, hv, hn⟩
  · rw [hroot]
    exact hlays.nests_rootOf horder hsize
  · exact (hlays.nests horder v hv n hn).1

/-- In a source that parses, every node but the root has some text, and its leading trivia, its
    first token and its end are between characters. -/
theorem bounds_of_parse (h : parse source = .ok root) : ∀ v ∈ root.children, ∀ n ∈ v.preorder,
    n.start < n.stop ∧ IsBoundary source n.fullStart ∧ IsBoundary source n.start
      ∧ IsBoundary source n.stop := by
  obtain ⟨all, hlexes, -, hlays, -⟩ := lays_of_parse h
  have horder := (inOrder_of_lexes hlexes).filter (!·.token.isComment)
  intro v hv n hn
  obtain ⟨hfull, ⟨l, hl, hfirst⟩, l', hl', hlast⟩ := hlays.ends v hv n hn
  have hstart := (isBoundary_of_mem hlexes (List.mem_filter.mp hl).1).1
  have hstop := (isBoundary_of_mem hlexes (List.mem_filter.mp hl').1).2
  refine ⟨(hlays.nests horder v hv n hn).2, ?_, hfirst ▸ hstart, hlast ▸ hstop⟩
  -- The leading trivia begin where the token before the node ends, or at the top of the source.
  rcases hfull with hzero | ⟨l'', hl'', hprevious⟩
  · exact hzero ▸ isBoundary_zero source
  · exact hprevious ▸ (isBoundary_of_mem hlexes (List.mem_filter.mp hl'').1).2

/-- The leading trivia of any node, its first token and its end come in this order, inside the
    source and between characters. -/
theorem ordered_of_parse (h : parse source = .ok root) : ∀ n ∈ root.preorder,
    n.fullStart ≤ n.start ∧ n.start ≤ n.stop ∧ n.stop ≤ source.utf8ByteSize
      ∧ IsBoundary source n.fullStart ∧ IsBoundary source n.start ∧ IsBoundary source n.stop := by
  obtain ⟨all, hlexes, -, -, hroot⟩ := lays_of_parse h
  intro n hn
  refine ⟨(nests_of_parse h n hn).fullStart_le, (nests_of_parse h n hn).start_le, ?_⟩
  rcases Node.mem_preorder.mp hn with rfl | ⟨v, hv, hn⟩
  · rw [hroot]
    exact ⟨Nat.le_refl _, isBoundary_zero source,
      isBoundary_start_rootOf _ fun l hl => isBoundary_of_mem hlexes (List.mem_filter.mp hl).1,
      isBoundary_size source⟩
  · obtain ⟨-, hboundary⟩ := bounds_of_parse h v hv n hn
    exact ⟨hboundary.2.2.le, hboundary⟩

/-- **Spans.**  In a source that parses, every node stands where its tokens do. -/
theorem parse_spans (h : parse source = .ok root) :
    ∃ lexemes, lex source = .ok lexemes ∧ Spanned source lexemes root := by
  have hnests := nests_of_parse h
  have hbounds := bounds_of_parse h
  obtain ⟨all, hlexes, hlex, hlays, hroot⟩ := lays_of_parse h
  refine ⟨_, hlex, ordered_of_parse h, fun n hn => ?_, fun n hn => (hnests n hn).inside,
    fun n hn => (hnests n hn).apart, ?_⟩
  · obtain ⟨v, hv, hn⟩ := List.mem_flatMap.mp hn
    exact ⟨(hbounds v hv n hn).1, (hlays.ends v hv n hn).2⟩
  · rw [hroot, Node.preorder_eq, List.filter_cons]
    exact hlays.atoms

/-- A call with a comment and a character of two bytes. -/
theorem parse_spans_call :
    ∃ root lexemes, parse "f('é', /*1*/ x.y);" = .ok root
      ∧ lex "f('é', /*1*/ x.y);" = .ok lexemes ∧ Spanned "f('é', /*1*/ x.y);" lexemes root
      ∧ (root.preorder.filter (·.kind.isAtom)).map (·.start) = [0, 2, 14, 16] := by
  have hparse : (parse "f('é', /*1*/ x.y);").map
      (fun root => (root.preorder.filter (·.kind.isAtom)).map (·.start)) = .ok [0, 2, 14, 16] := by
    decide +kernel
  cases hroot : parse "f('é', /*1*/ x.y);" with
  | error e =>
    rw [hroot] at hparse
    cases hparse
  | ok root =>
    rw [hroot] at hparse
    injection hparse with hstarts
    obtain ⟨lexemes, hlex, hspanned⟩ := parse_spans hroot
    exact ⟨root, lexemes, rfl, hlex, hspanned, hstarts⟩

end

end Transcode.Script
