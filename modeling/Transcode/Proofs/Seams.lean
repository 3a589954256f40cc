import Transcode.Proofs.Extracts
import Transcode.Proofs.Joining
import Transcode.Proofs.Surroundings

namespace Transcode.Script

/-!
# What a source shows after another one

The nodes of two sources see the same of the two together as each does of its own source: those of
the first one where they are (`copies_first`), and those of the second one further on
(`copies_second`).  Only the trivia before the very first token of the second source change, as they
now begin with the line break in between.  The comments in them stay the same (`leadingOf_second`),
and no property of an object comes first in a source, for which the line break itself would matter
(`fullStart_pos_of_property`).
-/

variable {lexemes : List Lexeme} {n : Nat} {σ : Symbol} {c c' : Cursor} {t : Token} {vs : List Ast}

/-! ### Properties -/

/-- The properties in a tree do not begin at the first token. -/
def Within (lexemes : List Lexeme) (v : Ast) : Prop :=
  ∀ m ∈ v.preorder, m.kind = .propertyAssignment →
    ∃ front l back, lexemes = front ++ l :: back ∧ front ≠ [] ∧ m.fullStart = endOf front

/-- Whether the rules for a symbol are about properties. -/
def Symbol.ofProperties : Symbol → Bool
  | .property | .list .property _ => true
  | _ => false

/-- A node that is no property begins anywhere. -/
theorem within_nodeTo {k : Kind} (hk : k ≠ .propertyAssignment)
    (hvs : ∀ v ∈ vs, Within lexemes v) : Within lexemes (c.nodeTo c' k vs) :=
  Node.forall_preorder (fun hkind => absurd hkind hk) hvs

/-- A leaf is no property. -/
theorem ne_property_of_leaf {k : Kind} (hk : k.leaf? = some t) : k ≠ .propertyAssignment := by
  rintro rfl
  cases hk

/-- A property behind the first token does not begin there. -/
theorem within_property (hc : c.Splits lexemes) (hne : c.rest ≠ [])
    (hinside : c.rest.length < lexemes.length) (hvs : ∀ v ∈ vs, Within lexemes v) :
    Within lexemes (c.nodeTo c' .propertyAssignment vs) := by
  refine Node.forall_preorder (fun _ => ?_) hvs
  obtain ⟨front, hfront, hbefore⟩ := hc
  obtain ⟨l, back, hrest⟩ := List.exists_cons_of_ne_nil hne
  refine ⟨front, l, back, hrest ▸ hfront, ?_, hbefore⟩
  rintro rfl
  rw [hfront] at hinside
  exact Nat.lt_irrefl _ hinside

/-- Operands in a chain begin where they did before. -/
theorem within_chainOf (h : Derives n .chain c vs c') (hvs : ∀ v ∈ vs, Within lexemes v) :
    Within lexemes (chainOf vs).toAst :=
  Chain.forall_preorder_toAst (fun _ _ _ _ _ => nofun) fun v hv =>
    hvs v ((mem_inOrder_chainOf h).mp hv)

/-- Behind some of the lexemes there are no more of them. -/
theorem Cursor.Splits.length_le (hc : c.Splits lexemes) : c.rest.length ≤ lexemes.length := by
  obtain ⟨front, rfl, -⟩ := hc
  rw [List.length_append]
  exact Nat.le_add_left _ _

/-- A list is about properties if its items are. -/
theorem ofProperties_list (item : Item) (close : Token) :
    (Symbol.list item close).ofProperties = item.symbol.ofProperties := by
  cases item <;> rfl

/-- A property comes after the brace of its object. -/
theorem within_of_derives (h : Derives n σ c vs c') (hc : c.Splits lexemes)
    (hinside : σ.ofProperties = true → c.rest.length < lexemes.length) :
    ∀ v ∈ vs, Within lexemes v := by
  induction h with
  | listLast _ _ _ _ ih =>
    rw [ofProperties_list] at hinside
    exact ih hc hinside
  | listMore _ hv hcomma _ ihv ihvs =>
    have hc₂ := hcomma.splits (begins_of_derives hv hc).1
    have hlater := Nat.lt_of_lt_of_le (hcomma.shorter.trans hv.shorter) hc.length_le
    rw [ofProperties_list] at hinside
    exact List.forall_mem_cons.mpr
      ⟨ihv hc hinside _ List.mem_cons_self, ihvs hc₂ fun _ => hlater⟩
  -- In all other rules a token is taken before the properties, or there are none.
  | _ => grind [→ Cursor.Takes.splits, → Cursor.Skips.splits, → Cursor.Takes.rest_ne_nil,
      within_nodeTo, within_property, within_chainOf, → leaf?_of_atom, → leaf?_of_propertyName,
      → ne_property_of_leaf, → Cursor.Takes.shorter, Symbol.ofProperties, → begins_of_derives,
      → Cursor.Splits.length_le]

/-- In statements, no property begins at the first token. -/
theorem within_of_derivesAll (h : DerivesAll n c vs) (hc : c.Splits lexemes) :
    ∀ v ∈ vs, Within lexemes v :=
  h.forall_mem_splits hc fun hs hc => within_of_derives hs hc nofun _ List.mem_cons_self

/-- The leading trivia of a property do not begin where its source does. -/
theorem fullStart_pos_of_property {source : String} {root m : Ast} (h : parse source = .ok root)
    (hm : m ∈ root.preorder) (hkind : m.kind = .propertyAssignment) : 0 < m.fullStart := by
  obtain ⟨lexemes, ss, hlex, hss, rfl⟩ := parse_eq_ok.mp h
  obtain ⟨all, htokens, rfl⟩ := lex_eq_ok.mp hlex
  rcases Node.mem_preorder.mp hm with rfl | ⟨v, hv, hm⟩
  · cases hkind
  · obtain ⟨front, l, back, hlexemes, hne, hfullStart⟩ :=
      within_of_derivesAll hss ⟨[], rfl, rfl⟩ v hv m hm hkind
    obtain ⟨front', l', rfl⟩ := (List.eq_nil_or_concat' front).resolve_left hne
    have hmem : l' ∈ all.filter (!·.token.isComment) := by
      change all.filter (!·.token.isComment) = _ at hlexemes
      rw [hlexemes]
      simp
    have hplace := ((inOrder_of_lexes (lexes_of_tokensFrom htokens)).filter _).of_mem hmem
    rw [hfullStart, endOf_concat]
    exact Nat.zero_lt_of_lt hplace.2.1

end Transcode.Script

namespace Transcode.Engine

open Text Trivia

/-! ### Leading trivia at a seam -/

section

variable {source : String} {bounded owes : Bool} {opened opened' pos : Nat} {bs : List UInt8}
  {spans : List Span}

/-- Text before the first comment is no piece, wherever it begins. -/
theorem piecesOf_inText :
    piecesOf source false owes (inText bounded opened pos bs)
      = piecesOf source false owes (inText bounded opened' pos bs) := by
  obtain ⟨pos', spans, -, hspans⟩ := inText_eq_append bounded pos bs
  rw [hspans, hspans, piecesOf_plainText, piecesOf_plainText]

end

end Transcode.Engine

namespace Transcode.Target

open Output Engine Script Text Trivia

section

variable {s u : String} {n : Ast}

/-- The second of two texts comes after the first one and a line break. -/
theorem exists_toList_joined (s u : String) :
    ∃ before after, (joined s u).toList = before ++ u.toList ++ after
      ∧ byteLength before = s.utf8ByteSize + 1 := by
  refine ⟨s.toList ++ ['\n'], [], ?_, ?_⟩
  · rw [toList_joined, List.append_nil, List.append_assoc]
    rfl
  · rw [byteLength_append, utf8ByteSize_eq_byteLength]
    rfl

/-- It shows on the next line what it shows by itself. -/
theorem shown_second (s u : String) :
    Shown (nextLine s).start u (joined s u) (bytes u).length := by
  obtain ⟨before, after, hchars, hbefore⟩ := exists_toList_joined s u
  have hshown := shown_within hchars
  rwa [hbefore] at hshown

/-- The text of the second source is found behind the first one and the line break, -/
theorem slice_second (s : String) (p : Nat) {q : Nat} (hq : q ≤ (bytes u).length) :
    slice (joined s u) ((nextLine s).start p) ((nextLine s).start q) = slice u p q := by
  obtain ⟨before, after, hchars, hbefore⟩ := exists_toList_joined s u
  have hslice := slice_within hchars p hq
  rwa [hbefore] at hslice

/-- The first one comes after nothing. -/
theorem toList_joined_nil (s u : String) :
    (joined s u).toList = [] ++ s.toList ++ '\n' :: u.toList :=
  toList_joined s u

/-- It shows what it does where it is. -/
theorem shown_first (s u : String) : Shown id s (joined s u) (bytes s).length :=
  shown_within (toList_joined_nil s u)

/-- and that of the first source where it was. -/
theorem slice_first (u : String) (p : Nat) {q : Nat} (hq : q ≤ (bytes s).length) :
    slice (joined s u) p q = slice s p q :=
  slice_within (toList_joined_nil s u) p hq

/-- Joined, two sources have a line feed in between. -/
theorem bytes_joined (s u : String) : bytes (joined s u) = bytes s ++ lineFeed :: bytes u := by
  rw [bytes, toList_joined, List.flatMap_append]
  rfl

/-- From the end of the first text on, there is a line break and then the second text. -/
theorem window_seam (s u : String) (q : Nat) :
    window (joined s u) s.utf8ByteSize ((nextLine s).start q)
      = lineFeed :: window (joined s u) ((nextLine s).start 0) ((nextLine s).start q) := by
  have hstart : (nextLine s).start 0 = (bytes s).length + 1 := by
    rw [length_bytes]
    exact Nat.zero_add _
  have hlength : (nextLine s).start q - (bytes s).length = q + 1 := by
    rw [length_bytes]
    show q + (s.utf8ByteSize + 1) - s.utf8ByteSize = q + 1
    omega
  have hlater : (nextLine s).start q - ((bytes s).length + 1) = q := by omega
  rw [window, window, hstart, hlater, ← length_bytes, hlength, bytes_joined, List.drop_left,
    List.drop_length_add_append]
  rfl

/-- The comments before the first token of the second text are the same after the first text. -/
theorem leadingOf_second (hfull : n.fullStart = 0) (hstart : n.start ≤ (bytes u).length)
    (habuts : Abuts u n) (habuts' : Abuts (joined s u) (n.relocate (nextLine s))) :
    leadingOf (joined s u) (n.relocate (nextLine s))
      = (leadingOf u n).map (Piece.relocate (nextLine s).start) := by
  have hshown := shown_second s u
  have hle : (nextLine s).start n.start ≤ (bytes (joined s u)).length :=
    (hshown.moves.strictMono.monotone hstart).trans hshown.moves.le'
  have hedge : (nextLine s).edge n.fullStart = s.utf8ByteSize := by
    rw [hfull]
    rfl
  obtain ⟨hscan, hfits⟩ := @Moves.scan _ _ _ _ 0 _ hshown.moves hstart
  rw [Abuts, hfull] at habuts
  rw [Abuts, Node.fullStart_relocate, Node.start_relocate, hedge] at habuts'
  have hpieces := (piecesOf_relocate hshown hfits false false).1
  have hzero : (nextLine s).start 0 ≤ (nextLine s).start n.start :=
    hshown.moves.strictMono.monotone (Nat.zero_le _)
  have hend : s.utf8ByteSize ≤ (nextLine s).start n.start :=
    (Nat.le_add_right s.utf8ByteSize 1).trans (Nat.le_add_left _ _)
  rw [leadingOf, leadingOf, Node.fullStart_relocate, hedge, hfull, ← habuts, ← habuts', ← hpieces,
    ← hscan, scan_eq_window hle, scan_eq_window hle, Nat.min_eq_left hzero, Nat.min_eq_left hend,
    window_seam, inText_space (by decide)]
  have hnext : s.utf8ByteSize + 1 = (nextLine s).start 0 := (Nat.zero_add _).symm
  rw [hnext]
  exact piecesOf_inText

/-! ### Nodes of two sources -/

/-- A node of a tree other than its root. -/
def Below (root n : Ast) : Prop :=
  ∃ v ∈ root.children, n ∈ v.preorder

variable {root root' both : Ast} {ρ : String → String}

/-- What is below a root is a node of its tree, -/
theorem Below.mem_preorder (h : Below root n) : n ∈ root.preorder :=
  Node.mem_preorder.mpr (.inr h)

/-- all nodes in it are below the root, -/
theorem Below.preorder (h : Below root n) : ∀ k ∈ n.preorder, Below root k := by
  obtain ⟨v, hv, hn⟩ := h
  exact fun k hk => ⟨v, hv, Node.mem_preorder_trans hn hk⟩

/-- and so its children are. -/
theorem Below.children (h : Below root n) : ∀ child ∈ n.children, Below root child :=
  fun child hchild => h.preorder child (Node.mem_preorder_of_mem_children hchild)

/-- A node has some text, which lies in its source. -/
theorem Below.bounds (h : Below root n) (hparse : parse s = .ok root) :
    0 < n.stop ∧ n.start ≤ (bytes s).length ∧ n.stop ≤ (bytes s).length := by
  obtain ⟨v, hv, hn⟩ := h
  obtain ⟨hlt, -, hstart, hstop⟩ := bounds_of_parse hparse v hv n hn
  rw [length_bytes]
  exact ⟨Nat.zero_lt_of_lt hlt, hstart.le, hstop.le⟩

/-- The text of a node is there after the other source comes, too. -/
theorem textIn_first (u : String) (h : parse s = .ok root) (hn : Below root n) :
    (n.relocate ⟨id, id⟩).textIn (joined s u) = n.textIn s := by
  rw [Node.relocate_id]
  exact slice_first u _ (hn.bounds h).2.2

/-- A node of the second source has the same text where it moves to, -/
theorem textIn_second (s : String) (h : parse u = .ok root') (hn : Below root' n) :
    (n.relocate (nextLine s)).textIn (joined s u) = n.textIn u := by
  obtain ⟨hpos, -, hstop⟩ := hn.bounds h
  rw [Node.textIn, Node.textIn, Node.start_relocate, Node.stop_relocate, edge_nextLine hpos]
  exact slice_second s _ hstop

section

variable (hboth : parse (joined s u) = .ok both)
  (hchildren : both.children = root.children ++ root'.children.map (Node.relocate (nextLine s)))

include hchildren

/-- The nodes of both sources are in the tree of the two together. -/
theorem below_first (hn : Below root n) : Below both (n.relocate ⟨id, id⟩) := by
  obtain ⟨v, hv, hn⟩ := hn
  rw [Node.relocate_id]
  exact ⟨v, hchildren ▸ List.mem_append_left _ hv, hn⟩

/-- and is below the root of both. -/
theorem below_second (hn : Below root' n) : Below both (n.relocate (nextLine s)) := by
  obtain ⟨v, hv, hn⟩ := hn
  have hv' : v.relocate (nextLine s) ∈ both.children := by
    rw [hchildren]
    exact List.mem_append_right _ (List.mem_map_of_mem hv)
  exact ⟨_, hv', Node.relocate_mem_preorder hn⟩

include hboth

/-- The nodes of the first source show what they do there. -/
theorem copies_first (h : parse s = .ok root) :
    Copies s (joined s u) ⟨id, id⟩ id (Below root) := by
  have hshown := shown_first s u
  have hρ : Renames id id (bytes s).length := fun p _ => by cases p <;> rfl
  refine copies_of_kept hshown hρ (fun n hn => hn.children)
    (fun n hn => wellFormed_of_parse h n hn.mem_preorder) (fun n hn => ?_)
    (fun n hn _ => textIn_first u h hn)
  obtain ⟨-, hstart, hstop⟩ := hn.bounds h
  exact kept_of_abuts hshown hstart hstop rfl rfl rfl (abuts_of_parse h n hn.mem_preorder)
    (abuts_of_parse hboth _ (below_first hchildren hn).mem_preorder)

/-- The nodes of the second source are kept. -/
theorem kept_second (h : parse u = .ok root') (hn : Below root' n) :
    Kept (nextLine s).start (nextLine s) u (joined s u) (bytes u).length n := by
  obtain ⟨hpos, hstart, hstop⟩ := hn.bounds h
  have habuts : Abuts u n := abuts_of_parse h n hn.mem_preorder
  have habuts' : Abuts (joined s u) (n.relocate (nextLine s)) :=
    abuts_of_parse hboth _ (below_second hchildren hn).mem_preorder
  -- Only the trivia before the first token begin elsewhere, where the line break does.
  rcases Nat.eq_zero_or_pos n.fullStart with hfull | hfull
  · refine ⟨hstart, hstop, rfl, edge_nextLine hpos, habuts,
      leadingOf_second hfull hstart habuts habuts', fun hkind => ?_⟩
    exact absurd hfull (Nat.ne_of_gt (fullStart_pos_of_property h hn.mem_preorder hkind))
  · exact kept_of_abuts (shown_second s u) hstart hstop (edge_nextLine hfull) rfl
      (edge_nextLine hpos) habuts habuts'

/-- The nodes of the second source show on the next line what they do there. -/
theorem copies_second (h : parse u = .ok root')
    (hρ : Renames ρ (nextLine s).start (bytes u).length) :
    Copies u (joined s u) (nextLine s) ρ (Below root') := by
  refine copies_of_kept (shown_second s u) hρ (fun n hn => hn.children)
    (fun n hn => wellFormed_of_parse h n hn.mem_preorder)
    (fun n hn => kept_second hboth hchildren h hn) (fun n hn _ => textIn_second s h hn)

end

end

end Transcode.Target
