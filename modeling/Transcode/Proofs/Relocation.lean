import Transcode.Proofs.Boundaries

namespace Transcode

/-!
# Trees at other places

The grammar reads the kinds of tokens and never their places, so that the same tokens at other
places have the same tree at other places.  A `Relocation` says where places go, with a choice for
where something begins and for where it ends or its trivia begin: the two differ at a seam, where
a text is cut off and something else stands before it.

The tokens may even be followed by others (`Derives.relocate`), as long as they end in a `;`, which
ends all that could go on, and what follows does not begin with `else`.
-/

/-- Where places go. -/
structure Relocation where
  /-- Where a token at an offset goes. -/
  start : Nat → Nat
  /-- Where the end of a token goes, or the beginning of leading trivia. -/
  edge : Nat → Nat

namespace Node

variable {κ : Type}

mutual

/-- A node at another place. -/
def relocate (m : Relocation) : Node κ → Node κ
  | ⟨kind, fullStart, start, stop, children⟩ =>
    ⟨kind, m.edge fullStart, m.start start, m.edge stop, relocateAll m children⟩

/-- Some nodes at other places. -/
def relocateAll (m : Relocation) : List (Node κ) → List (Node κ)
  | [] => []
  | n :: rest => relocate m n :: relocateAll m rest

end

variable {m : Relocation} {n : Node κ} {ns : List (Node κ)}

/-- Nodes are moved one by one. -/
theorem relocateAll_eq_map : relocateAll m ns = ns.map (relocate m) := by
  induction ns with
  | nil => rfl
  | cons n ns ih => rw [relocateAll, ih, List.map_cons]

/-- A node keeps its sort, -/
@[simp] theorem kind_relocate : (n.relocate m).kind = n.kind := by
  cases n; rfl

/-- begins with its trivia where that moves to, -/
@[simp] theorem fullStart_relocate : (n.relocate m).fullStart = m.edge n.fullStart := by
  cases n; rfl

/-- starts where its start moves to -/
@[simp] theorem start_relocate : (n.relocate m).start = m.start n.start := by
  cases n; rfl

/-- and ends where its end does. -/
@[simp] theorem stop_relocate : (n.relocate m).stop = m.edge n.stop := by
  cases n; rfl

/-- Its children move with it, -/
@[simp] theorem children_relocate : (n.relocate m).children = n.children.map (relocate m) := by
  cases n
  exact relocateAll_eq_map

/-- and its name stays. -/
@[simp] theorem kindName_relocate [Named κ] : (n.relocate m).kindName = n.kindName := by
  rw [kindName, kind_relocate, kindName]

/-- A node moves with all that it is made of. -/
theorem relocate_mk {kind : κ} {fullStart start stop : Nat} {children : List (Node κ)} :
    relocate m ⟨kind, fullStart, start, stop, children⟩
      = ⟨kind, m.edge fullStart, m.start start, m.edge stop, children.map (relocate m)⟩ := by
  rw [relocate, relocateAll_eq_map]

/-- The last of some nodes is the last one when they have moved. -/
theorem getLast_relocate (n : Node κ) (ns : List (Node κ)) :
    (n.relocate m :: ns.map (relocate m)).getLast (List.cons_ne_nil _ _)
      = ((n :: ns).getLast (List.cons_ne_nil n ns)).relocate m :=
  List.getLast_map (f := relocate m) (l := n :: ns) (List.cons_ne_nil _ _)

/-- What is in a node is in the node when both have moved. -/
theorem relocate_mem_preorder {n n' : Node κ} (h : n' ∈ n.preorder) :
    n'.relocate m ∈ (n.relocate m).preorder := by
  induction n using Node.induction with
  | h n ih =>
    refine mem_preorder.mpr ((mem_preorder.mp h).imp (congrArg _) ?_)
    rintro ⟨child, hchild, hmem⟩
    exact ⟨child.relocate m, children_relocate ▸ List.mem_map_of_mem hchild, ih child hchild hmem⟩

/-- Leaving all places as they are leaves a node as it is. -/
theorem relocate_id : n.relocate ⟨id, id⟩ = n := by
  induction n using Node.induction with
  | h n ih =>
    obtain ⟨kind, fullStart, start, stop, children⟩ := n
    rw [relocate_mk, List.map_congr_left ih, List.map_id']
    rfl

end Node

namespace Script

variable {m : Relocation} {more lexemes : List Lexeme} {n : Nat} {σ : Symbol} {c c' : Cursor}
  {t : Token} {v : Ast} {vs : List Ast}

/-! ### Tokens and cursors -/

/-- A token at another place. -/
def Lexeme.relocate (m : Relocation) (l : Lexeme) : Lexeme :=
  { l with start := m.start l.start }

/-- Where a token ends goes along with it. -/
def Lexeme.Fits (m : Relocation) (l : Lexeme) : Prop :=
  (l.relocate m).stop = m.edge l.stop

/-- A cursor among tokens at other places, with more tokens to come. -/
def Cursor.relocate (m : Relocation) (more : List Lexeme) (c : Cursor) : Cursor where
  before := m.edge c.before
  rest := c.rest.map (Lexeme.relocate m) ++ more

/-- Nothing that the tokens are read as goes on in the tokens after them. -/
def Seam (lexemes more : List Lexeme) : Prop :=
  more = [] ∨ (∀ l ∈ lexemes.getLast?, l.token = .semicolon)
    ∧ ∀ l ∈ more.head?, l.token ≠ .elseKeyword

/-- What holds at a cursor of the tokens to come, if it is to be relocated. -/
structure Cursor.Movable (m : Relocation) (more : List Lexeme) (c : Cursor) : Prop where
  fits : ∀ l ∈ c.rest, l.Fits m
  seam : Seam c.rest more

/-- What can be moved can be moved further on. -/
theorem Cursor.Movable.of_spans (h : c.Movable m more) (hspans : c.Spans c') :
    c'.Movable m more := by
  obtain ⟨mid, hmid, -⟩ := hspans
  refine ⟨fun l hl => h.fits l (hmid ▸ List.mem_append_right mid hl), ?_⟩
  rcases h.seam with hmore | ⟨hlast, helse⟩
  · exact .inl hmore
  · refine .inr ⟨fun l hl => hlast l ?_, helse⟩
    rw [hmid, List.getLast?_append, Option.mem_def.mp hl]
    rfl

/-- It can be moved behind a token. -/
theorem Cursor.Movable.takes (h : c.Movable m more) (ht : c.Takes t c') : c'.Movable m more := by
  obtain ⟨l, rest, hrest, -, rfl⟩ := ht
  refine ⟨fun l' hl => h.fits l' (hrest ▸ List.mem_cons_of_mem l hl), ?_⟩
  rcases h.seam with hmore | ⟨hlast, helse⟩
  · exact .inl hmore
  · refine .inr ⟨fun l' hl => hlast l' ?_, helse⟩
    rw [hrest, List.getLast?_cons, Option.mem_def.mp hl]
    rfl

/-- A token can be taken where it has moved. -/
theorem Cursor.Takes.relocate (h : c.Takes t c') (hc : c.Movable m more) :
    (c.relocate m more).Takes t (c'.relocate m more) := by
  obtain ⟨l, rest, hrest, rfl, rfl⟩ := h
  have hfits : (l.relocate m).stop = m.edge l.stop := hc.fits l (hrest ▸ List.mem_cons_self)
  refine ⟨l.relocate m, rest.map (Lexeme.relocate m) ++ more, ?_, rfl, ?_⟩
  · rw [Cursor.relocate, hrest]
    rfl
  · rw [Cursor.relocate, hfits]

/-- Where tokens are left, the next one is of the same kind. -/
theorem Cursor.peek?_relocate (h : c.rest ≠ [] ∨ more = []) :
    (c.relocate m more).peek? = c.peek? := by
  rw [Cursor.peek?, Cursor.peek?, Cursor.relocate]
  cases hrest : c.rest with
  | nil =>
    obtain rfl := h.resolve_left (fun hne => hne hrest)
    rfl
  | cons l rest => rfl

/-! ### What ends in a semicolon -/

/-- The last token between two cursors is no `;`. -/
def Cursor.Ends (c c' : Cursor) : Prop :=
  ∃ front l, c.rest = front ++ l :: c'.rest ∧ l.token ≠ .semicolon

/-- A token taken is where something ends, unless it is a semicolon. -/
theorem Cursor.Takes.ends (h : c.Takes t c') (ht : t ≠ .semicolon) : c.Ends c' := by
  obtain ⟨l, rest, hrest, rfl, rfl⟩ := h
  exact ⟨[], l, hrest, ht⟩

/-- What ends later ends for all that begins earlier. -/
theorem Cursor.Spans.ends {m : Cursor} (h : c.Spans m) (h' : m.Ends c') : c.Ends c' := by
  obtain ⟨mid, hmid, -⟩ := h
  obtain ⟨front, l, hrest, hl⟩ := h'
  exact ⟨mid ++ front, l, by rw [hmid, hrest, List.append_assoc], hl⟩

/-- It does so for a token that comes before. -/
theorem Cursor.Takes.ends_then {m : Cursor} (h : c.Takes t m) (h' : m.Ends c') : c.Ends c' := by
  obtain ⟨l, rest, hrest, -, rfl⟩ := h
  obtain ⟨front, l', hrest', hl⟩ := h'
  exact ⟨l :: front, l', by rw [hrest, List.cons_append, ← hrest'], hl⟩

/-- Only statements end in a `;`. -/
theorem ends_of_derives (h : Derives n σ c vs c') (hσ : σ ≠ .statement) : c.Ends c' := by
  -- What is read ends where the last thing that the rule takes or reads does.
  induction h with
  | atom ht hk => exact ht.ends (ne_of_lookup hk rfl)
  | parenthesized hopen he hclose =>
    exact hopen.ends_then ((spans_of_derives he).ends (hclose.ends (by decide)))
  | object hopen _ ih => exact hopen.ends_then (ih nofun)
  | array hopen _ ih => exact hopen.ends_then (ih nofun)
  | newPlain hnew _ _ _ ih => exact hnew.ends_then (ih nofun)
  | newCall hnew hp hparen _ _ ih =>
    exact hnew.ends_then ((spans_of_derives hp).ends (hparen.ends_then (ih nofun)))
  | pathName ht => exact ht.ends (by decide)
  | pathMember hp hdot hname =>
    exact (spans_of_derives hp).ends (hdot.ends_then (hname.ends (by decide)))
  | operand _ ih => exact ih nofun
  | member hb hdot hname =>
    exact (spans_of_derives hb).ends (hdot.ends_then (hname.ends (by decide)))
  | call hb hparen _ _ ih => exact (spans_of_derives hb).ends (hparen.ends_then (ih nofun))
  | sign ht _ _ ih => exact ht.ends_then (ih nofun)
  | unsigned _ _ _ _ ih => exact ih nofun
  | chainStart _ ih => exact ih nofun
  | chainStep hvs ht _ _ _ ih =>
    exact (spans_of_derives hvs).ends (ht.ends_then (ih nofun))
  | binary _ _ _ ih => exact ih nofun
  | assign hvs hassign _ _ ih =>
    exact (spans_of_derives hvs).ends (hassign.ends_then (ih nofun))
  | property hname _ hcolon _ ih => exact hname.ends_then (hcolon.ends_then (ih nofun))
  | parameter ht => exact ht.ends (by decide)
  | listEnd hclose ht => exact ht.ends (ne_of_mem_of_not_mem hclose (by decide))
  | listLast hclose _ hv ht =>
    exact (spans_of_derives hv).ends (ht.ends (ne_of_mem_of_not_mem hclose (by decide)))
  | listMore _ hv hcomma _ _ ih => exact (spans_of_derives hv).ends (hcomma.ends_then (ih nofun))
  | declared ht => exact ht.ends (by decide)
  | initialized hname hassign _ ih => exact hname.ends_then (hassign.ends_then (ih nofun))
  | lastDeclaration _ _ ih => exact ih nofun
  | moreDeclarations hd hcomma _ _ ih =>
    exact (spans_of_derives hd).ends (hcomma.ends_then (ih nofun))
  | noStatement ht => exact ht.ends (by decide)
  | moreStatements _ hs _ _ ih => exact (spans_of_derives hs).ends (ih nofun)
  | _ => exact absurd rfl hσ

/-- Where tokens are left over, or nothing else follows, the next one is of the same kind. -/
theorem Cursor.Movable.peek? (hc : c.Movable m more) (h : c.Ends c') :
    (c'.relocate m more).peek? = c'.peek? := by
  refine peek?_relocate ?_
  rcases hc.seam with hmore | ⟨hlast, -⟩
  · exact .inr hmore
  · refine .inl fun hnil => ?_
    obtain ⟨front, l, hrest, hl⟩ := h
    rw [hnil] at hrest
    exact hl (hlast l (by rw [hrest, List.getLast?_concat]; rfl))

/-! ### Nodes -/

/-- A node made from tokens that have moved is the node, moved. -/
theorem nodeTo_relocate (more : List Lexeme) (h : c.rest ≠ []) {k : Kind} :
    (c.nodeTo c' k vs).relocate m
      = (c.relocate m more).nodeTo (c'.relocate m more) k (vs.map (Node.relocate m)) := by
  obtain ⟨l, rest, hrest⟩ := List.exists_cons_of_ne_nil h
  simp only [Cursor.nodeTo, Node.relocate_mk, Cursor.relocate, hrest]
  rfl

/-- A chain at another place. -/
def Chain.relocate (m : Relocation) : Chain → Chain
  | operand n => operand (n.relocate m)
  | binary l operator precedence r =>
    binary (l.relocate m) (operator.relocate m) precedence (r.relocate m)

/-- A chain moves with what is added to it, -/
theorem Chain.relocate_push (ch : Chain) (operator : Ast) (precedence : Nat) (e : Ast) :
    (ch.push operator precedence e).relocate m
      = (ch.relocate m).push (operator.relocate m) precedence (e.relocate m) := by
  induction ch with
  | operand n => rfl
  | binary l op p r _ ih =>
    rw [push, relocate, push]
    split
    · rw [relocate, ih]
    · rfl

/-- and so does the tree that it is put together to. -/
theorem Chain.relocate_toAst (ch : Chain) : ch.toAst.relocate m = (ch.relocate m).toAst := by
  induction ch with
  | operand n => rfl
  | binary l op p r ihl ihr =>
    rw [relocate, toAst, toAst, Node.relocate_mk, ← ihl, ← ihr]
    simp

/-- The chain of operands and operators moved is the chain, moved. -/
theorem relocate_chainOf (h : Derives n .chain c vs c') :
    (chainOf vs).relocate m = chainOf (vs.map (Node.relocate m)) := by
  generalize hσ : Symbol.chain = σ at h
  induction h with
  | chainStart => rfl
  | @chainStep n c vs c₁ t p c₂ e c' hvs ht hp he ih =>
    have hoperator : precedenceOf ((c₁.nodeTo c₂ (.operator (some t)) []).relocate m)
        = precedenceOf (c₁.nodeTo c₂ (.operator (some t)) []) := by
      rw [precedenceOf, operatorOf, Node.kind_relocate]
      rfl
    rw [chainOf, Chain.relocate_push, ih rfl, List.map_cons, List.map_cons, chainOf, hoperator]
  | _ => cases hσ

/-! ### Derivations -/

/-- What can be moved can be moved behind what is derived. -/
theorem Cursor.Movable.derives (hc : c.Movable m more) (h : Derives n σ c vs c') :
    c'.Movable m more :=
  hc.of_spans (spans_of_derives h)

/-- What may be skipped may be skipped where it has moved, if something ended there. -/
theorem Cursor.Skips.relocate (h : c.Skips t c') {c₀ : Cursor} (hc₀ : c₀.Movable m more)
    (hends : c₀.Ends c) (hc : c.Movable m more) :
    (c.relocate m more).Skips t (c'.relocate m more) := by
  rcases h with h | ⟨hpeek, rfl⟩
  · exact .inl (h.relocate hc)
  · exact .inr ⟨by rwa [hc₀.peek? hends], rfl⟩

/-- Where something is derived, there is a next token. -/
theorem Derives.peek?_relocate (h : Derives n σ c vs c') (m : Relocation) (more : List Lexeme) :
    (c.relocate m more).peek? = c.peek? :=
  Cursor.peek?_relocate (.inl h.rest_ne_nil)

/-- No `else` follows where none did. -/
theorem Cursor.Movable.peek?_ne_else (hc : c.Movable m more)
    (h : c.peek? ≠ some .elseKeyword) : (c.relocate m more).peek? ≠ some .elseKeyword := by
  rw [Cursor.peek?, Cursor.relocate]
  cases hrest : c.rest with
  | nil =>
    intro hpeek
    rcases hc.seam with rfl | ⟨-, helse⟩
    · cases hpeek
    · cases more with
      | nil => cases hpeek
      | cons l more => exact helse l rfl (Option.some.inj hpeek)
  | cons l rest =>
    rw [Cursor.peek?, hrest] at h
    exact h

/-- What is derived is derived anywhere else. -/
theorem Derives.relocate (h : Derives n σ c vs c') (hc : c.Movable m more) :
    Derives n σ (c.relocate m more) (vs.map (Node.relocate m)) (c'.relocate m more) := by
  -- Nothing but a statement ends in a `;`, so that the token after anything else is the same; after
  -- the branch of an `if` it only matters that it is no `else`.
  induction h with
  | atom ht hk =>
    simp only [List.map_cons, List.map_nil, nodeTo_relocate more ht.rest_ne_nil]
    exact .atom (ht.relocate hc) hk
  | parenthesized hopen he hclose ih =>
    have hc₁ := hc.takes hopen
    simp only [List.map_cons, List.map_nil, nodeTo_relocate more hopen.rest_ne_nil]
    exact .parenthesized (hopen.relocate hc) (ih hc₁) (hclose.relocate (hc₁.derives he))
  | object hopen _ ih =>
    simp only [List.map_cons, List.map_nil, nodeTo_relocate more hopen.rest_ne_nil]
    exact .object (hopen.relocate hc) (ih (hc.takes hopen))
  | array hopen _ ih =>
    simp only [List.map_cons, List.map_nil, nodeTo_relocate more hopen.rest_ne_nil]
    exact .array (hopen.relocate hc) (ih (hc.takes hopen))
  | newPlain hnew hp hdot hparen ih =>
    have hc₁ := hc.takes hnew
    have hpeek := hc₁.peek? (ends_of_derives hp nofun)
    simp only [List.map_cons, List.map_nil, nodeTo_relocate more hnew.rest_ne_nil]
    exact .newPlain (hnew.relocate hc) (ih hc₁) (hpeek ▸ hdot) (hpeek ▸ hparen)
  | newCall hnew hp hparen _ ihp ihargs =>
    have hc₁ := hc.takes hnew
    have hc₂ := hc₁.derives hp
    simp only [List.map_cons, List.map_nil, nodeTo_relocate more hnew.rest_ne_nil]
    exact .newCall (hnew.relocate hc) (ihp hc₁) (hparen.relocate hc₂) (ihargs (hc₂.takes hparen))
  | pathName ht =>
    simp only [List.map_cons, List.map_nil, nodeTo_relocate more ht.rest_ne_nil]
    exact .pathName (ht.relocate hc)
  | pathMember hp hdot hname ih =>
    have hc₁ := hc.derives hp
    simp only [List.map_cons, List.map_nil, nodeTo_relocate more hp.rest_ne_nil,
      nodeTo_relocate more hname.rest_ne_nil]
    exact .pathMember (ih hc) (hdot.relocate hc₁) (hname.relocate (hc₁.takes hdot))
  | operand _ ih => exact .operand (ih hc)
  | member hb hdot hname ih =>
    have hc₁ := hc.derives hb
    simp only [List.map_cons, List.map_nil, nodeTo_relocate more hb.rest_ne_nil,
      nodeTo_relocate more hname.rest_ne_nil]
    exact .member (ih hc) (hdot.relocate hc₁) (hname.relocate (hc₁.takes hdot))
  | call hb hparen _ ihb ihargs =>
    have hc₁ := hc.derives hb
    simp only [List.map_cons, List.map_nil, nodeTo_relocate more hb.rest_ne_nil]
    exact .call (ihb hc) (hparen.relocate hc₁) (ihargs (hc₁.takes hparen))
  | sign ht hsign _ ih =>
    simp only [List.map_cons, List.map_nil, nodeTo_relocate more ht.rest_ne_nil]
    exact .sign (ht.relocate hc) hsign (ih (hc.takes ht))
  | unsigned hsign he hdot hparen ih =>
    have hpeek := hc.peek? (ends_of_derives he nofun)
    refine .unsigned ?_ (ih hc) (hpeek ▸ hdot) (hpeek ▸ hparen)
    rwa [he.peek?_relocate m more]
  | chainStart _ ih => exact .chainStart (ih hc)
  | chainStep hvs ht hp _ ihvs ihe =>
    have hc₁ := hc.derives hvs
    simp only [List.map_cons, nodeTo_relocate more ht.rest_ne_nil]
    exact .chainStep (ihvs hc) (ht.relocate hc₁) hp (ihe (hc₁.takes ht))
  | binary hvs hprecedence hassign ih =>
    have hpeek := hc.peek? (ends_of_derives hvs nofun)
    simp only [List.map_cons, List.map_nil, Chain.relocate_toAst, relocate_chainOf hvs]
    exact .binary (ih hc) (hpeek ▸ hprecedence) (hpeek ▸ hassign)
  | assign hvs hassign _ ihvs ihe =>
    have hc₁ := hc.derives hvs
    simp only [List.map_cons, List.map_nil, nodeTo_relocate more hvs.rest_ne_nil,
      nodeTo_relocate more hassign.rest_ne_nil, Chain.relocate_toAst, relocate_chainOf hvs]
    exact .assign (ihvs hc) (hassign.relocate hc₁) (ihe (hc₁.takes hassign))
  | property hname hk hcolon _ ih =>
    have hc₁ := hc.takes hname
    simp only [List.map_cons, List.map_nil, nodeTo_relocate more hname.rest_ne_nil]
    exact .property (hname.relocate hc) hk (hcolon.relocate hc₁) (ih (hc₁.takes hcolon))
  | parameter ht =>
    simp only [List.map_cons, List.map_nil, nodeTo_relocate more ht.rest_ne_nil]
    exact .parameter (ht.relocate hc)
  | listEnd hclose ht => exact .listEnd hclose (ht.relocate hc)
  | listLast hclose hpeek hv ht ih =>
    rw [← hv.peek?_relocate m more] at hpeek
    exact .listLast hclose hpeek (ih hc) (ht.relocate (hc.derives hv))
  | listMore hpeek hv hcomma _ ihv ihvs =>
    have hc₁ := hc.derives hv
    rw [← hv.peek?_relocate m more] at hpeek
    exact .listMore hpeek (ihv hc) (hcomma.relocate hc₁) (ihvs (hc₁.takes hcomma))
  | declared ht hassign =>
    have hpeek := hc.peek? (ht.ends (by decide))
    simp only [List.map_cons, List.map_nil, nodeTo_relocate more ht.rest_ne_nil]
    exact .declared (ht.relocate hc) (hpeek ▸ hassign)
  | initialized hname hassign _ ih =>
    have hc₁ := hc.takes hname
    simp only [List.map_cons, List.map_nil, nodeTo_relocate more hname.rest_ne_nil]
    exact .initialized (hname.relocate hc) (hassign.relocate hc₁) (ih (hc₁.takes hassign))
  | lastDeclaration hd hcomma ih =>
    have hpeek := hc.peek? (ends_of_derives hd nofun)
    exact .lastDeclaration (ih hc) (hpeek ▸ hcomma)
  | moreDeclarations hd hcomma _ ihd ihds =>
    have hc₁ := hc.derives hd
    exact .moreDeclarations (ihd hc) (hcomma.relocate hc₁) (ihds (hc₁.takes hcomma))
  | noStatement ht => exact .noStatement (ht.relocate hc)
  | moreStatements hpeek hs _ ihs ihss =>
    rw [← hs.peek?_relocate m more] at hpeek
    exact .moreStatements hpeek (ihs hc) (ihss (hc.derives hs))
  | empty ht =>
    simp only [List.map_cons, List.map_nil, nodeTo_relocate more ht.rest_ne_nil]
    exact .empty (ht.relocate hc)
  | block hopen _ ih =>
    simp only [List.map_cons, List.map_nil, nodeTo_relocate more hopen.rest_ne_nil]
    exact .block (hopen.relocate hc) (ih (hc.takes hopen))
  | variableStatement hkeyword ht hds hskip ih =>
    have hc₁ := hc.takes ht
    have hends := ends_of_derives hds nofun
    simp only [List.map_cons, List.map_nil, nodeTo_relocate more ht.rest_ne_nil]
    exact .variableStatement hkeyword (ht.relocate hc) (ih hc₁)
      (hskip.relocate hc₁ hends (hc₁.derives hds))
  | ifThen ht hopen he hclose hs helse ihe ihs =>
    have hc₂ := (hc.takes ht).takes hopen
    have hc₃ := hc₂.derives he
    have hc₄ := hc₃.takes hclose
    simp only [List.map_cons, List.map_nil, nodeTo_relocate more ht.rest_ne_nil]
    exact .ifThen (ht.relocate hc) (hopen.relocate (hc.takes ht)) (ihe hc₂) (hclose.relocate hc₃)
      (ihs hc₄) ((hc₄.derives hs).peek?_ne_else helse)
  | ifElse ht hopen he hclose hs helse _ ihe ihs ihs' =>
    have hc₂ := (hc.takes ht).takes hopen
    have hc₃ := hc₂.derives he
    have hc₄ := hc₃.takes hclose
    have hc₅ := hc₄.derives hs
    simp only [List.map_cons, List.map_nil, nodeTo_relocate more ht.rest_ne_nil]
    exact .ifElse (ht.relocate hc) (hopen.relocate (hc.takes ht)) (ihe hc₂) (hclose.relocate hc₃)
      (ihs hc₄) (helse.relocate hc₅) (ihs' (hc₅.takes helse))
  | whileDo ht hopen he hclose _ ihe ihs =>
    have hc₂ := (hc.takes ht).takes hopen
    have hc₃ := hc₂.derives he
    simp only [List.map_cons, List.map_nil, nodeTo_relocate more ht.rest_ne_nil]
    exact .whileDo (ht.relocate hc) (hopen.relocate (hc.takes ht)) (ihe hc₂) (hclose.relocate hc₃)
      (ihs (hc₃.takes hclose))
  | returnNothing ht hreturn hskip =>
    have hc₁ := hc.takes ht
    have hends := ht.ends (by decide)
    have hpeek := hc.peek? hends
    simp only [List.map_cons, List.map_nil, nodeTo_relocate more ht.rest_ne_nil]
    exact .returnNothing (ht.relocate hc) (hpeek ▸ hreturn) (hskip.relocate hc hends hc₁)
  | returnValue ht hreturn he hskip ih =>
    have hc₁ := hc.takes ht
    have hends := ends_of_derives he nofun
    rw [← he.peek?_relocate m more] at hreturn
    simp only [List.map_cons, List.map_nil, nodeTo_relocate more ht.rest_ne_nil]
    exact .returnValue (ht.relocate hc) hreturn (ih hc₁)
      (hskip.relocate hc₁ hends (hc₁.derives he))
  | function ht hname hopen hps hbrace _ ihps ihss =>
    have hc₁ := hc.takes ht
    have hc₂ := hc₁.takes hname
    have hc₃ := hc₂.takes hopen
    have hc₄ := hc₃.derives hps
    simp only [List.map_cons, List.map_nil, List.map_append,
      nodeTo_relocate more ht.rest_ne_nil, nodeTo_relocate more hname.rest_ne_nil,
      nodeTo_relocate more hbrace.rest_ne_nil]
    exact .function (ht.relocate hc) (hname.relocate hc₁) (hopen.relocate hc₂) (ihps hc₃)
      (hbrace.relocate hc₄) (ihss (hc₄.takes hbrace))
  | expressionStatement ht hbegins he hskip ih =>
    have hends := ends_of_derives he nofun
    rw [← he.peek?_relocate m more] at ht
    simp only [List.map_cons, List.map_nil, nodeTo_relocate more he.rest_ne_nil]
    exact .expressionStatement ht hbegins (ih hc) (hskip.relocate hc hends (hc.derives he))

/-- Statements at another place, with more of them after them. -/
theorem DerivesAll.relocate (h : DerivesAll n c vs) (hc : c.Movable m more)
    (hsplits : c.Splits lexemes) {ws : List Ast}
    (hmore : DerivesAll n ⟨m.edge (endOf lexemes), more⟩ ws) :
    DerivesAll n (c.relocate m more) (vs.map (Node.relocate m) ++ ws) := by
  induction h with
  | nil hend =>
    obtain ⟨front, hfront, hbefore⟩ := hsplits
    rw [hend, List.append_nil] at hfront
    subst hfront
    rw [Cursor.relocate, hend, hbefore]
    exact hmore
  | cons hs _ ih =>
    exact .cons (hs.relocate hc) (ih (hc.derives hs) (begins_of_derives hs hsplits).1)

end Script

end Transcode
