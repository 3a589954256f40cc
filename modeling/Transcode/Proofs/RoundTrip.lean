import Transcode.Proofs.Spelling

namespace Transcode.Script

open Text Cursor

/-!
# Canonical text parses to the same tree

What a rule derives is printed so that the same symbol derives it again, with trees of the same
shapes: it *echoes*.  There is one lemma for each rule of the grammar, from the parts of what it
derives to the whole (`echoes_of_derives`).  In most the same rule applies again.  Where it does
not, that is because a semicolon or an empty list of arguments was added, a trailing comma was
left out, or another keyword declares the variables.
-/

variable {source source' : String} {n : Nat} {σ : Symbol} {c c₁ c₂ c₃ c₄ c₅ c' d d' : Cursor}
  {t : Token} {k : Kind} {v v' : Ast} {vs vs' : List Ast}

/-! ### Chains of the same shapes -/

/-- Two chains are built alike from operands and operators of the same shapes. -/
inductive Alike (source source' : String) : Chain → Chain → Prop
  | operand {e e'} : shape source' e' = shape source e →
      Alike source source' (.operand e) (.operand e')
  | binary {l l' op op' p r r'} : Alike source source' l l' →
      shape source' op' = shape source op → Alike source source' r r' →
      Alike source source' (.binary l op p r) (.binary l' op' p r')

/-- Chains that look alike still do with an operator and an operand at their ends. -/
theorem Alike.push {ch ch' : Chain} {op op' e e' : Ast} (h : Alike source source' ch ch')
    (hop : shape source' op' = shape source op) (he : shape source' e' = shape source e) (p : Nat) :
    Alike source source' (ch.push op p e) (ch'.push op' p e') := by
  induction h with
  | operand hfirst => exact .binary (.operand hfirst) hop (.operand he)
  | @binary l l' op₁ op₁' p₁ r r' hl hop₁ hr _ ihr =>
    -- Both chains have the same precedence here, and go the same way.
    rw [Chain.push, Chain.push]
    by_cases hp : p₁ < p
    · rw [if_pos hp, if_pos hp]
      exact .binary hl hop₁ ihr
    · rw [if_neg hp, if_neg hp]
      exact .binary (.binary hl hop₁ hr) hop (.operand he)

/-- Chains that look alike are put together to trees that do. -/
theorem Alike.shape_toAst {ch ch' : Chain} (h : Alike source source' ch ch') :
    shape source' ch'.toAst = shape source ch.toAst := by
  induction h with
  | operand he => exact he
  | binary _ hop _ ihl ihr =>
    rw [shape_eq, shape_eq source]
    simp only [Chain.toAst, Kind.leaf?, List.map_cons, List.map_nil, ihl, hop, ihr]
    rfl

/-- Trees of one shape have one sort. -/
theorem kind_eq_of_shape {v v' : Ast} (h : shape source' v' = shape source v) :
    v'.kind = v.kind := by
  rw [shape_eq, shape_eq source] at h
  injection h

/-- Operands and operators that look alike make chains that do. -/
theorem alike_chainOf (h : vs'.map (shape source') = vs.map (shape source)) :
    Alike source source' (chainOf vs) (chainOf vs') := by
  induction vs using chainOf.induct generalizing vs' with
  | case1 =>
    rw [List.map_nil, List.map_eq_nil_iff] at h
    subst h
    exact .operand rfl
  | case2 e =>
    obtain ⟨e', rfl, he⟩ := List.map_eq_singleton_iff.mp h
    exact .operand he
  | case3 e op vs ih =>
    obtain ⟨e', vs₁, rfl, he, h⟩ := List.map_eq_cons_iff.mp h
    obtain ⟨op', vs', rfl, hop, hvs⟩ := List.map_eq_cons_iff.mp h
    have hprecedence : precedenceOf op' = precedenceOf op := by
      rw [precedenceOf, precedenceOf, operatorOf, operatorOf, kind_eq_of_shape hop]
    rw [chainOf, chainOf, hprecedence]
    exact (ih hvs).push hop he _

/-! ### Derived again -/

/-- The symbol is derived between `d` and `d'`, with trees of the same shapes as `vs`. -/
def Rederives (source source' : String) (n : Nat) (σ : Symbol) (vs : List Ast) (d d' : Cursor) :
    Prop :=
  ∃ vs', Derives n σ d vs' d' ∧ vs'.map (shape source') = vs.map (shape source)

/-- Wherever `vs` is printed, the symbol is derived again, as long as what comes after follows what
    comes at `c'`. -/
def Echoes (source source' : String) (n : Nat) (σ : Symbol) (vs : List Ast) (c' : Cursor) : Prop :=
  ∀ d d', Follows c' d' → d.Prints source' (printed σ (vs.map (shape source))) d' →
    Rederives source source' n σ vs d d'

/-- What is derived again of one tree is one tree. -/
theorem Rederives.single (h : Rederives source source' n σ [v] d d') :
    ∃ v', Derives n σ d [v'] d' ∧ shape source' v' = shape source v := by
  obtain ⟨vs', hvs', hshapes⟩ := h
  obtain ⟨v', rfl, hv'⟩ := List.map_eq_singleton_iff.mp hshapes
  exact ⟨v', hvs', hv'⟩

/-- One tree of the same shape is derived again, -/
theorem rederives_single (hd : Derives n σ d [v'] d') (h : shape source' v' = shape source v) :
    Rederives source source' n σ [v] d d' := by
  refine ⟨[v'], hd, ?_⟩
  rw [List.map_singleton, h, List.map_singleton]

/-- and so are several, the first of which is told apart. -/
theorem rederives_cons (hd : Derives n σ d (v' :: vs') d')
    (h : shape source' v' = shape source v)
    (hvs : vs'.map (shape source') = vs.map (shape source)) :
    Rederives source source' n σ (v :: vs) d d' := by
  refine ⟨v' :: vs', hd, ?_⟩
  rw [List.map_cons, h, hvs, List.map_cons]

/-- Nodes of one sort have one shape if their children do. -/
theorem shape_congr (hk : k.leaf? = none)
    (h : vs'.map (shape source') = vs.map (shape source)) :
    shape source' (d.nodeTo d' k vs') = shape source (c.nodeTo c' k vs) := by
  rw [shape_nodeTo hk, shape_nodeTo hk, h]

/-- A node is derived again with children that look alike. -/
theorem rederives_node (hd : Derives n σ d [d.nodeTo d' k vs'] d') (hk : k.leaf? = none)
    (h : vs'.map (shape source') = vs.map (shape source)) :
    Rederives source source' n σ [c.nodeTo c' k vs] d d' :=
  rederives_single hd (shape_congr hk h)

/-! ### Expressions -/

/-- An expression in parentheses is written in them again. -/
theorem echoes_parenthesized {e : Ast} (hclose : c₂.Takes .rightParen c')
    (he : Echoes source source' n .expression [e] c₂) :
    Echoes source source' n .primary [c.nodeTo c' .parenthesized [e]] c' := by
  intro d d' _ hp
  have hwords : d.Prints source' (mark .leftParen :: [words (shape source e)].flatten
      ++ [mark .rightParen]) d' := hp
  rw [List.flatten_singleton] at hwords
  obtain ⟨d₁, hopen, hwords⟩ := hwords.mark
  obtain ⟨d₂, hprints, hclose'⟩ := hwords.lastMark
  obtain ⟨e', he', heshape⟩ := (he _ _ (follows_of_takes hclose hclose') hprints).single
  refine rederives_node (.parenthesized hopen he' hclose') rfl ?_
  rw [List.map_singleton, heshape, List.map_singleton]

/-- The braces of an object are written around its properties. -/
theorem echoes_object (hps : Echoes source source' n (.list .property .rightBrace) vs c') :
    Echoes source source' n .primary [c.nodeTo c' .objectLiteral vs] c' := by
  intro d d' hf hp
  obtain ⟨d₁, hopen, hprints⟩ := (Prints.node _ (k := .objectLiteral) rfl hp).mark
  obtain ⟨ps', hps', hshapes⟩ := hps _ _ hf hprints
  exact rederives_node (.object hopen hps') rfl hshapes

/-- The brackets of an array are written around its elements. -/
theorem echoes_array (hes : Echoes source source' n (.list .expression .rightBracket) vs c') :
    Echoes source source' n .primary [c.nodeTo c' .arrayLiteral vs] c' := by
  intro d d' hf hp
  obtain ⟨d₁, hopen, hprints⟩ := (Prints.node _ (k := .arrayLiteral) rfl hp).mark
  obtain ⟨es', hes', hshapes⟩ := hes _ _ hf hprints
  exact rederives_node (.array hopen hes') rfl hshapes

/-- A path is read no further than it was printed, whatever comes after. -/
theorem rederives_path (h : Derives n .path c [v] c')
    (hp : d.Prints source' (words (shape source v)) d') :
    Rederives source source' n .path [v] d d' := by
  generalize hσ : Symbol.path = σ, hvs : [v] = vs at h
  -- The induction goes from the first name on, as the path was read.
  induction h generalizing v d d' with
  | pathName _ =>
    cases hvs
    obtain ⟨hname, hshape⟩ := hp.leaf rfl
    exact rederives_single (.pathName hname) hshape
  | @pathMember n c b c₁ c₂ c' _ _ _ ih =>
    cases hvs
    have hwords : d.Prints source' (words (shape source b)
        ++ mark .dot :: words (shape source (c₂.nodeTo c' .identifier []))) d' := hp
    obtain ⟨d₁, hprints, hwords⟩ := prints_append.mp hwords
    obtain ⟨d₂, hdot, hname⟩ := hwords.mark
    obtain ⟨hname, hshape⟩ := hname.leaf rfl
    obtain ⟨b', hb', hbshape⟩ := (ih hprints rfl rfl).single
    refine rederives_node (.pathMember hb' hdot hname) rfl ?_
    rw [List.map_cons, List.map_singleton, hbshape, hshape]
    rfl
  | _ => cases hσ

/-- A `new` without arguments is printed with an empty list of them. -/
theorem echoes_newPlain (hpath : Derives n .path c₁ [v] c') :
    Echoes source source' n .primary [c.nodeTo c' .newExpression [v]] c' := by
  intro d d' _ hp
  have hwords : d.Prints source' (mark .newKeyword :: words (shape source v) ++ mark .leftParen
      :: commaSeparated ((List.map (shape source) []).map words) ++ [mark .rightParen]) d' := hp
  obtain ⟨d₂, d₃, hcallee, hopen, hargs⟩ := prints_arguments hwords
  obtain ⟨d₁, hnew, hcallee⟩ := hcallee.mark
  have hclose := hargs.singleton.takes
  obtain ⟨v', hv', hshape⟩ := (rederives_path hpath hcallee).single
  refine rederives_node (.newCall hnew hv' hopen (.listEnd (by decide) hclose)) rfl ?_
  rw [List.map_singleton, hshape, List.map_singleton]

/-- A construction with arguments is written with its keyword in front. -/
theorem echoes_newCall (hpath : Derives n .path c₁ [v] c₂)
    (hargs : Echoes source source' n (.list .expression .rightParen) vs c') :
    Echoes source source' n .primary [c.nodeTo c' .newExpression (v :: vs)] c' := by
  intro d d' hf hp
  obtain ⟨d₂, d₃, hcallee, hopen, hprints⟩ :=
    prints_arguments (Prints.node (v :: vs) (k := .newExpression) rfl hp)
  obtain ⟨d₁, hnew, hcallee⟩ := hcallee.mark
  obtain ⟨v', hv', hshape⟩ := (rederives_path hpath hcallee).single
  obtain ⟨vs', hvs', hshapes⟩ := hargs _ _ hf hprints
  refine rederives_node (.newCall hnew hv' hopen hvs') rfl ?_
  rw [List.map_cons, hshape, hshapes, List.map_cons]

/-- A member is written behind a point. -/
theorem echoes_member (hdot : c₁.Takes .dot c₂) (hv : Echoes source source' n .operand [v] c₁) :
    Echoes source source' n .operand
      [c.nodeTo c' .propertyAccess [v, c₂.nodeTo c' .identifier []]] c' := by
  intro d d' _ hp
  have hwords : d.Prints source' (words (shape source v)
      ++ mark .dot :: words (shape source (c₂.nodeTo c' .identifier []))) d' := hp
  obtain ⟨d₁, hprints, hwords⟩ := prints_append.mp hwords
  obtain ⟨d₂, hdot', hname⟩ := hwords.mark
  obtain ⟨hname', hnameshape⟩ := hname.leaf rfl
  obtain ⟨v', hv', hshape⟩ := (hv _ _ (follows_of_takes hdot hdot') hprints).single
  refine rederives_node (.member hv' hdot' hname') rfl ?_
  rw [List.map_cons, List.map_singleton, hshape, hnameshape]
  rfl

/-- Arguments are written in parentheses behind what is called. -/
theorem echoes_call (hopen : c₁.Takes .leftParen c₂)
    (hv : Echoes source source' n .operand [v] c₁)
    (hargs : Echoes source source' n (.list .expression .rightParen) vs c') :
    Echoes source source' n .operand [c.nodeTo c' .callExpression (v :: vs)] c' := by
  intro d d' hf hp
  obtain ⟨d₁, d₂, hcallee, hopen', hprints⟩ :=
    prints_arguments (Prints.node (v :: vs) (k := .callExpression) rfl hp)
  obtain ⟨v', hv', hshape⟩ := (hv _ _ (follows_of_takes hopen hopen') hcallee).single
  obtain ⟨vs', hvs', hshapes⟩ := hargs _ _ hf hprints
  refine rederives_node (.call hv' hopen' hvs') rfl ?_
  rw [List.map_cons, hshape, hshapes, List.map_cons]

/-- An operator in front is written before its operand. -/
theorem echoes_sign (hsign : isPrefixOperator t = true)
    (hv : Echoes source source' n .unary [v] c') :
    Echoes source source' (n + 1) .unary
      [c.nodeTo c' .prefixUnary [c.nodeTo c₁ (.operator (some t)) [], v]] c' := by
  intro d d' hf hp
  have hwords : d.Prints source' (words (shape source (c.nodeTo c₁ (.operator (some t)) []))
      ++ (words (shape source v) ++ [])) d' := hp
  rw [List.append_nil] at hwords
  obtain ⟨d₁, hop, hprints⟩ := prints_append.mp hwords
  obtain ⟨ht, hopshape⟩ := Prints.leaf rfl hop
  obtain ⟨v', hv', hshape⟩ := (hv _ _ hf hprints).single
  refine rederives_node (.sign ht hsign hv') rfl ?_
  rw [List.map_cons, List.map_singleton, hopshape, hshape]
  rfl

/-- An operand without operators in front is not mistaken for one with them. -/
theorem echoes_unsigned (hoperand : Derives n .operand c [v] c')
    (hplain : ∀ t, c.peek? = some t → isPrefixOperator t = false)
    (hdot : c'.peek? ≠ some .dot) (hparen : c'.peek? ≠ some .leftParen)
    (hv : Echoes source source' n .operand [v] c') :
    Echoes source source' (n + 1) .unary [v] c' := by
  intro d d' hf hp
  obtain ⟨t, ht, ht'⟩ := (heads_of_derives hoperand).peek? hp
  -- No keyword of variables is a sign, so it makes no difference which one is printed.
  have hplain' : isPrefixOperator t.canonical = false := by
    have h := hplain t ht
    cases t <;> exact h
  obtain ⟨v', hv', hshape⟩ := (hv _ _ hf hp).single
  refine rederives_single (.unsigned ?_ hv' (hf.ne rfl hdot) (hf.ne rfl hparen)) hshape
  intro u hu
  rw [ht'] at hu
  cases hu
  exact hplain'

/-- A chain of one operand is written as the operand. -/
theorem echoes_chainStart (hv : Echoes source source' n .unary [v] c') :
    Echoes source source' n .chain [v] c' := by
  intro d d' hf hp
  have hwords : d.Prints source' (words (shape source v) ++ []) d' := hp
  rw [List.append_nil] at hwords
  obtain ⟨v', hv', hshape⟩ := (hv _ _ hf hwords).single
  exact rederives_single (.chainStart hv') hshape

/-- An operator and an operand are written behind the chain before them. -/
theorem echoes_chainStep {p : Nat} (ht : c₁.Takes t c₂) (hprecedence : t.precedence? = some p)
    (hvs : Echoes source source' n .chain vs c₁) (hv : Echoes source source' n .unary [v] c') :
    Echoes source source' n .chain (v :: c₁.nodeTo c₂ (.operator (some t)) [] :: vs) c' := by
  intro d d' hf hp
  obtain ⟨d₁, d₂, hprints, hop, hlast⟩ := prints_chain hp
  obtain ⟨ht', hopshape⟩ := Prints.leaf rfl hop
  obtain ⟨vs', hvs', hshapes⟩ := hvs _ _ (follows_of_takes ht ht') hprints
  obtain ⟨v', hv', hshape⟩ := (hv _ _ hf hlast).single
  refine rederives_cons (.chainStep hvs' ht' hprecedence hv') hshape ?_
  rw [List.map_cons, hopshape, hshapes, List.map_cons]

/-- A chain ends where no operator follows. -/
theorem echoes_binary (hvs : Derives n .chain c vs c')
    (hprecedence : ∀ t, c'.peek? = some t → t.precedence? = none)
    (hassign : c'.peek? ≠ some .assign) (h : Echoes source source' n .chain vs c') :
    Echoes source source' (n + 1) .expression [(chainOf vs).toAst] c' := by
  intro d d' hf hp
  have hwords : d.Prints source' (words (shape source (chainOf vs).toAst)) d' := hp
  rw [← printed_chain hvs] at hwords
  obtain ⟨vs', hvs', hshapes⟩ := h _ _ hf hwords
  have hprecedence' : ∀ t, d'.peek? = some t → t.precedence? = none := by
    intro t ht
    by_contra hsome
    -- An operator would go on with the chain, so it would have followed in the source.
    have hgoesOn : goesOn t = true := by simp [goesOn, Option.isSome_iff_ne_none, hsome]
    exact hsome (hprecedence t (hf t hgoesOn ht))
  exact rederives_single (.binary hvs' hprecedence' (hf.ne rfl hassign))
    (alike_chainOf hshapes).shape_toAst

/-- An assignment is written with what it assigns on the right. -/
theorem echoes_assign (hvs : Derives n .chain c vs c₁) (hassign : c₁.Takes .assign c₂)
    (h : Echoes source source' n .chain vs c₁)
    (hv : Echoes source source' n .expression [v] c') :
    Echoes source source' (n + 1) .expression [c.nodeTo c' .binaryExpression
      [(chainOf vs).toAst, c₁.nodeTo c₂ (.operator (some .assign)) [], v]] c' := by
  intro d d' hf hp
  have hwords : d.Prints source' (words (shape source (chainOf vs).toAst)
      ++ (words (shape source (c₁.nodeTo c₂ (.operator (some .assign)) []))
        ++ (words (shape source v) ++ []))) d' := hp
  rw [← printed_chain hvs, List.append_nil] at hwords
  obtain ⟨d₁, htarget, hwords⟩ := prints_append.mp hwords
  obtain ⟨d₂, hop, hprints⟩ := prints_append.mp hwords
  obtain ⟨hassign', hopshape⟩ := Prints.leaf rfl hop
  obtain ⟨vs', hvs', hshapes⟩ := h _ _ (follows_of_takes hassign hassign') htarget
  obtain ⟨v', hv', hshape⟩ := (hv _ _ hf hprints).single
  refine rederives_node (.assign hvs' hassign' hv') rfl ?_
  rw [List.map_cons, List.map_cons, List.map_singleton, (alike_chainOf hshapes).shape_toAst,
    hopshape, hshape]
  rfl

/-! ### Lists -/

/-- A property is written with a colon between its name and its value. -/
theorem echoes_property (hk : propertyNames.lookup t = some k)
    (hv : Echoes source source' n .expression [v] c') :
    Echoes source source' n .property
      [c.nodeTo c' .propertyAssignment [c.nodeTo c₁ k [], v]] c' := by
  intro d d' hf hp
  have hwords : d.Prints source' (words (shape source (c.nodeTo c₁ k []))
      ++ mark .colon :: words (shape source v)) d' := hp
  obtain ⟨d₁, hname, hwords⟩ := prints_append.mp hwords
  obtain ⟨d₂, hcolon, hprints⟩ := hwords.mark
  obtain ⟨hname', hnameshape⟩ := hname.leaf (leaf?_of_propertyName hk)
  obtain ⟨v', hv', hshape⟩ := (hv _ _ hf hprints).single
  refine rederives_node (.property hname' hk hcolon hv') rfl ?_
  rw [List.map_cons, List.map_singleton, hnameshape, hshape]
  rfl

/-- A parameter is written as its name. -/
theorem echoes_parameter :
    Echoes source source' n .parameter
      [c.nodeTo c' .parameter [c.nodeTo c' .identifier []]] c' := by
  intro d d' _ hp
  have hwords : d.Prints source' (words (shape source (c.nodeTo c' .identifier [])) ++ []) d' := hp
  rw [List.append_nil] at hwords
  obtain ⟨hname, hshape⟩ := hwords.leaf rfl
  refine rederives_node (.parameter hname) rfl ?_
  rw [List.map_singleton, hshape, List.map_singleton]

/-- The last item of a list is printed without a comma after it, and what closes the list does not
    go on with the item. -/
theorem echoes_listLast {item : Item} {close : Token} (hclose : close ∈ closers)
    (hpeek : c.peek? ≠ some close) (hitem : Derives n item.symbol c [v] c₁)
    (hv : Echoes source source' n item.symbol [v] c₁) :
    Echoes source source' n (.list item close) [v] c' := by
  intro d d' _ hp
  obtain ⟨d₁, hprints, ht⟩ := prints_item hp
  have hlet : close ≠ .letKeyword := ne_of_mem_of_not_mem hclose (by decide)
  have hpeek' := (heads_of_derives hitem).ne hprints hlet hpeek
  have hstop : ∀ t ∈ closers, goesOn t = false := by decide
  obtain ⟨v', hv', hshape⟩ := (hv _ _ (follows_of_stop (hstop close hclose) ht) hprints).single
  exact rederives_single (.listLast hclose hpeek' hv' ht) hshape

/-- What closes a list that is derived can close one. -/
theorem Derives.mem_closers {item : Item} {close : Token}
    (h : Derives n (.list item close) c vs c') : close ∈ closers := by
  generalize hσ : Symbol.list item close = σ at h
  induction h with
  | listEnd hclose _ | listLast hclose _ _ _ =>
    cases hσ
    exact hclose
  | listMore _ _ _ _ _ ih => exact ih hσ
  | _ => cases hσ

/-- An item is written with a comma before the rest of its list. -/
theorem echoes_listMore {item : Item} {close : Token} (hpeek : c.peek? ≠ some close)
    (hitem : Derives n item.symbol c [v] c₁) (hcomma : c₁.Takes .comma c₂)
    (hrest : Derives n (.list item close) c₂ vs c')
    (hv : Echoes source source' n item.symbol [v] c₁)
    (hvs : Echoes source source' n (.list item close) vs c') :
    Echoes source source' n (.list item close) (v :: vs) c' := by
  have hclose := hrest.mem_closers
  cases vs with
  | nil =>
    -- The comma was a trailing one.
    exact echoes_listLast hclose hpeek hitem hv
  | cons v₁ vs =>
    intro d d' hf hp
    obtain ⟨d₁, d₂, hprints, hcomma', hmore⟩ := prints_items hp
    have hlet : close ≠ .letKeyword := ne_of_mem_of_not_mem hclose (by decide)
    have hpeek' := (heads_of_derives hitem).ne hprints hlet hpeek
    obtain ⟨v', hv', hshape⟩ := (hv _ _ (follows_of_takes hcomma hcomma') hprints).single
    obtain ⟨vs', hvs', hshapes⟩ := hvs _ _ hf hmore
    exact rederives_cons (.listMore hpeek' hv' hcomma' hvs') hshape hshapes

/-! ### Declarations -/

/-- A variable without a value is written as its name. -/
theorem echoes_declared (hassign : c'.peek? ≠ some .assign) :
    Echoes source source' n .declaration
      [c.nodeTo c' .variableDeclaration [c.nodeTo c' .identifier []]] c' := by
  intro d d' hf hp
  have hwords : d.Prints source' (words (shape source (c.nodeTo c' .identifier [])) ++ []) d' := hp
  rw [List.append_nil] at hwords
  obtain ⟨hname, hshape⟩ := hwords.leaf rfl
  refine rederives_node (.declared hname (hf.ne rfl hassign)) rfl ?_
  rw [List.map_singleton, hshape, List.map_singleton]

/-- A variable with a value is written with `=` in between. -/
theorem echoes_initialized (hv : Echoes source source' n .expression [v] c') :
    Echoes source source' n .declaration
      [c.nodeTo c' .variableDeclaration [c.nodeTo c₁ .identifier [], v]] c' := by
  intro d d' hf hp
  have hwords : d.Prints source' (words (shape source (c.nodeTo c₁ .identifier []))
      ++ mark .assign :: words (shape source v)) d' := hp
  obtain ⟨d₁, hname, hwords⟩ := prints_append.mp hwords
  obtain ⟨d₂, hassign, hprints⟩ := hwords.mark
  obtain ⟨hname', hnameshape⟩ := hname.leaf rfl
  obtain ⟨v', hv', hshape⟩ := (hv _ _ hf hprints).single
  refine rederives_node (.initialized hname' hassign hv') rfl ?_
  rw [List.map_cons, List.map_singleton, hnameshape, hshape]
  rfl

/-- The last declaration is written without a comma. -/
theorem echoes_lastDeclaration (hcomma : c'.peek? ≠ some .comma)
    (hv : Echoes source source' n .declaration [v] c') :
    Echoes source source' n .declarations [v] c' := by
  intro d d' hf hp
  have hwords : d.Prints source' (commaSeparated [words (shape source v)]) d' := hp
  rw [commaSeparated_singleton] at hwords
  obtain ⟨v', hv', hshape⟩ := (hv _ _ hf hwords).single
  exact rederives_single (.lastDeclaration hv' (hf.ne rfl hcomma)) hshape

/-- Any other declaration is written with one. -/
theorem echoes_moreDeclarations (hcomma : c₁.Takes .comma c₂)
    (hrest : Derives n .declarations c₂ vs c')
    (hv : Echoes source source' n .declaration [v] c₁)
    (hvs : Echoes source source' n .declarations vs c') :
    Echoes source source' n .declarations (v :: vs) c' := by
  -- Unlike in a list, a comma has a declaration after it.
  have hne : vs ≠ [] := by
    cases hrest with
    | _ => exact List.cons_ne_nil _ _
  obtain ⟨v₁, vs, rfl⟩ := List.exists_cons_of_ne_nil hne
  intro d d' hf hp
  obtain ⟨d₁, d₂, hprints, hcomma', hmore⟩ := prints_comma hp
  obtain ⟨v', hv', hshape⟩ := (hv _ _ (follows_of_takes hcomma hcomma') hprints).single
  obtain ⟨vs', hvs', hshapes⟩ := hvs _ _ hf hmore
  exact rederives_cons (.moreDeclarations hv' hcomma' hvs') hshape hshapes

/-! ### Statements -/

/-- After a statement comes what the next one is printed to begin with, or a closing brace.  Neither
    is an `else` that was not there before. -/
theorem echoes_moreStatements (hpeek : c.peek? ≠ some .rightBrace)
    (hs : Derives n .statement c [v] c₁) (hss : Derives n .statements c₁ vs c')
    (hv : Echoes source source' n .statement [v] c₁)
    (hvs : Echoes source source' n .statements vs c') :
    Echoes source source' n .statements (v :: vs) c' := by
  intro d d' hf hp
  obtain ⟨d₁, hprints, hrest⟩ := prints_statements hp
  have hpeek' := (heads_of_derives hs).ne hprints (by decide) hpeek
  have hfollows := (heads_of_derives hss).follows hrest
  obtain ⟨v', hv', hshape⟩ := (hv _ _ hfollows hprints).single
  obtain ⟨vs', hvs', hshapes⟩ := hvs _ _ hf hrest
  exact rederives_cons (.moreStatements hpeek' hv' hvs') hshape hshapes

/-- The braces of a block are written around its statements. -/
theorem echoes_block (hvs : Echoes source source' n .statements vs c') :
    Echoes source source' (n + 1) .statement [c.nodeTo c' .block vs] c' := by
  intro d d' hf hp
  obtain ⟨d₁, hopen, hprints⟩ := (Prints.node _ (k := .block) rfl hp).mark
  obtain ⟨vs', hvs', hshapes⟩ := hvs _ _ hf hprints
  exact rederives_node (.block hopen hvs') rfl hshapes

/-- Whatever the keyword was, it is printed as `let`, and there is a semicolon. -/
theorem echoes_variableStatement (hvs : Echoes source source' n .declarations vs c₂) :
    Echoes source source' (n + 1) .statement [c.nodeTo c' .variableStatement vs] c' := by
  intro d d' _ hp
  obtain ⟨d₁, hlet, hwords⟩ := (Prints.node _ (k := .variableStatement) rfl hp).mark
  obtain ⟨d₂, hprints, hsemicolon⟩ := hwords.lastMark
  obtain ⟨vs', hvs', hshapes⟩ := hvs _ _ (follows_of_stop rfl hsemicolon) hprints
  have hstatement := Derives.variableStatement (by decide) hlet hvs' (.inl hsemicolon)
  exact rederives_node hstatement rfl hshapes

section

variable {e s s' : Ast}

/-- A choice without `else` is written so that none is read after it. -/
theorem echoes_ifThen (hclose : c₃.Takes .rightParen c₄) (helse : c'.peek? ≠ some .elseKeyword)
    (he : Echoes source source' n .expression [e] c₃)
    (hs : Echoes source source' n .statement [s] c') :
    Echoes source source' (n + 1) .statement [c.nodeTo c' .ifStatement [e, s]] c' := by
  intro d d' hf hp
  obtain ⟨d₁, d₂, d₃, d₄, hif, hopen, hcond, hclose', hbody⟩ := prints_conditional hp
  obtain ⟨e₁, he₁, heshape⟩ := (he _ _ (follows_of_takes hclose hclose') hcond).single
  obtain ⟨s₁, hs₁, hsshape⟩ := (hs _ _ hf hbody).single
  refine rederives_node (.ifThen hif hopen he₁ hclose' hs₁ (hf.ne rfl helse)) rfl ?_
  rw [List.map_cons, List.map_singleton, heshape, hsshape]
  rfl

/-- The `else` belongs to the same `if` again: the statement before it was followed by it in the
    source as well, and did not take it there. -/
theorem echoes_ifElse (hclose : c₃.Takes .rightParen c₄) (helse : c₅.Takes .elseKeyword c₁)
    (he : Echoes source source' n .expression [e] c₃)
    (hs : Echoes source source' n .statement [s] c₅)
    (hs' : Echoes source source' n .statement [s'] c') :
    Echoes source source' (n + 1) .statement [c.nodeTo c' .ifStatement [e, s, s']] c' := by
  intro d d' hf hp
  have hwords : d.Prints source' (mark .ifKeyword :: mark .leftParen :: words (shape source e)
      ++ mark .rightParen :: words (shape source s)
      ++ mark .elseKeyword :: words (shape source s')) d' := hp
  obtain ⟨d₅, hthen, hwords⟩ := prints_append.mp hwords
  obtain ⟨d₆, helse', hother⟩ := hwords.mark
  obtain ⟨d₁, d₂, d₃, d₄, hif, hopen, hcond, hclose', hbody⟩ := prints_conditional hthen
  obtain ⟨e₁, he₁, heshape⟩ := (he _ _ (follows_of_takes hclose hclose') hcond).single
  obtain ⟨s₁, hs₁, hsshape⟩ := (hs _ _ (follows_of_takes helse helse') hbody).single
  obtain ⟨s₁', hs₁', hsshape'⟩ := (hs' _ _ hf hother).single
  refine rederives_node (.ifElse hif hopen he₁ hclose' hs₁ helse' hs₁') rfl ?_
  rw [List.map_cons, List.map_cons, List.map_singleton, heshape, hsshape, hsshape']
  rfl

/-- A loop is written with its condition in parentheses. -/
theorem echoes_whileDo (hclose : c₃.Takes .rightParen c₄)
    (he : Echoes source source' n .expression [e] c₃)
    (hs : Echoes source source' n .statement [s] c') :
    Echoes source source' (n + 1) .statement [c.nodeTo c' .whileStatement [e, s]] c' := by
  intro d d' hf hp
  obtain ⟨d₁, d₂, d₃, d₄, hwhile, hopen, hcond, hclose', hbody⟩ := prints_conditional hp
  obtain ⟨e₁, he₁, heshape⟩ := (he _ _ (follows_of_takes hclose hclose') hcond).single
  obtain ⟨s₁, hs₁, hsshape⟩ := (hs _ _ hf hbody).single
  refine rederives_node (.whileDo hwhile hopen he₁ hclose' hs₁) rfl ?_
  rw [List.map_cons, List.map_singleton, heshape, hsshape]
  rfl

end

/-- A return without a result is written with a semicolon. -/
theorem echoes_returnNothing :
    Echoes source source' (n + 1) .statement [c.nodeTo c' .returnStatement []] c' := by
  intro d d' _ hp
  have hwords : d.Prints source' (mark .returnKeyword :: [mark .semicolon]) d' := hp
  obtain ⟨d₁, hreturn, hwords⟩ := hwords.mark
  have hsemicolon := hwords.singleton.takes
  have hends : endsReturn d₁.peek? := .inr (.inl hsemicolon.peek?)
  exact rederives_node (.returnNothing hreturn hends (.inl hsemicolon)) rfl rfl

/-- A result is written where the statement cannot end before it. -/
theorem echoes_returnValue (hends : ¬ endsReturn c₁.peek?)
    (hvalue : Derives n .expression c₁ [v] c₂) (hv : Echoes source source' n .expression [v] c₂) :
    Echoes source source' (n + 1) .statement [c.nodeTo c' .returnStatement [v]] c' := by
  intro d d' _ hp
  have hwords : d.Prints source' (mark .returnKeyword :: [words (shape source v)].flatten
      ++ [mark .semicolon]) d' := hp
  rw [List.flatten_singleton] at hwords
  obtain ⟨d₁, hreturn, hwords⟩ := hwords.mark
  obtain ⟨d₂, hprints, hsemicolon⟩ := hwords.lastMark
  obtain ⟨v', hv', hshape⟩ := (hv _ _ (follows_of_stop rfl hsemicolon) hprints).single
  -- The value begins with the same token, which ends no `return`.
  have hends' : ¬ endsReturn d₁.peek? := by
    rintro (hend | hend | hend)
    · obtain ⟨t, -, ht⟩ := (heads_of_derives hvalue).peek? hprints
      rw [ht] at hend
      cases hend
    · have hne : c₁.peek? ≠ some .semicolon := fun h => hends (.inr (.inl h))
      exact (heads_of_derives hvalue).ne hprints (by decide) hne hend
    · have hne : c₁.peek? ≠ some .rightBrace := fun h => hends (.inr (.inr h))
      exact (heads_of_derives hvalue).ne hprints (by decide) hne hend
  refine rederives_node (.returnValue hreturn hends' hv' (.inl hsemicolon)) rfl ?_
  rw [List.map_singleton, hshape, List.map_singleton]

/-- A function is written with its name, its parameters and its block. -/
theorem echoes_function (hbrace : c₄.Takes .leftBrace c₅)
    (hvs : Echoes source source' n (.list .parameter .rightParen) vs c₄)
    (hvs' : Echoes source source' n .statements vs' c') :
    Echoes source source' (n + 1) .statement [c.nodeTo c' .functionDeclaration
      (c₁.nodeTo c₂ .identifier [] :: vs ++ [c₄.nodeTo c' .block vs'])] c' := by
  intro d d' hf hp
  obtain ⟨d₁, d₂, d₃, d₄, hfunction, hname, hopen, hparameters, hbody⟩ := prints_function
    (Prints.node (c₁.nodeTo c₂ .identifier [] :: vs ++ [c₄.nodeTo c' .block vs'])
      (k := .functionDeclaration) rfl hp)
  obtain ⟨hname', hnameshape⟩ := hname.leaf rfl
  obtain ⟨d₅, hbrace', hstatements⟩ := (Prints.node _ (k := .block) rfl hbody).mark
  obtain ⟨ps, hps, hshapes⟩ := hvs _ _ (follows_of_takes hbrace hbrace') hparameters
  obtain ⟨ss, hss, hshapes'⟩ := hvs' _ _ hf hstatements
  have hblock : shape source' (d₄.nodeTo d' .block ss) = shape source (c₄.nodeTo c' .block vs') :=
    shape_congr rfl hshapes'
  refine rederives_node (.function hfunction hname' hopen hps hbrace' hss) rfl ?_
  rw [List.map_append, List.map_cons, hnameshape, hshapes, List.map_singleton, hblock,
    List.map_append, List.map_cons, List.map_singleton]

/-- An expression that was no other statement is none when it is printed. -/
theorem echoes_expressionStatement (ht : c.peek? = some t) (hbegins : beginsStatement t = false)
    (hvalue : Derives n .expression c [v] c₁) (hv : Echoes source source' n .expression [v] c₁) :
    Echoes source source' (n + 1) .statement [c.nodeTo c' .expressionStatement [v]] c' := by
  intro d d' _ hp
  have hwords : d.Prints source' ([words (shape source v)].flatten ++ [mark .semicolon]) d' := hp
  rw [List.flatten_singleton] at hwords
  obtain ⟨d₁, hprints, hsemicolon⟩ := hwords.lastMark
  obtain ⟨v', hv', hshape⟩ := (hv _ _ (follows_of_stop rfl hsemicolon) hprints).single
  obtain ⟨u, hu, hu'⟩ := (heads_of_derives hvalue).peek? hprints
  have hbegins' : beginsStatement u.canonical = false := by
    rw [ht] at hu
    cases hu
    cases t <;> exact hbegins
  refine rederives_node (.expressionStatement hu' hbegins' hv' (.inl hsemicolon)) rfl ?_
  rw [List.map_singleton, hshape, List.map_singleton]

/-! ### Sources -/

/-- **What is derived echoes.** -/
theorem echoes_of_derives (h : Derives n σ c vs c') : Echoes source source' n σ vs c' := by
  -- The derivation is the one of `source`; each case reads its own marks off the printed words and
  -- hands the rest to the hypotheses for its parts.
  induction h with
  | atom _ hk =>
    intro d d' _ hp
    obtain ⟨ht, hshape⟩ := Prints.leaf (leaf?_of_atom hk) hp
    exact rederives_single (.atom ht hk) hshape
  | parenthesized _ _ hclose he => exact echoes_parenthesized hclose he
  | object _ _ hps => exact echoes_object hps
  | array _ _ hes => exact echoes_array hes
  | newPlain _ hpath _ _ _ => exact echoes_newPlain hpath
  | newCall _ hpath _ _ _ hargs => exact echoes_newCall hpath hargs
  | pathName hname => exact fun d d' _ hp => rederives_path (.pathName hname) hp
  | pathMember hb hdot hname _ =>
    exact fun d d' _ hp => rederives_path (.pathMember hb hdot hname) hp
  | operand _ he =>
    intro d d' hf hp
    obtain ⟨e', he', hshape⟩ := (he d d' hf hp).single
    exact rederives_single (.operand he') hshape
  | member _ hdot _ he => exact echoes_member hdot he
  | call _ hopen _ he hargs => exact echoes_call hopen he hargs
  | sign _ hsign _ he => exact echoes_sign hsign he
  | unsigned hplain hoperand hdot hparen he =>
    exact echoes_unsigned hoperand hplain hdot hparen he
  | chainStart _ he => exact echoes_chainStart he
  | chainStep _ ht hprecedence _ hvs he => exact echoes_chainStep ht hprecedence hvs he
  | binary hchain hprecedence hassign hvs => exact echoes_binary hchain hprecedence hassign hvs
  | assign hchain hassign _ hvs he => exact echoes_assign hchain hassign hvs he
  | property _ hk _ _ he => exact echoes_property hk he
  | parameter _ => exact echoes_parameter
  | listEnd hclose _ => exact fun d d' _ hp => ⟨[], .listEnd hclose hp.singleton.takes, rfl⟩
  | listLast hclose hpeek hitem _ hv => exact echoes_listLast hclose hpeek hitem hv
  | listMore hpeek hitem hcomma hrest hv hvs =>
    exact echoes_listMore hpeek hitem hcomma hrest hv hvs
  | declared _ hassign => exact echoes_declared hassign
  | initialized _ _ _ he => exact echoes_initialized he
  | lastDeclaration _ hcomma hv => exact echoes_lastDeclaration hcomma hv
  | moreDeclarations _ hcomma hrest hv hvs => exact echoes_moreDeclarations hcomma hrest hv hvs
  | noStatement _ => exact fun d d' _ hp => ⟨[], .noStatement hp.singleton.takes, rfl⟩
  | moreStatements hpeek hs hss hv hvs => exact echoes_moreStatements hpeek hs hss hv hvs
  | empty _ =>
    intro d d' _ hp
    obtain ⟨ht, hshape⟩ := Prints.leaf (k := .emptyStatement) rfl hp
    exact rederives_single (.empty ht) hshape
  | block _ _ hss => exact echoes_block hss
  | variableStatement _ _ _ _ hds => exact echoes_variableStatement hds
  | ifThen _ _ _ hclose _ helse he hs => exact echoes_ifThen hclose helse he hs
  | ifElse _ _ _ hclose _ helse _ he hs hs' => exact echoes_ifElse hclose helse he hs hs'
  | whileDo _ _ _ hclose _ he hs => exact echoes_whileDo hclose he hs
  | returnNothing _ _ _ => exact echoes_returnNothing
  | returnValue _ hends hvalue _ he => exact echoes_returnValue hends hvalue he
  | function _ _ _ _ hbrace _ hps hss => exact echoes_function hbrace hps hss
  | expressionStatement ht hbegins hvalue _ he =>
    exact echoes_expressionStatement ht hbegins hvalue he

/-- The statements of a source are read back from what is printed of them. -/
theorem rederivesAll (h : DerivesAll n c vs)
    (hp : d.Prints source' ((vs.map (shape source)).flatMap words) d') (hend : d'.rest = []) :
    ∃ vs', DerivesAll n d vs' ∧ vs'.map (shape source') = vs.map (shape source) := by
  induction h generalizing d with
  | nil _ =>
    cases hp
    exact ⟨[], .nil hend, rfl⟩
  | @cons c v c₁ vs hv hvs ih =>
    rw [List.map_cons, List.flatMap_cons] at hp
    obtain ⟨m, hprints, hrest⟩ := prints_append.mp hp
    have hf : Follows c₁ m := by
      cases hvs with
      | nil _ =>
        -- Nothing comes after the last statement.
        cases hrest
        intro t _ hpeek
        rw [Cursor.peek?, hend] at hpeek
        cases hpeek
      | cons hv' _ => exact (heads_of_derives hv').append.follows hrest
    obtain ⟨v', hv', hshape⟩ := (echoes_of_derives hv _ _ hf hprints).single
    obtain ⟨vs', hvs', hshapes⟩ := ih hrest
    refine ⟨v' :: vs', .cons hv' hvs', ?_⟩
    rw [List.map_cons, hshape, hshapes, List.map_cons]

/-- The shape of a whole source has no text of its own. -/
theorem shape_rootOf (size : Nat) (lexemes : List Lexeme) :
    shape source (rootOf size lexemes vs) = .node .sourceFile "" (vs.map (shape source)) :=
  shape_eq _ _

/-- **Canonical text parses to the same tree.** If a source parses, so does the canonical text of
    its tree, and up to offsets the two trees are the same. -/
theorem parse_canonicalText {root : Ast} (h : parse source = .ok root) :
    ∃ root', parse (canonicalText (shape source root)) = .ok root'
      ∧ shape (canonicalText (shape source root)) root' = shape source root := by
  obtain ⟨ls, hlex, hslices, hwords⟩ := lex_canonicalText (readable_of_parse h)
  obtain ⟨lexemes, ss, -, hss, rfl⟩ := parse_eq_ok.mp h
  have hroot : words (shape source (rootOf source.utf8ByteSize lexemes ss))
      = (ss.map (shape source)).flatMap words := by
    rw [shape_rootOf, words_of_branch rfl]
    rfl
  obtain ⟨d', hprints, hend⟩ := prints_of_lexemes (b := 0) hslices
  rw [hwords, hroot] at hprints
  obtain ⟨ss', hss', hshapes⟩ := rederivesAll hss hprints hend
  refine ⟨_, parse_eq_ok.mpr ⟨ls, ss', hlex, hss', rfl⟩, ?_⟩
  rw [shape_rootOf, hshapes, shape_rootOf]

/-- An `else` after two `if`s, a `new` without arguments and a trailing comma. -/
theorem parse_canonicalText_else :
    ∃ root root', parse "if (p) if (q) new a.b\nelse f([1,])" = .ok root
      ∧ parse "if ( p ) if ( q ) new a . b ( ) ; else f ( [ 1 ] ) ;" = .ok root'
      ∧ shape "if ( p ) if ( q ) new a . b ( ) ; else f ( [ 1 ] ) ;" root'
        = shape "if (p) if (q) new a.b\nelse f([1,])" root := by
  have hparse : (parse "if (p) if (q) new a.b\nelse f([1,])").map
      (fun root => canonicalText (shape "if (p) if (q) new a.b\nelse f([1,])" root))
        = .ok "if ( p ) if ( q ) new a . b ( ) ; else f ( [ 1 ] ) ;" := by
    decide +kernel
  cases hroot : parse "if (p) if (q) new a.b\nelse f([1,])" with
  | error e =>
    rw [hroot] at hparse
    cases hparse
  | ok root =>
    rw [hroot] at hparse
    have htext : canonicalText (shape "if (p) if (q) new a.b\nelse f([1,])" root)
        = "if ( p ) if ( q ) new a . b ( ) ; else f ( [ 1 ] ) ;" := Except.ok.inj hparse
    obtain ⟨root', hroot', hshape⟩ := parse_canonicalText hroot
    rw [htext] at hroot' hshape
    exact ⟨root, root', rfl, hroot', hshape⟩

end Transcode.Script
