import Transcode.Proofs.Boundaries

namespace Transcode.Script

/-!
# The forms of nodes

Which children a node has depends on its kind.  `Form` lists the possibilities, and all nodes of
a source that parses have one of them (`wellFormed_of_parse`).  Handlers match on these forms; what
they do with any other list of children never matters.
-/

/-! ### Shapes -/

/-- Whether nodes of a kind stand on their own.  An operator is a piece of the expression around
    it, and the file is around all else. -/
def Kind.isWhole : Kind → Bool
  | .sourceFile | .operator _ => false
  | _ => true

/-- What stands by itself in a source is not the source. -/
theorem Kind.ne_sourceFile {k : Kind} (h : k.isWhole = true) : k ≠ .sourceFile := by
  rintro rfl
  cases h

/-- All nodes stand on their own. -/
def Whole (ns : List Ast) : Prop :=
  ∀ n ∈ ns, n.kind.isWhole = true

/-- The node is an operator with its token. -/
structure IsOperator (n : Ast) : Prop where
  token : ∃ t, n.kind = .operator (some t)
  children : n.children = []

/-- The children that a node of a kind can have. -/
inductive Form : Kind → List Ast → Prop
  | leaf {k t} : k.leaf? = some t → Form k []
  | sourceFile {ns} : Whole ns → Form .sourceFile ns
  | block {ns} : Whole ns → Form .block ns
  | array {ns} : Whole ns → Form .arrayLiteral ns
  | object {ns} : (∀ n ∈ ns, n.kind = .propertyAssignment) → Form .objectLiteral ns
  | variableStatement {ns} : ns ≠ [] → Whole ns → Form .variableStatement ns
  | expressionStatement {e} : Whole [e] → Form .expressionStatement [e]
  | parenthesized {e} : Whole [e] → Form .parenthesized [e]
  | parameter {name} : Whole [name] → Form .parameter [name]
  | declared {name} : Whole [name] → Form .variableDeclaration [name]
  | initialized {name e} : Whole [name, e] → Form .variableDeclaration [name, e]
  | ifThen {e s} : Whole [e, s] → Form .ifStatement [e, s]
  | ifElse {e s s'} : Whole [e, s, s'] → Form .ifStatement [e, s, s']
  | whileDo {e s} : Whole [e, s] → Form .whileStatement [e, s]
  | returnNothing : Form .returnStatement []
  | returnValue {e} : Whole [e] → Form .returnStatement [e]
  | function {name ns body} : Whole (name :: ns) → body.kind = .block →
      Form .functionDeclaration (name :: ns ++ [body])
  | call {callee ns} : Whole (callee :: ns) → Form .callExpression (callee :: ns)
  | new {callee ns} : Whole (callee :: ns) → Form .newExpression (callee :: ns)
  | member {e name} : Whole [e, name] → name.children = [] → Form .propertyAccess [e, name]
  | property {key e t} : key.children = [] → Whole [e] → key.kind.leaf? = some t →
      Form .propertyAssignment [key, e]
  | binary {e operator e'} : Whole [e, e'] → IsOperator operator →
      Form .binaryExpression [e, operator, e']
  | prefixed {operator e} : IsOperator operator → Whole [e] → Form .prefixUnary [operator, e]

/-- All nodes of a tree have their forms. -/
def WellFormed (v : Ast) : Prop :=
  ∀ n ∈ v.preorder, Form n.kind n.children

variable {e e' v operator : Ast} {vs ns : List Ast}

/-- A node is well-formed if it has a form and its children are well-formed. -/
theorem wellFormed_of_children (h : Form v.kind v.children)
    (hchildren : ∀ w ∈ v.children, WellFormed w) : WellFormed v :=
  Node.forall_preorder h hchildren

/-- So its children are. -/
theorem WellFormed.of_mem_children (h : WellFormed v) (he : e ∈ v.children) : WellFormed e :=
  fun n hn => h n (Node.mem_preorder_of_child he hn)

/-- One node stands by itself if its sort does. -/
theorem whole_singleton : Whole [v] ↔ v.kind.isWhole = true :=
  List.forall_mem_singleton

/-- Several do if each of them does. -/
theorem whole_cons : Whole (v :: vs) ↔ Whole [v] ∧ Whole vs := by
  rw [whole_singleton]
  exact List.forall_mem_cons

/-! ### The children of a kind -/

section

variable {k : Kind}

/-- What is in a block stands on its own. -/
theorem Form.of_block (h : Form k ns) (hk : k = .block) : Whole ns := by
  subst hk
  cases h with
  | leaf h => cases h
  | block h => exact h

/-- The children of an object are properties. -/
theorem Form.of_object (h : Form k ns) (hk : k = .objectLiteral) :
    ∀ n ∈ ns, n.kind = .propertyAssignment := by
  subst hk
  cases h with
  | leaf h => cases h
  | object h => exact h

/-- A loop has a condition and a statement. -/
theorem Form.of_while (h : Form k ns) (hk : k = .whileStatement) :
    ∃ e s, ns = [e, s] ∧ Whole [e, s] := by
  subst hk
  cases h with
  | leaf h => cases h
  | whileDo h => exact ⟨_, _, rfl, h⟩

/-- A function has a name, parameters and a block. -/
theorem Form.of_function (h : Form k ns) (hk : k = .functionDeclaration) :
    ∃ name ms body, ns = name :: ms ++ [body] ∧ Whole (name :: ms) ∧ body.kind = .block := by
  subst hk
  cases h with
  | leaf h => cases h
  | function h hbody => exact ⟨_, _, _, rfl, h, hbody⟩

/-- A property has a name that is a leaf, and a value. -/
theorem Form.of_property (h : Form k ns) (hk : k = .propertyAssignment) :
    ∃ key e t, ns = [key, e] ∧ key.kind.leaf? = some t ∧ Whole [e] := by
  subst hk
  cases h with
  | leaf h => cases h
  | property _ he hkey => exact ⟨_, _, _, rfl, hkey, he⟩

/-- A binary expression has an operator between two operands. -/
theorem Form.of_binary (h : Form k ns) (hk : k = .binaryExpression) :
    ∃ e operator e', ns = [e, operator, e'] ∧ IsOperator operator ∧ Whole [e, e'] := by
  subst hk
  cases h with
  | leaf h => cases h
  | binary hes hoperator => exact ⟨_, _, _, rfl, hoperator, hes⟩

/-- An operator in front has one operand. -/
theorem Form.of_prefixed (h : Form k ns) (hk : k = .prefixUnary) :
    ∃ operator e, ns = [operator, e] ∧ IsOperator operator ∧ Whole [e] := by
  subst hk
  cases h with
  | leaf h => cases h
  | prefixed hoperator he => exact ⟨_, _, rfl, hoperator, he⟩

end

/-! ### Chains -/

/-- The operands of a chain stand on their own, and there are operators in between. -/
def Chain.Sound : Chain → Prop
  | operand n => Whole [n]
  | binary l op _ r => l.Sound ∧ IsOperator op ∧ r.Sound

namespace Chain

variable {ch : Chain}

/-- A chain stays sound with an operator and an operand at its end. -/
theorem Sound.push {precedence : Nat} (h : ch.Sound) (hop : IsOperator operator)
    (he : Whole [e]) : (ch.push operator precedence e).Sound := by
  induction ch with
  | operand m => exact ⟨h, hop, he⟩
  | binary l op p r _ ih =>
    rw [Chain.push]
    -- A tighter operator takes the last operand, a looser one the whole chain.
    split
    · exact ⟨h.1, h.2.1, ih h.2.2⟩
    · exact ⟨h, hop, he⟩

/-- What it is put together to stands by itself. -/
theorem Sound.whole_toAst (h : ch.Sound) : Whole [ch.toAst] := by
  cases ch with
  | operand m => exact h
  | binary l op p r => exact whole_singleton.mpr rfl

/-- The tree of a chain has its form if the operands and operators do. -/
theorem Sound.wellFormed_toAst (h : ch.Sound) (hall : ∀ v ∈ ch.inOrder, WellFormed v) :
    WellFormed ch.toAst := by
  induction ch with
  | operand m => exact hall m (List.mem_singleton_self m)
  | binary l op p r ihl ihr =>
    obtain ⟨hl, hop, hr⟩ := h
    simp only [inOrder, List.forall_mem_append, List.forall_mem_cons] at hall
    have hboth := whole_cons.mpr ⟨hl.whole_toAst, hr.whole_toAst⟩
    refine wellFormed_of_children (.binary hboth hop) ?_
    simp only [toAst, List.forall_mem_cons]
    exact ⟨ihl hl hall.1, hall.2.1, ihr hr hall.2.2, List.forall_mem_nil _⟩

end Chain

/-! ### Trees of derivations -/

/-- What the trees are that are derived as a symbol. -/
def Formed : Symbol → List Ast → Prop
  | .chain, vs => (chainOf vs).Sound
  | .property, vs | .list .property _, vs => ∀ v ∈ vs, v.kind = .propertyAssignment
  | .declarations, vs => vs ≠ [] ∧ Whole vs
  | _, vs => Whole vs

section

variable {n : Nat} {c c' : Cursor} {σ : Symbol} {k : Kind} {t : Token} {item : Item}
  {close : Token}

/-- A leaf is well-formed. -/
theorem wellFormed_leaf (h : k.leaf? = some t) : ∀ v ∈ [c.nodeTo c' k []], WellFormed v :=
  List.forall_mem_singleton.mpr (wellFormed_of_children (.leaf h) nofun)

/-- Nodes are well-formed if the first one is and the others are. -/
theorem wellFormed_cons (he : ∀ v ∈ [e], WellFormed v) (hvs : ∀ v ∈ vs, WellFormed v) :
    ∀ v ∈ e :: vs, WellFormed v :=
  List.forall_mem_cons.mpr ⟨List.forall_mem_singleton.mp he, hvs⟩

/-- An atom stands by itself. -/
theorem isWhole_of_atom (h : atoms.lookup t = some k) : k.isWhole = true := by
  cases t <;> cases h <;> rfl

/-- A node that stands on its own, of a form. -/
theorem formed_nodeTo (hk : k.isWhole = true) (h : Form k vs) (hvs : ∀ v ∈ vs, WellFormed v) :
    Whole [c.nodeTo c' k vs] ∧ ∀ v ∈ [c.nodeTo c' k vs], WellFormed v :=
  ⟨whole_singleton.mpr hk, List.forall_mem_singleton.mpr (wellFormed_of_children h hvs)⟩

/-- What a list is made of has the form of its items. -/
theorem formed_list : Formed (.list item close) vs ↔ Formed item.symbol vs := by
  cases item <;> exact Iff.rfl

/-- A list may have no items. -/
theorem formed_nil : Formed item.symbol [] := by
  cases item <;> exact List.forall_mem_nil _

/-- Items are added to a list one by one. -/
theorem formed_cons (h : Formed item.symbol [v]) (hvs : Formed item.symbol vs) :
    Formed item.symbol (v :: vs) := by
  cases item <;> exact List.forall_mem_cons.mpr ⟨h v List.mem_cons_self, hvs⟩

/-- The tree of a chain that is derived stands on its own and has its form. -/
theorem formed_chainOf (h : Derives n .chain c vs c')
    (hvs : Formed .chain vs ∧ ∀ v ∈ vs, WellFormed v) :
    Whole [(chainOf vs).toAst] ∧ WellFormed (chainOf vs).toAst := by
  obtain ⟨hsound, hall⟩ : (chainOf vs).Sound ∧ ∀ v ∈ vs, WellFormed v := hvs
  exact ⟨hsound.whole_toAst, hsound.wellFormed_toAst fun v hv =>
    hall v ((mem_inOrder_chainOf h).mp hv)⟩

/-- The trees of a derivation have their forms. -/
theorem formed_of_derives (h : Derives n σ c vs c') : Formed σ vs ∧ ∀ v ∈ vs, WellFormed v := by
  -- Names and operators are made by the rules themselves; all other trees come from premises.
  have hname : ∀ {c c' : Cursor}, Whole [c.nodeTo c' .identifier []]
      ∧ ∀ v ∈ [c.nodeTo c' .identifier []], WellFormed v := fun {_ _} =>
    formed_nodeTo rfl (.leaf (t := .ident) rfl) nofun
  have hoperator : ∀ {c c' : Cursor} {t}, IsOperator (c.nodeTo c' (.operator (some t)) [])
      ∧ ∀ v ∈ [c.nodeTo c' (.operator (some t)) []], WellFormed v := fun {_ _ t} =>
    ⟨⟨⟨t, rfl⟩, rfl⟩, wellFormed_leaf (t := t) rfl⟩
  induction h with
  | atom _ hk => exact formed_nodeTo (isWhole_of_atom hk) (.leaf (leaf?_of_atom hk)) nofun
  | parenthesized _ _ _ he => exact formed_nodeTo rfl (.parenthesized he.1) he.2
  | object _ _ hps => exact formed_nodeTo rfl (.object hps.1) hps.2
  | array _ _ hes => exact formed_nodeTo rfl (.array hes.1) hes.2
  | newPlain _ _ _ _ hp => exact formed_nodeTo rfl (.new hp.1) hp.2
  | newCall _ _ _ _ hp hargs =>
    exact formed_nodeTo rfl (.new (whole_cons.mpr ⟨hp.1, hargs.1⟩)) (wellFormed_cons hp.2 hargs.2)
  | pathName => exact hname
  | pathMember _ _ _ hp | member _ _ _ hp =>
    exact formed_nodeTo rfl (.member (whole_cons.mpr ⟨hp.1, hname.1⟩) rfl)
      (wellFormed_cons hp.2 hname.2)
  | operand _ he | unsigned _ _ _ _ he => exact he
  | call _ _ _ he hargs =>
    exact formed_nodeTo rfl (.call (whole_cons.mpr ⟨he.1, hargs.1⟩)) (wellFormed_cons he.2 hargs.2)
  | sign _ _ _ he =>
    exact formed_nodeTo rfl (.prefixed hoperator.1 he.1) (wellFormed_cons hoperator.2 he.2)
  | chainStart _ he => exact he
  | chainStep _ _ _ _ hvs he =>
    exact ⟨hvs.1.push hoperator.1 he.1, wellFormed_cons he.2 (wellFormed_cons hoperator.2 hvs.2)⟩
  | binary hvs _ _ ih =>
    obtain ⟨hwhole, hall⟩ := formed_chainOf hvs ih
    exact ⟨hwhole, List.forall_mem_singleton.mpr hall⟩
  | assign hvs _ _ ih he =>
    obtain ⟨hwhole, hall⟩ := formed_chainOf hvs ih
    exact formed_nodeTo rfl (.binary (whole_cons.mpr ⟨hwhole, he.1⟩) hoperator.1)
      (List.forall_mem_cons.mpr ⟨hall, wellFormed_cons hoperator.2 he.2⟩)
  | property _ hk _ _ he =>
    refine ⟨List.forall_mem_singleton.mpr rfl, List.forall_mem_singleton.mpr ?_⟩
    exact wellFormed_of_children (.property rfl he.1 (leaf?_of_propertyName hk))
      (wellFormed_cons (wellFormed_leaf (leaf?_of_propertyName hk)) he.2)
  | parameter => exact formed_nodeTo rfl (.parameter hname.1) hname.2
  | listEnd => exact ⟨formed_list.mpr formed_nil, nofun⟩
  | listLast _ _ _ _ hv => exact ⟨formed_list.mpr hv.1, hv.2⟩
  | listMore _ _ _ _ hv hvs =>
    exact ⟨formed_list.mpr (formed_cons hv.1 (formed_list.mp hvs.1)), wellFormed_cons hv.2 hvs.2⟩
  | declared => exact formed_nodeTo rfl (.declared hname.1) hname.2
  | initialized _ _ _ he =>
    exact formed_nodeTo rfl (.initialized (whole_cons.mpr ⟨hname.1, he.1⟩))
      (wellFormed_cons hname.2 he.2)
  | lastDeclaration _ _ hd => exact ⟨⟨nofun, hd.1⟩, hd.2⟩
  | moreDeclarations _ _ _ hd hds =>
    exact ⟨⟨nofun, whole_cons.mpr ⟨hd.1, hds.1.2⟩⟩, wellFormed_cons hd.2 hds.2⟩
  | noStatement => exact ⟨List.forall_mem_nil _, nofun⟩
  | moreStatements _ _ _ hs hss => exact ⟨whole_cons.mpr ⟨hs.1, hss.1⟩, wellFormed_cons hs.2 hss.2⟩
  | empty => exact formed_nodeTo rfl (.leaf (t := .semicolon) rfl) nofun
  | block _ _ hss => exact formed_nodeTo rfl (.block hss.1) hss.2
  | variableStatement _ _ _ _ hds =>
    exact formed_nodeTo rfl (.variableStatement hds.1.1 hds.1.2) hds.2
  | ifThen _ _ _ _ _ _ he hs =>
    exact formed_nodeTo rfl (.ifThen (whole_cons.mpr ⟨he.1, hs.1⟩)) (wellFormed_cons he.2 hs.2)
  | ifElse _ _ _ _ _ _ _ he hs hs' =>
    exact formed_nodeTo rfl (.ifElse (whole_cons.mpr ⟨he.1, whole_cons.mpr ⟨hs.1, hs'.1⟩⟩))
      (wellFormed_cons he.2 (wellFormed_cons hs.2 hs'.2))
  | whileDo _ _ _ _ _ he hs =>
    exact formed_nodeTo rfl (.whileDo (whole_cons.mpr ⟨he.1, hs.1⟩)) (wellFormed_cons he.2 hs.2)
  | returnNothing => exact formed_nodeTo rfl .returnNothing nofun
  | returnValue _ _ _ _ he => exact formed_nodeTo rfl (.returnValue he.1) he.2
  | function _ _ _ _ _ _ hps hss =>
    obtain ⟨-, hbody⟩ := formed_nodeTo rfl (.block hss.1) hss.2
    exact formed_nodeTo rfl (.function (whole_cons.mpr ⟨hname.1, hps.1⟩) rfl)
      (List.forall_mem_append.mpr ⟨wellFormed_cons hname.2 hps.2, hbody⟩)
  | expressionStatement _ _ _ _ he => exact formed_nodeTo rfl (.expressionStatement he.1) he.2

/-- So do the statements of a source. -/
theorem formed_of_derivesAll (h : DerivesAll n c vs) : Whole vs ∧ ∀ v ∈ vs, WellFormed v :=
  ⟨h.forall_mem fun hs => whole_singleton.mp (formed_of_derives hs).1,
    h.forall_mem fun hs => (formed_of_derives hs).2 _ List.mem_cons_self⟩

/-- All nodes of a source that parses have their forms. -/
theorem wellFormed_of_parse {source : String} {root : Ast} (h : parse source = .ok root) :
    WellFormed root := by
  obtain ⟨lexemes, ss, -, hss, rfl⟩ := parse_eq_ok.mp h
  obtain ⟨hwhole, hall⟩ := formed_of_derivesAll hss
  exact wellFormed_of_children (.sourceFile hwhole) hall

/-- What is parsed is a source. -/
theorem kind_of_parse {source : String} {root : Ast} (h : parse source = .ok root) :
    root.kind = .sourceFile := by
  obtain ⟨lexemes, ss, -, -, rfl⟩ := parse_eq_ok.mp h
  rfl

/-- Every node of a source but the file itself is below the file. -/
theorem below_of_parse {source : String} {root m : Ast} (h : parse source = .ok root)
    (hm : m ∈ root.preorder) (hkind : m.kind ≠ .sourceFile) : ∃ v ∈ root.children, m ∈ v.preorder :=
  (Node.mem_preorder.mp hm).resolve_left (by rintro rfl; exact hkind (kind_of_parse h))

/-- The statements of a source stand on their own. -/
theorem whole_of_parse {source : String} {root : Ast} (h : parse source = .ok root) :
    Whole root.children := by
  obtain ⟨lexemes, ss, -, hss, rfl⟩ := parse_eq_ok.mp h
  exact (formed_of_derivesAll hss).1

end

end Transcode.Script
