import Transcode.Proofs.Forms

namespace Transcode.Script

/-!
# Where statements stand

Expressions have no statements in them, so that a statement stands directly in a file, a block, a
branch of an `if`, the body of a loop or that of a function.  `plainChildren` lists the children of
a node that are not among these, and in a source that parses there is no statement below them
(`orderly_of_parse`).  The others, which `statementsIn` lists, are statements (`staffed_of_parse`).
-/

/-- Whether nodes of a kind are statements, or the file around them. -/
def Kind.isStatement : Kind → Bool
  | .sourceFile | .block | .expressionStatement | .variableStatement | .ifStatement
  | .whileStatement | .returnStatement | .functionDeclaration | .emptyStatement => true
  | _ => false

/-- There are no statements in a tree. -/
def Inner (v : Ast) : Prop :=
  ∀ n ∈ v.preorder, n.kind.isStatement = false

/-- The children of a node that are no statements. -/
def plainChildren (n : Ast) : List Ast :=
  match n.kind with
  | .sourceFile | .block => []
  | .ifStatement | .whileStatement => n.children.take 1
  | .functionDeclaration => n.children.dropLast
  | _ => n.children

/-- The children of a node that stand where a statement is asked for. -/
def statementsIn (n : Ast) : List Ast :=
  match n.kind with
  | .sourceFile | .block => n.children
  | .ifStatement | .whileStatement => n.children.drop 1
  | .functionDeclaration => n.children.getLast?.toList
  | _ => []

/-- A statement stands wherever one is asked for. -/
def Staffed (n : Ast) : Prop :=
  ∀ m ∈ statementsIn n, m.kind.isStatement = true

/-- What is no statement among the children of a node has no statements in it. -/
def Orderly (n : Ast) : Prop :=
  ∀ m ∈ plainChildren n, Inner m

variable {v n e : Ast} {vs ns : List Ast} {c c' : Cursor} {k : Kind}

/-! ### Trees -/

theorem inner_of_children (h : v.kind.isStatement = false) (hchildren : ∀ w ∈ v.children, Inner w) :
    Inner v :=
  Node.forall_preorder h hchildren

theorem Inner.of_mem_children (h : Inner v) (he : e ∈ v.children) : Inner e := fun n hn =>
  h n (Node.mem_preorder_of_child he hn)

theorem Inner.isStatement (h : Inner v) : v.kind.isStatement = false :=
  h v v.self_mem_preorder

theorem plainChildren_subset (n : Ast) : plainChildren n ⊆ n.children := by
  rw [plainChildren]
  split
  · exact List.nil_subset _
  · exact List.nil_subset _
  · exact List.take_subset _ _
  · exact List.take_subset _ _
  · exact List.dropLast_subset _
  · exact List.Subset.refl _

theorem plainChildren_of_isStatement (h : n.kind.isStatement = false) :
    plainChildren n = n.children := by
  rw [plainChildren]
  cases hkind : n.kind with
  | sourceFile | block | ifStatement | whileStatement | functionDeclaration =>
    rw [hkind] at h
    cases h
  | _ => rfl

/-- In a tree without statements, no node has any below it. -/
theorem Inner.orderly (h : Inner v) : ∀ n ∈ v.preorder, Orderly n := fun n hn _ hm k hk =>
  h k (Node.mem_preorder_trans hn
    (Node.mem_preorder_of_child (plainChildren_subset n hm) hk))

/-- Nothing but a statement asks for statements. -/
theorem Inner.staffed (h : Inner v) : ∀ n ∈ v.preorder, Staffed n := fun n hn => by
  have hkind := h n hn
  rw [Staffed, statementsIn]
  cases hk : n.kind with
  | sourceFile | block | ifStatement | whileStatement | functionDeclaration =>
    rw [hk] at hkind
    cases hkind
  | _ => exact List.forall_mem_nil _

theorem inner_nodeTo (h : k.isStatement = false) (hvs : ∀ v ∈ vs, Inner v) :
    Inner (c.nodeTo c' k vs) :=
  inner_of_children h hvs

theorem inner_cons (he : Inner e) (hvs : ∀ v ∈ vs, Inner v) : ∀ v ∈ e :: vs, Inner v :=
  List.forall_mem_cons.mpr ⟨he, hvs⟩

/-! ### Derivations -/

/-- Whether the trees of a symbol are statements. -/
def Symbol.isStatement : Symbol → Bool
  | .statement | .statements => true
  | _ => false

/-- What the trees are that are derived as a symbol: such that all below is orderly, and without
    statements unless the symbol is for statements. -/
def Settled (σ : Symbol) (vs : List Ast) : Prop :=
  match σ.isStatement with
  | true => ∀ v ∈ vs, ∀ n ∈ v.preorder, Orderly n
  | false => ∀ v ∈ vs, Inner v

section

variable {n : Nat} {σ : Symbol} {item : Item} {close : Token}

theorem isStatement_of_atom {t : Token} (h : atoms.lookup t = some k) : k.isStatement = false := by
  cases t <;> cases h <;> rfl

theorem isStatement_of_propertyName {t : Token} (h : propertyNames.lookup t = some k) :
    k.isStatement = false := by
  cases t <;> cases h <;> rfl

theorem settled_item : Settled item.symbol vs ↔ ∀ v ∈ vs, Inner v := by
  cases item <;> exact Iff.rfl

/-- The tree of a chain that is derived has no statements in it if its operands and operators do
    not. -/
theorem inner_chainOf (h : Derives n .chain c vs c') (hvs : ∀ v ∈ vs, Inner v) :
    Inner (chainOf vs).toAst :=
  Chain.forall_preorder_toAst (fun _ _ _ _ _ => rfl) fun v hv =>
    hvs v ((mem_inOrder_chainOf h).mp hv)

/-- A statement made of something without statements and of statements. -/
theorem settled_nodeTo (h : ∀ m ∈ plainChildren (c.nodeTo c' k vs), Inner m)
    (hvs : ∀ v ∈ vs, Inner v ∨ ∀ n ∈ v.preorder, Orderly n) :
    ∀ v ∈ [c.nodeTo c' k vs], ∀ n ∈ v.preorder, Orderly n :=
  List.forall_mem_singleton.mpr (Node.forall_preorder h fun w hw => (hvs w hw).elim Inner.orderly id)

/-- The trees of a derivation are settled. -/
theorem settled_of_derives (h : Derives n σ c vs c') : Settled σ vs := by
  have hleaf : ∀ {c c' : Cursor} {k : Kind}, k.isStatement = false → Inner (c.nodeTo c' k []) :=
    fun hk => inner_nodeTo hk (List.forall_mem_nil _)
  have hone : ∀ {v : Ast}, Inner v → ∀ w ∈ [v], Inner w := fun h => List.forall_mem_singleton.mpr h
  induction h with
  | atom _ hk => exact hone (hleaf (isStatement_of_atom hk))
  | parenthesized _ _ _ he | object _ _ he | array _ _ he | newPlain _ _ _ _ he =>
    exact hone (inner_nodeTo rfl he)
  | newCall _ _ _ _ hp hargs =>
    exact hone (inner_nodeTo rfl (inner_cons (hp _ List.mem_cons_self) hargs))
  | pathName => exact hone (hleaf rfl)
  | pathMember _ _ _ hp | member _ _ _ hp =>
    exact hone (inner_nodeTo rfl (inner_cons (hp _ List.mem_cons_self) (hone (hleaf rfl))))
  | operand _ he | unsigned _ _ _ _ he | chainStart _ he => exact he
  | call _ _ _ he hargs =>
    exact hone (inner_nodeTo rfl (inner_cons (he _ List.mem_cons_self) hargs))
  | sign _ _ _ he => exact hone (inner_nodeTo rfl (inner_cons (hleaf rfl) he))
  | chainStep _ _ _ _ hvs he =>
    exact inner_cons (he _ List.mem_cons_self) (inner_cons (hleaf rfl) hvs)
  | binary hvs _ _ ih => exact hone (inner_chainOf hvs ih)
  | assign hvs _ _ ih he =>
    exact hone (inner_nodeTo rfl (inner_cons (inner_chainOf hvs ih) (inner_cons (hleaf rfl) he)))
  | property _ hk _ _ he =>
    exact hone (inner_nodeTo rfl (inner_cons (hleaf (isStatement_of_propertyName hk)) he))
  | parameter => exact hone (inner_nodeTo rfl (hone (hleaf rfl)))
  | listEnd => exact List.forall_mem_nil _
  | listLast _ _ _ _ hv => exact settled_item.mp hv
  | listMore _ _ _ _ hv hvs => exact inner_cons (settled_item.mp hv _ List.mem_cons_self) hvs
  | declared => exact hone (inner_nodeTo rfl (hone (hleaf rfl)))
  | initialized _ _ _ he => exact hone (inner_nodeTo rfl (inner_cons (hleaf rfl) he))
  | lastDeclaration _ _ hd => exact hd
  | moreDeclarations _ _ _ hd hds => exact inner_cons (hd _ List.mem_cons_self) hds
  | noStatement => exact List.forall_mem_nil _
  | moreStatements _ _ _ hs hss =>
    exact List.forall_mem_cons.mpr ⟨hs _ List.mem_cons_self, hss⟩
  | empty => exact settled_nodeTo (List.forall_mem_nil _) (List.forall_mem_nil _)
  | block _ _ hss => exact settled_nodeTo (List.forall_mem_nil _) fun v hv => .inr (hss v hv)
  | variableStatement _ _ _ _ hds => exact settled_nodeTo hds fun v hv => .inl (hds v hv)
  | ifThen _ _ _ _ _ _ he hs | whileDo _ _ _ _ _ he hs =>
    refine settled_nodeTo he (List.forall_mem_cons.mpr ⟨.inl (he _ List.mem_cons_self), ?_⟩)
    exact fun v hv => .inr (hs v hv)
  | ifElse _ _ _ _ _ _ _ he hs hs' =>
    refine settled_nodeTo he (List.forall_mem_cons.mpr ⟨.inl (he _ List.mem_cons_self), ?_⟩)
    exact List.forall_mem_cons.mpr ⟨.inr (hs _ List.mem_cons_self), fun v hv => .inr (hs' v hv)⟩
  | returnNothing => exact settled_nodeTo (List.forall_mem_nil _) (List.forall_mem_nil _)
  | returnValue _ _ _ _ he | expressionStatement _ _ _ _ he =>
    exact settled_nodeTo he fun v hv => .inl (he v hv)
  | @function n c c₁ c₂ c₃ ps c₄ c₅ ss c' _ _ _ _ _ _ hps hss =>
    -- All children of a function but the last, its body, are without statements.
    have hplain : ∀ v ∈ c₁.nodeTo c₂ .identifier [] :: ps, Inner v := inner_cons (hleaf rfl) hps
    have hbody : ∀ v ∈ [c₄.nodeTo c' .block ss], ∀ n ∈ v.preorder, Orderly n :=
      settled_nodeTo (List.forall_mem_nil _) fun v hv => .inr (hss v hv)
    refine settled_nodeTo ?_ (List.forall_mem_append.mpr
      ⟨fun v hv => .inl (hplain v hv), fun v hv => .inr (hbody v hv)⟩)
    show ∀ m ∈ (c₁.nodeTo c₂ .identifier [] :: ps ++ [c₄.nodeTo c' .block ss]).dropLast, Inner m
    rw [List.dropLast_concat]
    exact hplain

/-- So are the statements of a source. -/
theorem orderly_of_derivesAll (h : DerivesAll n c vs) : ∀ v ∈ vs, ∀ n ∈ v.preorder, Orderly n :=
  h.forall_mem fun hs => settled_of_derives hs _ List.mem_cons_self

/-- **Where statements stand.**  In a source that parses, what is no statement among the children of
    a node has no statements in it. -/
theorem orderly_of_parse {source : String} {root : Ast} (h : parse source = .ok root) :
    ∀ n ∈ root.preorder, Orderly n := by
  obtain ⟨lexemes, ss, -, hss, rfl⟩ := parse_eq_ok.mp h
  exact Node.forall_preorder (List.forall_mem_nil _) (orderly_of_derivesAll hss)

/-- What is derived as statements are statements, and all below is staffed. -/
theorem staffed_of_derives (h : Derives n σ c vs c') (hσ : σ.isStatement = true) :
    (∀ v ∈ vs, v.kind.isStatement = true) ∧ ∀ v ∈ vs, ∀ n ∈ v.preorder, Staffed n := by
  have hinner : ∀ {n σ c vs c'}, Derives n σ c vs c' → σ.isStatement = false →
      ∀ v ∈ vs, ∀ n ∈ v.preorder, Staffed n := fun h hσ v hv => by
    have hsettled := settled_of_derives h
    rw [Settled, hσ] at hsettled
    exact (hsettled v hv).staffed
  have hone : ∀ {v : Ast}, v.kind.isStatement = true → Staffed v →
      (∀ w ∈ v.children, ∀ n ∈ w.preorder, Staffed n) →
      (∀ w ∈ [v], w.kind.isStatement = true) ∧ ∀ w ∈ [v], ∀ n ∈ w.preorder, Staffed n :=
    fun hkind h hchildren => ⟨List.forall_mem_singleton.mpr hkind,
      List.forall_mem_singleton.mpr (Node.forall_preorder h hchildren)⟩
  induction h with
  | noStatement => exact ⟨List.forall_mem_nil _, List.forall_mem_nil _⟩
  | moreStatements _ _ _ hs hss =>
    obtain ⟨hkind, hs⟩ := hs rfl
    obtain ⟨hkinds, hss⟩ := hss rfl
    exact ⟨List.forall_mem_cons.mpr ⟨hkind _ List.mem_cons_self, hkinds⟩,
      List.forall_mem_cons.mpr ⟨hs _ List.mem_cons_self, hss⟩⟩
  | empty | returnNothing => exact hone rfl (List.forall_mem_nil _) (List.forall_mem_nil _)
  | block _ _ hss => exact hone rfl (hss rfl).1 (hss rfl).2
  | variableStatement _ _ hds _ _ => exact hone rfl (List.forall_mem_nil _) (hinner hds rfl)
  | ifThen _ _ he _ _ _ _ hs | whileDo _ _ he _ _ _ hs =>
    refine hone rfl (hs rfl).1 (List.forall_mem_cons.mpr ⟨?_, (hs rfl).2⟩)
    exact hinner he rfl _ List.mem_cons_self
  | ifElse _ _ he _ _ _ _ _ hs hs' =>
    obtain ⟨hkind, hs⟩ := hs rfl
    obtain ⟨hkind', hs'⟩ := hs' rfl
    refine hone rfl (List.forall_mem_cons.mpr ⟨hkind _ List.mem_cons_self, hkind'⟩)
      (List.forall_mem_cons.mpr ⟨hinner he rfl _ List.mem_cons_self,
        List.forall_mem_cons.mpr ⟨hs _ List.mem_cons_self, hs'⟩⟩)
  | returnValue _ _ he _ _ | expressionStatement _ _ he _ _ =>
    exact hone rfl (List.forall_mem_nil _) (hinner he rfl)
  | @function n c c₁ c₂ c₃ ps c₄ c₅ ss c' _ _ _ hps _ _ _ hss =>
    -- The body stands last, and it is a block whatever is in it.
    have hlast : ∀ m ∈ (c₁.nodeTo c₂ .identifier [] :: ps
        ++ [c₄.nodeTo c' .block ss]).getLast?.toList,
        m.kind.isStatement = true := by
      rw [List.getLast?_concat]
      exact List.forall_mem_singleton.mpr rfl
    have hbody : ∀ n ∈ (c₄.nodeTo c' .block ss).preorder, Staffed n :=
      Node.forall_preorder (hss rfl).1 (hss rfl).2
    have hname : ∀ n ∈ (c₁.nodeTo c₂ .identifier []).preorder, Staffed n :=
      (inner_nodeTo rfl (List.forall_mem_nil _)).staffed
    exact hone rfl hlast (List.forall_mem_append.mpr
      ⟨List.forall_mem_cons.mpr ⟨hname, hinner hps rfl⟩, List.forall_mem_singleton.mpr hbody⟩)
  | _ => cases hσ

/-- And what stands where statements do are statements. -/
theorem staffed_of_derivesAll (h : DerivesAll n c vs) :
    (∀ v ∈ vs, v.kind.isStatement = true) ∧ ∀ v ∈ vs, ∀ n ∈ v.preorder, Staffed n :=
  ⟨h.forall_mem fun hs => (staffed_of_derives hs rfl).1 _ List.mem_cons_self,
    h.forall_mem fun hs => (staffed_of_derives hs rfl).2 _ List.mem_cons_self⟩

/-- **What stands where statements do.**  In a source that parses, statements stand there. -/
theorem staffed_of_parse {source : String} {root : Ast} (h : parse source = .ok root) :
    ∀ n ∈ root.preorder, Staffed n := by
  obtain ⟨lexemes, ss, -, hss, rfl⟩ := parse_eq_ok.mp h
  obtain ⟨hkinds, hall⟩ := staffed_of_derivesAll hss
  exact Node.forall_preorder hkinds hall

/-- There are no statements in a node that is none itself. -/
theorem inner_of_parse {source : String} {root m : Ast} (h : parse source = .ok root)
    (hm : m ∈ root.preorder) (hkind : m.kind.isStatement = false) : Inner m := by
  have horderly := orderly_of_parse h m hm
  rw [Orderly, plainChildren_of_isStatement hkind] at horderly
  exact inner_of_children hkind horderly

end

end Transcode.Script
