import Transcode.Proofs.Margins
import Transcode.Proofs.Outputs
import Transcode.Proofs.Returns
import Transcode.Proofs.Statements

namespace Transcode.Target

open Text Output Engine Script

/-!
# How outputs begin

Every token begins with a character that shows, and so does all that handlers write before the
outputs of the first node below theirs.  So the first thing that an output writes shows (`Opens`),
unless there is none because the node is an empty statement or a block that comes to nothing
(`opening_of_output?`).  Objects that are written as keyword arguments are left out: they may begin
with a line break.
-/

section

variable {source : String} {root n v : Ast} {c : Context} {t : Tree} {f : Fragment}
  {fs : List Fragment} {content : String}

/-! ### Texts of nodes -/

/-- A character that shows is not blank. -/
theorem isBlank_of_isGraphic {ch : Char} (h : IsGraphic ch) : isBlank ch = false := by
  obtain ⟨hlow, hhigh⟩ := h
  simp only [isBlank, Bool.or_eq_false_iff, Bool.and_eq_false_iff, decide_eq_false_iff_not,
    beq_eq_false_iff_ne, Ne]
  omega

/-- A node below the root begins with a token. -/
theorem beginsWithInk_textIn (h : parse source = .ok root) (hv : v ∈ root.children)
    (hn : n ∈ v.preorder) : BeginsWithInk (n.textIn source) := by
  obtain ⟨all, hlexes, -, hlays, -⟩ := lays_of_parse h
  obtain ⟨hlt, -, hstart, hstop⟩ := bounds_of_parse h v hv n hn
  obtain ⟨-, ⟨l, hl, hfirst⟩, -⟩ := hlays.ends v hv n hn
  obtain ⟨front, back, rfl⟩ := List.append_of_mem (List.mem_filter.mp hl).1
  obtain ⟨before, ch, more, after, hsource, hbefore, -, hscan, -⟩ := hlexes.split
  have hne := isEmpty_slice hstart hstop hlt
  rcases slice_cases source n.start n.stop with hslice | ⟨as, m, bs, hsplit, hslice, has, -⟩
  · rw [hslice] at hne
    cases hne
  · -- What comes before the token and before the slice is the same.
    have hdrop : dropBytes? n.start source.toList = some (ch :: more ++ after) := by
      rw [← hfirst, hbefore, hsource, Nat.zero_add]
      exact dropBytes?_append ..
    rw [has, hsplit, List.append_assoc, dropBytes?_append] at hdrop
    cases m with
    | nil =>
      rw [hslice] at hne
      cases hne
    | cons ch' m =>
      obtain ⟨rfl, -⟩ := List.cons_eq_cons.mp (Option.some.inj hdrop)
      refine ⟨ch', m, by rw [Node.textIn, hslice, String.toList_ofList], ?_⟩
      exact isBlank_of_isGraphic (scans_of_scanToken hscan).isGraphic

/-- A name in snake case begins with the character that it began with. -/
theorem beginsWithInk_snakeCase (h : BeginsWithInk content) :
    BeginsWithInk (snakeCase content) := by
  obtain ⟨ch, cs, hchars, hch⟩ := h
  rw [snakeCase, hchars]
  show BeginsWithInk (if ch.isUpper then content else String.ofList (ch :: snakeAfter ch cs))
  split
  · exact ⟨ch, cs, hchars, hch⟩
  · exact ⟨ch, snakeAfter ch cs, String.toList_ofList, hch⟩

/-- A literal begins with a quote. -/
theorem beginsWithInk_doubleQuoted (h : BeginsWithInk content) :
    BeginsWithInk (doubleQuoted content) := by
  rw [doubleQuoted]
  split
  · rw [String.append_assoc]
    exact BeginsWithInk.append ⟨'"', [], rfl, rfl⟩ _
  · exact h

/-- A remark begins with its sign, -/
theorem beginsWithInk_remarkOf (line : List Char) : BeginsWithInk (remarkOf line) := by
  rw [remarkOf]
  split
  · exact ⟨'#', [], rfl, rfl⟩
  · exact BeginsWithInk.append ⟨'#', [' '], rfl, rfl⟩ _

/-- each line of it. -/
theorem beginsWithInk_of_mem {span : Trivia.Span} {line : String}
    (h : line ∈ remarksOf source span) : BeginsWithInk line := by
  have hremarks : ∀ line ∈ remarksOf source span, BeginsWithInk line := by
    rw [remarksOf]
    split
    · exact List.forall_mem_singleton.mpr ⟨'#', [], rfl, rfl⟩
    · exact List.forall_mem_map.mpr fun line _ => beginsWithInk_remarkOf line
  exact hremarks line h

/-! ### Trees that open -/

/-- A tree opens if the first of its fragments does and it has no key. -/
theorem opens_of_lead (h : f.Opens) (hlead : t.lead = nonempty (f :: fs))
    (hkey : t.layout.renderOnce = none) : t.toFragment.Opens := by
  rw [Tree.toFragment, hlead, nonempty_cons h.isEmpty]
  exact .lead (.inl hkey) h

/-- So does a tree made from fragments, -/
theorem opens_ofFragments (h : f.Opens) (fs : List Fragment) :
    (Tree.ofFragments (f :: fs)).toFragment.Opens :=
  opens_of_lead h rfl rfl

/-- one made from text, -/
theorem opens_ofText (h : BeginsWithInk content) : (Tree.ofText content).toFragment.Opens :=
  opens_ofFragments (.text h) []

/-- and one that asks for comments. -/
theorem opens_withComments (h : t.toFragment.Opens) : t.withComments.toFragment.Opens := by
  obtain ⟨lead, body, layout⟩ := t
  have hnode : Fragment.Opens (.node lead body layout) := h
  cases hnode with
  | lead hkey hf => exact .lead hkey hf
  | body hkey hnewline hf => exact .body hkey hnewline hf

/-- What comes first before a node is a comment. -/
theorem opens_withLeading (source : String) (n : Ast) (h : t.toFragment.Opens) :
    (withLeading source (comment source) n t).toFragment.Opens := by
  -- The tree of a comment has a key, and a text first.
  have hcomment : ∀ span, (Piece.tree (comment source) (.comment span)).toFragment.Opens := by
    intro span
    cases hremarks : remarksOf source span with
    | nil => exact absurd hremarks (remarksOf_ne_nil source span)
    | cons line lines =>
      have hmem : line ∈ remarksOf source span := hremarks ▸ List.mem_cons_self
      have hline := beginsWithInk_of_mem hmem
      have htext : Fragment.Opens (.text (line ++ "\n")) := .text (hline.append _)
      have hlead : nonempty ((line :: lines).map fun line => .text (line ++ "\n"))
          = .text (line ++ "\n") :: nonempty (lines.map fun line => .text (line ++ "\n")) :=
        nonempty_cons htext.isEmpty _
      rw [Piece.tree, comment_eq, hremarks, Tree.ofFragments, hlead]
      exact .lead (.inr ⟨_, rfl⟩) htext
  cases hleading : leadingOf source n with
  | nil =>
    rw [withLeading, hleading]
    exact h
  | cons p ps =>
    obtain ⟨span, rfl⟩ := exists_comment_of_piecesOf hleading
    rw [withLeading, hleading]
    exact opens_ofFragments (hcomment span) _

/-- A remark before an output opens, and so does an output without one. -/
theorem opens_finished (source : String) (n : Ast) (h : t.toFragment.Opens) :
    (finished source n t).toFragment.Opens := by
  rw [finished]
  split
  · exact opens_withLeading source n h
  · exact h

/-! ### What handlers write first -/

/-- Whether nodes of a kind may come to nothing. -/
def mayBeNothing (k : Kind) : Bool :=
  k = .block || k = .emptyStatement

/-- The output opens, or there is none. -/
def Begun (n : Ast) (t : Tree) : Prop :=
  t.toFragment.Opens ∨ mayBeNothing n.kind = true ∧ t.isEmpty = true

/-- What the handler of a node makes of it opens, if it is anything.  Loops are declined. -/
def Handled (n : Ast) : Option Tree → Prop
  | some t => Begun n t
  | none => n.kind = .whileStatement

/-- What the output of a node is like that stands on its own in the tree of a source. -/
def Opening (root : Ast) (c : Context) (n : Ast) (t : Tree) : Prop :=
  c.keywordArgs = false → n ∈ root.preorder → n.kind.isWhole = true → Begun n t

/-- An output opens or is nothing with the comments before it, too. -/
theorem Begun.finished (h : Begun n t) : Begun n (finished source n t) := by
  rcases h with hopens | ⟨hkind, hempty⟩
  · exact .inl (opens_finished source n hopens)
  · have hsame : Target.finished source n t = t := by
      rw [Target.finished, hempty, Bool.not_true, Bool.and_false]
      exact if_neg Bool.false_ne_true
    exact .inr ⟨hkind, hsame.symm ▸ hempty⟩

end

section

variable {source : String} {root n : Ast} {ns : List Ast} {c : Context}

/-- A child of a node begins with a token. -/
theorem beginsWithInk_child {m : Ast} (h : parse source = .ok root) (hn : n ∈ root.preorder)
    (hm : m ∈ n.children) : BeginsWithInk (m.textIn source) := by
  rcases Node.mem_preorder.mp hn with rfl | ⟨v, hv, hnv⟩
  · exact beginsWithInk_textIn h hm m.self_mem_preorder
  · exact beginsWithInk_textIn h hv (Node.mem_preorder_child hnv hm)

/-- What stands by itself in a source begins with a character that shows. -/
theorem beginsWithInk_of_isWhole (h : parse source = .ok root) (hn : n ∈ root.preorder)
    (hwhole : n.kind.isWhole = true) : BeginsWithInk (n.textIn source) := by
  obtain ⟨v, hv, hn⟩ := below_of_parse h hn (Kind.ne_sourceFile hwhole)
  exact beginsWithInk_textIn h hv hn

/-- A list of statements begins with the first output that is not empty. -/
theorem opens_laid {ps : List (Ast × Tree)}
    (h : ∀ p ∈ ps, p.2.toFragment.Opens ∨ p.2.isEmpty = true) :
    (laid source none ps = [] ∧ ∀ p ∈ ps, p.2.isEmpty = true)
      ∨ (∃ p ∈ ps, p.2.isEmpty = false)
        ∧ ∃ f rest, laid source none ps = f :: rest ∧ f.Opens := by
  induction ps with
  | nil => exact .inl ⟨rfl, List.forall_mem_nil _⟩
  | cons p ps ih =>
    obtain ⟨hp, hps⟩ := List.forall_mem_cons.mp h
    cases hempty : p.2.isEmpty with
    | true =>
      rw [laid_of_isEmpty hempty]
      rcases ih hps with ⟨hlaid, hall⟩ | ⟨⟨q, hq, hsome⟩, hopens⟩
      · exact .inl ⟨hlaid, List.forall_mem_cons.mpr ⟨hempty, hall⟩⟩
      · exact .inr ⟨⟨q, List.mem_cons_of_mem _ hq, hsome⟩, hopens⟩
    | false =>
      have hopens := hp.resolve_right (by rw [hempty]; exact Bool.false_ne_true)
      exact .inr ⟨⟨p, List.mem_cons_self, hempty⟩, _, _, laid_none hempty, hopens⟩

/-- A clause begins with its keyword, -/
theorem ensures_ifClause_opens {job : Job} {spec : Context → Request Kind → Tree → Prop}
    {keyword : String} {k : Kind} {fullStart start stop : Nat} {condition branch : Ast}
    {rest : List Ast} :
    (ifClause job keyword ⟨k, fullStart, start, stop, condition :: branch :: rest⟩).Ensures
      backend.merge spec c fun o => ∃ later, o = some (.ofFragments (.text keyword :: later)) := by
  rw [ifClause]
  refine Program.ensures_bind.mpr (Program.ensures_of_forall fun a => ?_)
  refine Program.ensures_bind.mpr (Program.ensures_of_forall fun b => ?_)
  cases rest with
  | nil => exact ⟨_, rfl⟩
  | cons otherwise rest =>
    by_cases hkind : otherwise.kind = .ifStatement
    · simp only [if_pos hkind]
      exact Program.ensures_bind.mpr (Program.ensures_of_forall fun clause => ⟨_, rfl⟩)
    · simp only [if_neg hkind]
      exact Program.ensures_bind.mpr (Program.ensures_of_forall fun clause => ⟨_, rfl⟩)

/-- a result with `return`, -/
theorem ensures_returned_opens {spec : Context → Request Kind → Tree → Prop} :
    (returned n).Ensures backend.merge spec c
      fun o => ∃ later, o = some (Tree.ofFragments (.text "return" :: later)).withComments := by
  refine Program.ensures_bind.mpr (Program.ensures_of_forall fun c' => ?_)
  cases c'.inFunction <;> cases n.children with
  | nil => exact ⟨_, rfl⟩
  | cons value rest => exact fun t _ => ⟨_, rfl⟩

/-- a function with `def`, -/
theorem ensures_function_opens {job : Job} {spec : Context → Request Kind → Tree → Prop}
    {name body : Ast} :
    (function job (name :: ns ++ [body])).Ensures backend.merge spec c
      fun o => ∃ later, o = some (Tree.ofFragments (.text "def " :: later)).withComments := by
  cases ns with
  | nil | cons =>
    refine Program.ensures_bind.mpr (Program.ensures_of_forall fun ps => ?_)
    refine Program.ensures_bind.mpr (Program.ensures_of_forall fun b => ?_)
    exact Program.ensures_bind.mpr (Program.ensures_of_forall fun a => ⟨_, rfl⟩)

/-- and what nothing handles with the text of the node. -/
theorem ensures_convertUnknown_opens {job : Job} {spec : Context → Request Kind → Tree → Prop}
    (h : BeginsWithInk (n.textIn job.source)) :
    (convertUnknown job n : Writing Tree).Ensures backend.merge spec c (·.toFragment.Opens) := by
  refine Program.ensures_bind.mpr (Program.ensures_of_forall fun _ => ?_)
  rw [standIn]
  cases job.settings.unknownNodes with
  | bestEffort => exact opens_ofText h
  | strict =>
    have hplaceholder : BeginsWithInk ("<" ++ n.kindName ++ " " ++ n.textIn job.source ++ ">") := by
      simp only [String.append_assoc]
      exact BeginsWithInk.append ⟨_, _, rfl, rfl⟩ _
    cases n.children with
    | nil => exact opens_ofText hplaceholder
    | cons child rest =>
      refine Program.ensures_bind.mpr (Program.ensures_of_forall fun ts => ?_)
      exact opens_of_lead (.text hplaceholder) rfl rfl

variable {settings : Settings} (hparse : parse source = .ok root)

include hparse

/-- What the handler of a node makes of it. -/
theorem ensures_handle_begun (hn : n ∈ root.preorder) (hc : c.keywordArgs = false)
    (hwhole : n.kind.isWhole = true) :
    (handle { source, settings } n).Ensures backend.merge
      (backend.Answers { source, settings } (Opening root)) c
      (Handled n) := by
  have hform := wellFormed_of_parse hparse n hn
  have horderly := orderly_of_parse hparse n hn
  have hmem : ∀ m ∈ n.children, m ∈ root.preorder := fun m hm =>
    Node.mem_preorder_child hn hm
  -- Expressions open.
  have hopens : ∀ {c' : Context} {m : Ast} {t : Tree}, c'.keywordArgs = false →
      m ∈ plainChildren n → m.kind.isWhole = true → Opening root c' m t → t.toFragment.Opens := by
    intro c' m t hc' hm hwhole ht
    have hnone : mayBeNothing m.kind = false := by
      have hstatement := (horderly m hm).isStatement
      cases hkind : m.kind <;> rw [hkind] at hstatement <;> first | rfl | cases hstatement
    refine (ht hc' (hmem m (plainChildren_subset n hm)) hwhole).resolve_right fun hno => ?_
    rw [hnone] at hno
    cases hno.1
  have htext := beginsWithInk_of_isWhole hparse hn hwhole
  have hstatement : Whole n.children → ∀ m ∈ n.children, ∀ t, Opening root c m t →
      t.toFragment.Opens ∨ t.isEmpty = true := by
    intro hwhole m hm t ht
    exact (ht hc (hmem m hm) (hwhole m hm)).imp_right And.right
  obtain ⟨kind, fullStart, start, stop, children⟩ := n
  cases hform with
  | leaf ht =>
    cases kind with
    | identifier =>
      exact .inl (opens_withComments (opens_ofText (beginsWithInk_snakeCase htext)))
    | stringLiteral =>
      exact .inl (opens_withComments (opens_ofText (beginsWithInk_doubleQuoted htext)))
    | numericLiteral => exact .inl (opens_withComments (opens_ofText htext))
    | thisKeyword | trueKeyword | falseKeyword => exact .inl (opens_ofText ⟨_, _, rfl, rfl⟩)
    | emptyStatement => exact .inr ⟨rfl, rfl⟩
    | operator => cases hwhole
    | _ => cases ht
  | sourceFile => cases hwhole
  | block hns =>
    refine Program.ensures_bind.mpr (ensures_laid fun ts hts => ?_)
    have hall : ∀ p ∈ children.zip ts, p.2.toFragment.Opens ∨ p.2.isEmpty = true := by
      rintro ⟨m, t⟩ hp
      exact hstatement hns m (List.of_mem_zip hp).1 t (List.forall₂_zip hts hp)
    rcases opens_laid hall with ⟨hlaid, -⟩ | ⟨-, f, rest, hlaid, hf⟩
    · exact .inr ⟨rfl, by rw [hlaid]; rfl⟩
    · exact .inl (opens_withComments (by rw [hlaid]; exact opens_ofFragments hf rest))
  | array hns =>
    have hbracket : BeginsWithInk "[" := ⟨_, _, rfl, rfl⟩
    refine Program.ensures_bind.mpr (Program.ensures_bind.mpr ?_)
    exact Program.ensures_of_forall fun body => .inl (opens_of_lead (.text hbracket) rfl rfl)
  | object hns =>
    have hbrace : BeginsWithInk "\x7b" := ⟨_, _, rfl, rfl⟩
    refine Program.ensures_bind.mpr (Program.ensures_context.mpr ?_)
    rw [if_neg (by rw [hc]; exact Bool.false_ne_true)]
    refine Program.ensures_bind.mpr (Program.ensures_bind.mpr ?_)
    exact Program.ensures_of_forall fun body => .inl (opens_of_lead (.text hbrace) rfl rfl)
  | @variableStatement ns hne hns =>
    refine Program.ensures_bind.mpr (ensures_convertAll fun ts hts => ?_)
    cases hts with
    | nil => exact absurd rfl hne
    | @cons m t ms ts ht hts =>
      have ht := hopens hc List.mem_cons_self (hns _ List.mem_cons_self) ht
      have hbody : nonempty (fragmentsOf (t :: ts)) = t.toFragment :: nonempty (fragmentsOf ts) :=
        nonempty_cons ht.isEmpty _
      have hnode : ∀ layout : Layout, layout.renderOnce = none → layout.newline = false →
          (Fragment.node [] (nonempty (fragmentsOf (t :: ts))) layout).Opens := by
        intro layout hkey hnewline
        rw [hbody]
        exact .body hkey hnewline ht
      exact .inl (hnode _ rfl rfl)
  | expressionStatement he =>
    intro t ht
    have ht := hopens hc List.mem_cons_self (whole_singleton.mp he) ht
    exact .inl (opens_withComments (opens_ofFragments ht _))
  | parenthesized he => exact fun t ht => .inl (opens_ofFragments (.text ⟨_, _, rfl, rfl⟩) _)
  | parameter he => exact fun t ht => .inl (hopens hc List.mem_cons_self (whole_singleton.mp he) ht)
  | declared hname =>
    intro t ht
    exact .inl (opens_ofFragments (hopens hc List.mem_cons_self (whole_singleton.mp hname) ht) _)
  | initialized hname =>
    intro t ht u hu
    exact .inl (opens_ofFragments (hopens hc List.mem_cons_self (hname _ List.mem_cons_self) ht) _)
  | ifThen | ifElse =>
    refine Program.ensures_bind.mpr (ensures_ifClause_opens.mono ?_)
    rintro _ ⟨later, rfl⟩
    exact .inl (opens_withComments (opens_ofFragments (.text ⟨_, _, rfl, rfl⟩) _))
  | whileDo => rfl
  | returnNothing | returnValue =>
    refine ensures_returned_opens.mono ?_
    rintro _ ⟨later, rfl⟩
    exact .inl (opens_withComments (opens_ofFragments (.text ⟨_, _, rfl, rfl⟩) _))
  | function =>
    refine ensures_function_opens.mono ?_
    rintro _ ⟨later, rfl⟩
    exact .inl (opens_withComments (opens_ofFragments (.text ⟨_, _, rfl, rfl⟩) _))
  | call hns | new hns =>
    refine Program.ensures_bind.mpr (ensures_convertUnder.mpr fun t ht => ?_)
    have ht := hopens rfl List.mem_cons_self (hns _ List.mem_cons_self) ht
    refine Program.ensures_bind.mpr (Program.ensures_of_forall fun ts => ?_)
    exact .inl (opens_of_lead ht rfl rfl)
  | @member e name hns =>
    have he : ∀ t, Opening root (c.merge .value) e t → t.toFragment.Opens := fun t =>
      hopens rfl List.mem_cons_self (hns _ List.mem_cons_self)
    show (access _ _).Ensures _ _ _ _
    rw [access]
    split
    · exact .inl (opens_ofText ⟨_, _, rfl, rfl⟩)
    · exact fun t ht u hu => .inl (opens_ofFragments (he t ht) _)
  | @property key e token hkey he hleaf =>
    have hname := beginsWithInk_child hparse hn (List.mem_cons_self (a := key))
    refine Program.ensures_bind.mpr (ensures_convertUnder.mpr fun t ht => ?_)
    refine Program.ensures_bind.mpr (Program.ensures_context.mpr ?_)
    rw [if_neg (by rw [hc]; exact Bool.false_ne_true)]
    refine .inl (opens_withComments (opens_ofFragments (.text ?_) _))
    split
    · exact beginsWithInk_doubleQuoted hname
    · rw [String.append_assoc]
      exact BeginsWithInk.append ⟨_, _, rfl, rfl⟩ _
  | @binary e operator e' hns hop =>
    have he : ∀ t, Opening root c e t → t.toFragment.Opens := fun t =>
      hopens hc List.mem_cons_self (hns _ List.mem_cons_self)
    obtain ⟨token, htoken⟩ := operatorOf_isSome hop
    show (binary _ [e, operator, e']).Ensures _ _ _ _
    simp only [binary, htoken]
    refine Program.ensures_bind.mpr (ensures_convertNode.mpr fun t ht => ?_)
    refine Program.ensures_bind.mpr (ensures_convertNode.mpr fun u hu => ?_)
    -- An operand may be put into `str`, which opens as well.
    have hoperand : ∀ needed, (asString needed t).toFragment.Opens := by
      intro needed
      cases needed with
      | true =>
        have hstr : BeginsWithInk "str(" := ⟨_, _, rfl, rfl⟩
        exact opens_ofFragments (.text hstr) _
      | false => exact he t ht
    exact .inl (opens_ofFragments (hoperand _) _)
  | @prefixed operator e hop he =>
    obtain ⟨token, htoken⟩ := operatorOf_isSome hop
    have hsign := beginsWithInk_child hparse hn (List.mem_cons_self (a := operator))
    show (prefixed _ [operator, e]).Ensures _ _ _ _
    simp only [prefixed, htoken]
    refine Program.ensures_bind.mpr (ensures_convertNode.mpr fun t ht => ?_)
    refine .inl (opens_ofFragments (.text ?_) _)
    split
    · exact ⟨'n', _, rfl, rfl⟩
    · exact hsign

/-- The invariant is preserved by what the backend does with a node. -/
theorem opening_step (c : Context) (n : Ast) :
    (backend.dispatch { source, settings } n).Ensures backend.merge
      (backend.Answers { source, settings } (Opening root)) c
      (backend.Finishes { source, settings } n c (Opening root c n)) := by
  by_cases h : c.keywordArgs = false ∧ n ∈ root.preorder ∧ n.kind.isWhole = true
  · obtain ⟨hc, hn, hwhole⟩ := h
    have hfinish : ∀ t, Begun n t →
        backend.Finishes { source, settings } n c (Opening root c n) t := fun t ht =>
      finishes_of_finished fun _ _ _ => ht.finished
    rw [Backend.dispatch]
    refine Program.ensures_bind.mpr ((ensures_handle_begun hparse hn hc hwhole).mono ?_)
    intro o ho
    cases o with
    | some t => exact hfinish t ho
    | none =>
      have htext : BeginsWithInk (n.textIn (Job.source { source, settings })) :=
        beginsWithInk_of_isWhole hparse hn hwhole
      exact Program.ensures_bind.mpr
        ((ensures_convertUnknown_opens htext).mono fun t ht => hfinish t (.inl ht))
  · exact Program.ensures_of_forall fun t => finishes_of_finished fun hc hn hwhole =>
      absurd ⟨hc, hn, hwhole⟩ h

/-- **Beginnings.**  The first thing that an output writes shows, unless there is nothing to write
    because the node is an empty statement or a block that comes to nothing. -/
theorem opening_of_output? {refused : Ast → Option Tree} {left : Nat} {c : Context} {n : Ast}
    {t : Tree} (hrefused : ∀ n t, refused n = some t → t = .ofText (n.textIn source))
    (ht : backend.output? { source, settings } refused left c n = some t) :
    Opening root c n t := by
  refine Backend.output?_satisfies (fun c n t hrefuse _ hn hwhole => ?_) (opening_step hparse) ht
  rw [hrefused n t hrefuse]
  exact .inl (opens_ofText (beginsWithInk_of_isWhole hparse hn hwhole))

end

end Transcode.Target
