import Transcode.Proofs.Clashes
import Transcode.Proofs.CommentOrder
import Transcode.Proofs.FormulaTexts
import Transcode.Proofs.Printing
import Transcode.Proofs.Reports
import Transcode.Proofs.Writing

/-!
# Operators in Python

The operators of an expression are written one after the other, as the formula has them that the
expression is (`Spelled`).  So the text of an expression is read as the expression exactly if none
of its operators clash (`operators_kept`), and where they do, it is read as something else
(`negation_misread`).
-/

/-! ### Formulas are written -/

namespace Transcode.Target

open Output Engine Script

section

variable {source : String} {root n e l r operator : Ast} {all : List Lexeme} {f g : Formula}
  {o : Operator} {t : Token} {text : String} {c : Context} {u : Tree}

theorem IsWord.isEmpty (h : IsWord text) : text.isEmpty = false := by
  rw [String.isEmpty_eq_false_iff, Ne, ← String.toList_eq_nil_iff]
  exact h.chars.1

theorem ne_of_isWordChar {c : Char} (h : isWordChar c = true) : c ≠ '\n' ∧ c ≠ ' ' ∧ c ≠ '\t' := by
  refine ⟨?_, ?_, ?_⟩ <;> (rintro rfl; cases h)

/-- The text of a formula is on one line. -/
theorem break_notMem_text (hwords : ∀ w ∈ f.words, IsWord w) : '\n' ∉ f.text.toList := by
  induction f with
  | word text =>
    exact fun hmem => (ne_of_isWordChar ((hwords text List.mem_cons_self).chars.2 _ hmem)).1 rfl
  | group f ih | not f ih | negative f ih => simp [Formula.text, ih hwords]
  | binary o l r ihl ihr | chained o l r ihl ihr =>
    obtain ⟨hl, hr⟩ := List.forall_mem_append.mp hwords
    have ho : '\n' ∉ o.symbol.toList := by cases o <;> decide
    simp [Formula.text, ihl hl, ihr hr, ho]

/-- It ends in a word or a parenthesis. -/
theorem text_eq_concat (hwords : ∀ w ∈ f.words, IsWord w) :
    ∃ front c, f.text.toList = front ++ [c] ∧ (isWordChar c = true ∨ c = ')') := by
  induction f with
  | word text =>
    obtain ⟨hne, hchars⟩ := (hwords text List.mem_cons_self).chars
    exact ⟨_, _, (List.dropLast_append_getLast hne).symm, .inl (hchars _ (List.getLast_mem hne))⟩
  | group f ih => exact ⟨'(' :: f.text.toList, ')', by simp [Formula.text], .inr rfl⟩
  | not f ih | negative f ih =>
    obtain ⟨front, c, hf, hc⟩ := ih hwords
    exact ⟨_, c, by rw [Formula.text, String.toList_append, hf, List.append_assoc], hc⟩
  | binary o l r _ ih | chained o l r _ ih =>
    obtain ⟨front, c, hr, hc⟩ := ih (List.forall_mem_append.mp hwords).2
    exact ⟨_, c, by rw [Formula.text, String.toList_append, hr, List.append_assoc], hc⟩

/-- A tree that is written as the text of a formula is rendered as that. -/
theorem render_of_shows (h : Shows u.toFragment f.text) (hwords : ∀ w ∈ f.words, IsWord w) :
    render u = f.text := by
  refine h.render (break_notMem_text hwords) fun c hc => ?_
  obtain ⟨front, d, hf, hd⟩ := text_eq_concat hwords
  rw [hf, List.getLast?_concat] at hc
  obtain rfl := Option.some.inj hc
  rcases hd with hd | rfl
  · exact (ne_of_isWordChar hd).2
  · decide

/-! #### Operators -/

theorem textIn_operator {cs : List Char} (h : parse source = .ok root)
    (hoperator : operator ∈ root.preorder) (ht : operatorOf operator = some t)
    (hcs : t.spelling? = some cs) : operator.textIn source = String.ofList cs := by
  have hleaf : operator.kind.leaf? = some t := by
    rw [operatorOf] at ht
    split at ht
    · rename_i hkind
      rw [hkind]
      exact ht
    · cases ht
  exact slice_of_leaf h hoperator hleaf hcs

/-- A binary operator is written as it is in Python. -/
theorem binarySymbol_eq (h : Operator.ofToken? t = some o)
    (htext : ∀ cs, t.spelling? = some cs → text = String.ofList cs) :
    binarySymbol t text = o.symbol := by
  cases t <;> cases h
  all_goals first | rfl | exact htext _ rfl

/-- No formula is a string. -/
theorem ofNode?_ne_string (h : IsFormula source n f) : LiteralType.ofNode? n ≠ some .string := by
  induction h with
  | @name n hkind | @number n hkind =>
    rw [eq_mk n, hkind]
    exact nofun
  | @group n e f hkind hchildren _ ih =>
    rw [eq_mk n, hkind, hchildren]
    exact ih
  | @not n operator e f hkind hchildren ht | @negative n operator e f hkind hchildren ht =>
    rw [eq_mk n, hkind, hchildren, LiteralType.ofNode?, ht]
    exact nofun
  | @binary n l operator r t o f g hkind hchildren ht ho _ _ ihl ihr =>
    rw [eq_mk n, hkind, hchildren, LiteralType.ofNode?, ht, Option.bind_some,
      LiteralType.ofBinary?]
    split_ifs
    · exact nofun
    · rename_i hplus
      exact absurd hplus.2 (not_or.mpr ⟨ihl, ihr⟩)
    · exact ihr
    · exact nofun
    · exact nofun

theorem needsString_eq_false {self other : Option LiteralType} (h : other ≠ some .string) :
    needsString self other = false := by
  rw [needsString, beq_eq_false_iff_ne.mpr h, Bool.false_and]

/-! #### Conversions -/

theorem IsFormula.bare_eq (h : IsFormula source n f) : bare n = n := by
  rw [eq_mk n]
  cases h with
  | name h | number h | group h | not h | negative h | binary h => rw [h]; rfl

/-- What becomes of an expression that is a formula, or of a statement or file that is nothing but
    one: the text of the formula. -/
def Spelled (source : String) (root : Ast) (_ : Context) (n : Ast) (u : Tree) : Prop :=
  n ∈ root.preorder → ∀ f, IsFormula source (bare n) f → (∀ w ∈ f.words, IsWord w) →
    Shows u.toFragment f.text

theorem Spelled.shows (h : Spelled source root c n u) (hn : n ∈ root.preorder)
    (hf : IsFormula source n f) (hwords : ∀ w ∈ f.words, IsWord w) : Shows u.toFragment f.text :=
  h hn f (hf.bare_eq.symm ▸ hf) hwords

/-- A word is written as it is. -/
theorem shows_word (h : IsWord text) : Shows (Tree.ofText text).toFragment text :=
  shows_ofFragment <| shows_text h.isEmpty fun hmem => (ne_of_isWordChar (h.chars.2 _ hmem)).1 rfl

/-- The handler of an expression that is a formula makes its text. -/
theorem ensures_handle_formula {settings : Settings} (hparse : parse source = .ok root)
    (hn : n ∈ root.preorder) (hf : IsFormula source n f) (hwords : ∀ w ∈ f.words, IsWord w) :
    (handle { source, settings } n).Ensures backend.merge
      (backend.Answers { source, settings } (Spelled source root)) c
      fun o => ∃ u, o = some u ∧ Shows u.toFragment f.text := by
  have hchild : ∀ {ns m}, n.children = ns → m ∈ ns → m ∈ root.preorder := fun hns hm =>
    Node.mem_preorder_child hn (hns ▸ hm)
  cases hf with
  | name hkind =>
    rw [handle, hkind]
    exact ⟨_, rfl, (shows_word (hwords _ List.mem_cons_self)).withComments⟩
  | number hkind =>
    rw [handle, hkind]
    exact ⟨_, rfl, (shows_word (hwords _ List.mem_cons_self)).withComments⟩
  | @group _ e f hkind hchildren hf =>
    simp only [handle, hkind, hchildren, withFirst]
    rw [Program.ensures_bind, ensures_convertNode]
    intro u hu
    have hshows := hu.shows (hchild hchildren (by simp)) hf hwords
    have htext : (Formula.group f).text = String.join ["(", f.text, ")"] := by
      simp [Formula.text, String.append_assoc]
    exact ⟨_, rfl, htext ▸ shows_ofFragments
      (.cons (shows_text (by decide) (by decide)) (.cons hshows (.cons
        (shows_text (by decide) (by decide)) .nil))) (List.cons_ne_nil _ _)⟩
  | @not _ operator e f hkind hchildren ht hf =>
    simp only [handle, hkind, hchildren, prefixed, ht, if_true]
    rw [Program.ensures_bind, ensures_convertNode]
    intro u hu
    have hshows := hu.shows (hchild hchildren (by simp)) hf hwords
    have htext : (Formula.not f).text = String.join ["not ", f.text] := by
      simp [Formula.text]
    exact ⟨_, rfl, htext ▸ shows_ofFragments
      (.cons (shows_text (by decide) (by decide)) (.cons hshows .nil)) (List.cons_ne_nil _ _)⟩
  | @negative _ operator e f hkind hchildren ht hf =>
    simp only [handle, hkind, hchildren, prefixed, ht]
    rw [Program.ensures_bind, ensures_convertNode]
    intro u hu
    have hshows := hu.shows (hchild hchildren (by simp)) hf hwords
    have hminus : operator.textIn source = "-" :=
      textIn_operator hparse (hchild hchildren (by simp)) ht rfl
    have htext : (Formula.negative f).text = String.join ["-", f.text] := by
      simp [Formula.text]
    rw [hminus]
    exact ⟨_, rfl, htext ▸ shows_ofFragments
      (.cons (shows_text (by decide) (by decide)) (.cons hshows .nil)) (List.cons_ne_nil _ _)⟩
  | @binary _ l operator r t o f g hkind hchildren ht ho hl hr =>
    obtain ⟨hwordsl, hwordsr⟩ := List.forall_mem_append.mp hwords
    simp only [handle, hkind, hchildren, binary, ht]
    rw [Program.ensures_bind, ensures_convertNode]
    intro u hu
    rw [Program.ensures_bind, ensures_convertNode]
    intro v hv
    have hshowsl := hu.shows (hchild hchildren (by simp)) hl hwordsl
    have hshowsr := hv.shows (hchild hchildren (by simp)) hr hwordsr
    have hsymbol : binarySymbol t (operator.textIn source) = o.symbol :=
      binarySymbol_eq ho fun cs hcs =>
        textIn_operator hparse (hchild hchildren (by simp)) ht hcs
    have htext : (Formula.binary o f g).text
        = String.join [f.text, " ", o.symbol, " ", g.text] := by
      simp [Formula.text, String.append_assoc]
    -- No operand is known to be a string, so neither is put into a call of `str`.
    have htype : ∀ {m h}, IsFormula source m h →
        (if t = .plus then LiteralType.ofNode? m else none) ≠ some .string := by
      intro m h hm
      split
      · exact ofNode?_ne_string hm
      · exact (Option.some_ne_none _).symm
    rw [hsymbol, needsString_eq_false (htype hl), needsString_eq_false (htype hr)]
    exact ⟨_, rfl, htext ▸ shows_ofFragments
      (.cons hshowsl (.cons (shows_text (by decide) (by decide)) (.cons
        (shows_text (by cases o <;> decide) (by cases o <;> decide)) (.cons
          (shows_text (by decide) (by decide)) (.cons hshowsr .nil))))) (List.cons_ne_nil _ _)⟩

/-- So does that of a statement or a file that is nothing but one. -/
theorem ensures_handle_bare {settings : Settings} (hparse : parse source = .ok root)
    (hn : n ∈ root.preorder) (hf : IsFormula source (bare n) f) (hwords : ∀ w ∈ f.words, IsWord w) :
    (handle { source, settings } n).Ensures backend.merge
      (backend.Answers { source, settings } (Spelled source root)) c
      fun o => ∃ u, o = some u ∧ Shows u.toFragment f.text := by
  revert hf
  fun_cases bare n with
  | case1 fullStart start stop e =>
    intro hf
    rw [handle]
    simp only [withFirst]
    rw [Program.ensures_bind, ensures_convertNode]
    intro u hu
    have he := Node.mem_preorder_child hn List.mem_cons_self
    exact ⟨_, rfl, (shows_ofFragment (hu.shows he hf hwords)).withComments⟩
  | case2 fullStart start stop s =>
    intro hf
    rw [handle]
    simp only [joinWithBlankLines, joinAfter]
    rw [Program.ensures_bind, Program.ensures_bind, ensures_convertNode]
    intro u hu
    have hs := Node.mem_preorder_child hn List.mem_cons_self
    have hshows := hu hs f hf hwords
    have hsolid : u.isEmpty = false := hshows.isEmpty
    -- What is joined is the one statement: it is not empty, and no blank line comes before it.
    rw [if_neg (by rw [hsolid]; exact Bool.false_ne_true)]
    exact ⟨_, rfl, shows_ofFragment hshows⟩
  | case3 n hstatement hfile => exact fun hf => ensures_handle_formula hparse hn hf hwords

/-- A dispatched node is spelled once it is finished. -/
theorem spelled_step (settings : Settings) (hparse : parse source = .ok root)
    (htokens : tokens source = .ok all) (hcomments : ∀ l ∈ all, l.token.isComment = false) :
    (backend.dispatch { source, settings } n).Ensures backend.merge
      (backend.Answers { source, settings } (Spelled source root)) c
      (backend.Finishes { source, settings } n c (Spelled source root c n)) := by
  by_cases h : n ∈ root.preorder ∧ ∃ f, IsFormula source (bare n) f ∧ ∀ w ∈ f.words, IsWord w
  · obtain ⟨hn, f, hf, hwords⟩ := h
    refine finishes_of_handle ((ensures_handle_bare hparse hn hf hwords).mono fun o ho => ?_)
    obtain ⟨u, rfl, hshows⟩ := ho
    refine ⟨u, rfl, fun _ g hg _ => ?_⟩
    rw [finished_of_leadingOf (leadingOf_eq_nil hparse htokens hcomments hn)]
    obtain rfl := Option.some.inj (hf.formulaOf_eq.symm.trans hg.formulaOf_eq)
    exact hshows
  · -- Nothing is said about other nodes.
    have hany : ∀ u, Spelled source root c n u := fun u hn f hf hwords =>
      absurd ⟨hn, f, hf, hwords⟩ h
    refine Program.ensures_of_forall fun u => ?_
    rw [Backend.Finishes]
    split
    · exact Program.ensures_of_forall hany
    · exact hany u

/-- **Operators.**  A source that is nothing but an expression that is a formula is converted, and
    unless it nests too deep its code is the text of the formula.  So the code is read as the
    expression exactly if no operators in it clash. -/
theorem operators_kept (settings : Settings) (hparse : parse source = .ok root)
    (htokens : tokens source = .ok all) (hcomments : ∀ l ∈ all, l.token.isComment = false)
    (hformula : formulaOf source (bare root) = some f) (hwords : ∀ w ∈ f.words, IsWord w) :
    ∃ conversion, toPython source settings = .ok conversion
      ∧ ((∀ d ∈ conversion.diagnostics, ∀ n : Ast, d ≠ Backend.refusal { source, settings } n) →
        conversion.code = f.text
          ∧ (readText conversion.code = some f ↔ f.clashes = false)) := by
  have hf := isFormula_of_eq hformula
  -- Unless a node was refused for its depth, what is true of each node on dispatch is true of all.
  obtain ⟨outcome, houtcome, hspelled⟩ := backend.convertRoot_satisfies { source, settings }
    (fun d => ∀ n : Ast, d ≠ Backend.refusal { source, settings } n)
    (fun c n hrefused => absurd rfl (hrefused n))
    (fun c n => spelled_step settings hparse htokens hcomments) root
  refine ⟨_, toPython_of_parse hparse houtcome, fun hdiagnostics => ?_⟩
  have hshows := hspelled hdiagnostics root.self_mem_preorder f hf hwords
  have hcode : renderWith settings.strategy outcome.tree = f.text :=
    (renderWith_eq outcome.tree settings.strategy).trans (render_of_shows hshows hwords)
  refine ⟨hcode, ?_⟩
  show readText (renderWith settings.strategy outcome.tree) = some f ↔ _
  rw [hcode, readText_text hwords]
  refine readSigns_eq_some_iff hf fun m hm => ?_
  exact bound_of_parse hparse m (Node.mem_preorder_trans (bare_mem_preorder root) hm)

/-- A negation that is compared is read as the negation of the comparison. -/
theorem negation_misread :
    ¬ ∀ (source : String) (root : Ast) (all : List Lexeme) (f : Formula) (conversion : Conversion),
      parse source = .ok root → tokens source = .ok all →
      (∀ l ∈ all, l.token.isComment = false) → formulaOf source (bare root) = some f →
      (∀ w ∈ f.words, IsWord w) → toPython source = .ok conversion →
      (∀ d ∈ conversion.diagnostics, ∀ n : Ast, d ≠ Backend.refusal { source } n) →
      readText conversion.code = some f := by
  have hrun : ((parse "!a == b;").toOption.bind fun root =>
      (tokens "!a == b;").toOption.bind fun all =>
      (formulaOf "!a == b;" (bare root)).bind fun f =>
      (toPython "!a == b;").toOption.map fun conversion =>
        (decide ((∀ l ∈ all, l.token.isComment = false) ∧ ∀ w ∈ f.words, IsWord w), f,
          conversion.diagnostics, readText conversion.code))
      = some (true, .binary .equal (.not (.word "a")) (.word "b"), [],
        some (.not (.binary .equal (.word "a") (.word "b")))) := by
    decide +kernel
  obtain ⟨root, hroot, hrun⟩ := Option.bind_eq_some_iff.mp hrun
  obtain ⟨all, hall, hrun⟩ := Option.bind_eq_some_iff.mp hrun
  obtain ⟨f, hf, hrun⟩ := Option.bind_eq_some_iff.mp hrun
  obtain ⟨conversion, hconversion, hrun⟩ := Option.map_eq_some_iff.mp hrun
  simp only [Prod.mk.injEq, decide_eq_true_eq] at hrun
  obtain ⟨⟨hcomments, hwords⟩, rfl, hdiagnostics, hread⟩ := hrun
  intro hclaim
  have hsame := hclaim _ root all _ conversion (eq_ok_of_toOption hroot) (eq_ok_of_toOption hall)
    hcomments hf hwords (eq_ok_of_toOption hconversion)
    (by rw [hdiagnostics]; exact List.forall_mem_nil _)
  rw [hread] at hsame
  cases hsame

end

end Transcode.Target
