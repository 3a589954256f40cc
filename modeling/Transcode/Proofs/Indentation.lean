import Transcode.Proofs.CommentOrder
import Transcode.Proofs.Openings

namespace Transcode.Target

open Text Output Engine Script

/-!
# Indentation

The backend never says how far a line is indented.  It asks for indentation around the body of a
suite and around the elements of lists, and the line breaks that come up there apply what is asked
for.  `StatementsAt` says what code comes out of this where there are no comments: every statement
that translates to something begins a line, indented by four spaces for each suite around it, and a
suite in which nothing does is `pass`.

Here are the pieces that such code is made of, each from the outputs it is made from: statements in
order (`statementsAt_laid`), suites (`ensures_isSuite`), the clauses of a conditional statement
(`isClause_of_suite`) and functions (`statementAt_function`).  Whatever an expression in between asks
for is undone before the next line break of a statement (`Sink.Settled`).
-/

/-! ### The layout of statements -/

/-- The indentations in force at a depth of suites, the innermost first. -/
def margins : Nat → List Nat
  | 0 => []
  | d + 1 => 4 * (d + 1) :: margins d

/-- The code of some fragments that are written at a depth. -/
def codeAt (d : Nat) (fs : List Fragment) : String :=
  (Sink.writeLead { levels := margins d } fs).finish

/-- A line break, and the indentation at a depth. -/
def lineAt (d : Nat) : String :=
  "\n" ++ spaces (4 * d)

section

variable (job : Job)

/-- The output of a node, however many levels of conversions it takes. -/
def ComesTo (c : Context) (n : Ast) (t : Tree) : Prop :=
  ∃ left, backend.output? job (fun _ => none) left c n = some t

/-- The node translates to something. -/
def Translates (c : Context) (n : Ast) : Prop :=
  ∃ t, ComesTo job c n t ∧ t.isEmpty = false

/-- The statements of a suite: those of a block, or the one statement. -/
def statementsOf (n : Ast) : List Ast :=
  if n.kind = .block then n.children else [n]

/-- The parameters of a function, given their outputs. -/
def parametersOf (ts : List Tree) : Tree :=
  Tree.empty.withBody (fragmentsOf ts) |>.withSeparator ", "

/-- The header of a function after its keyword, given the output of its name. -/
def signatureOf (t : Tree) (ts : List Tree) : Tree :=
  .ofFragments [t.toFragment, .text "(", (parametersOf ts).toFragment, .text "):"]

mutual

/-- The code of a statement at a depth.  It begins where the line is indented, with a character that
    shows. -/
inductive StatementAt : Nat → Context → Ast → String → Prop
  | plain {d c n t} :
      n.kind = .expressionStatement ∨ n.kind = .variableStatement ∨ n.kind = .returnStatement →
      ComesTo job c n t → BeginsWithInk (codeAt d [t.toFragment]) →
      StatementAt d c n (codeAt d [t.toFragment])
  | block {d c n text} : n.kind = .block → StatementsAt d c n.children text →
      StatementAt d c n text
  | conditional {d c n text} : ClauseAt d c "if" n text → StatementAt d c n text
  | function {d c n name ps body t ts header text} :
      n.kind = .functionDeclaration → n.children = name :: ps ++ [body] →
      ComesTo job c name t → List.Forall₂ (ComesTo job c) ps ts →
      codeAt d [(signatureOf t ts).toFragment] = header ++ ":" →
      SuiteAt d (c.merge .body) body text →
      StatementAt d c n ("def " ++ header ++ ":" ++ text)

/-- The code of a conditional statement under a keyword.  The headers after the first one are
    indented like it, and in a chain of `else if`s each is the clause of an `if` of its own. -/
inductive ClauseAt : Nat → Context → String → Ast → String → Prop
  | ifThen {d c keyword n e s t header text} :
      n.kind = .ifStatement → n.children = [e, s] →
      ComesTo job c e t → codeAt d [t.toFragment, .text ":"] = header ++ ":" →
      SuiteAt d c s text →
      ClauseAt d c keyword n (keyword ++ " " ++ header ++ ":" ++ text)
  | elseIf {d c keyword n e s s' t header text later} :
      n.kind = .ifStatement → n.children = [e, s, s'] → s'.kind = .ifStatement →
      ComesTo job c e t → codeAt d [t.toFragment, .text ":"] = header ++ ":" →
      SuiteAt d c s text → ClauseAt d c "elif" s' later →
      ClauseAt d c keyword n (keyword ++ " " ++ header ++ ":" ++ text ++ (lineAt d ++ later))
  | ifElse {d c keyword n e s s' t header text later} :
      n.kind = .ifStatement → n.children = [e, s, s'] → s'.kind ≠ .ifStatement →
      ComesTo job c e t → codeAt d [t.toFragment, .text ":"] = header ++ ":" →
      SuiteAt d c s text → SuiteAt d c s' later →
      ClauseAt d c keyword n
        (keyword ++ " " ++ header ++ ":" ++ text ++ (lineAt d ++ "else:" ++ later))

/-- The code of a suite under a header at a depth.  It begins on the next line, indented further. -/
inductive SuiteAt : Nat → Context → Ast → String → Prop
  | pass {d c n} : (∀ s ∈ statementsOf n, ¬ Translates job c s) →
      SuiteAt d c n (lineAt (d + 1) ++ "pass")
  | lines {d c n text} : (∃ s ∈ statementsOf n, Translates job c s) →
      StatementsAt (d + 1) c (statementsOf n) text → SuiteAt d c n (lineAt (d + 1) ++ text)

/-- The code of some statements at a depth, from where the first line is indented.  Those that
    translate to something follow each other on lines of their own, perhaps with an empty line in
    between. -/
inductive StatementsAt : Nat → Context → List Ast → String → Prop
  | nil {d c} : StatementsAt d c [] ""
  | skip {d c n ns text} : ¬ Translates job c n → StatementsAt d c ns text →
      StatementsAt d c (n :: ns) text
  | last {d c n ns text} : Translates job c n → StatementAt d c n text →
      (∀ m ∈ ns, ¬ Translates job c m) → StatementsAt d c (n :: ns) text
  | next {d c n ns text gap later} : Translates job c n → StatementAt d c n text →
      (∃ m ∈ ns, Translates job c m) → StatementsAt d c ns later → gap = "" ∨ gap = "\n" →
      StatementsAt d c (n :: ns) (text ++ gap ++ lineAt d ++ later)

end

end

/-! ### Texts at a depth -/

section

variable {d : Nat} {f : Fragment} {fs gs : List Fragment}

/-- A depth is four spaces. -/
theorem headD_margins (d : Nat) : (margins d).headD 0 = 4 * d := by
  cases d <;> rfl

/-- Code is text without blanks at the ends of its lines. -/
theorem codeAt_eq (d : Nat) (fs : List Fragment) :
    codeAt d fs = stripped (textAt (margins d) fs) := rfl

/-- Code begins with a character that shows if its first fragment does. -/
theorem beginsWithInk_codeAt (h : f.Opens) (d : Nat) (fs : List Fragment) :
    BeginsWithInk (codeAt d (f :: fs)) :=
  beginsWithInk_stripped (textAt_opens h (margins d) fs)

/-- Code after an indented line break. -/
theorem stripped_line {text : String} (h : BeginsWithInk text) (before : String) :
    stripped (before ++ lineAt d ++ text) = stripped before ++ lineAt d ++ stripped text := by
  have hspaces : '\n' ∉ (spaces (4 * d)).toList := by
    simp [spaces, List.mem_replicate]
  rw [lineAt, ← String.append_assoc, String.append_assoc, stripped_break,
    stripped_append hspaces h]
  simp only [String.append_assoc]

/-- Nothing is the code of nothing. -/
theorem codeAt_nil (d : Nat) : codeAt d [] = "" := by
  cases d <;> rfl

end

/-! ### Statements in order -/

section

variable {job : Job} {source : String} {c : Context} {n : Ast} {t u : Tree} {previous : Option Ast}
  {ps : List (Ast × Tree)}

/-- A node comes to one output. -/
theorem ComesTo.unique (ht : ComesTo job c n t) (hu : ComesTo job c n u) : t = u := by
  obtain ⟨left, ht⟩ := ht
  obtain ⟨left', hu⟩ := hu
  rcases Nat.le_total left left' with hle | hle
  · exact Option.some.inj ((Backend.output?_mono hle ht).symm.trans hu)
  · exact Option.some.inj (ht.symm.trans (Backend.output?_mono hle hu))

/-- A node translates exactly if what it comes to is not empty, -/
theorem ComesTo.translates_iff (ht : ComesTo job c n t) :
    Translates job c n ↔ t.isEmpty = false :=
  ⟨fun ⟨_, hu, hsome⟩ => ht.unique hu ▸ hsome, fun hsome => ⟨t, ht, hsome⟩⟩

/-- and does not if it is. -/
theorem ComesTo.not_translates (ht : ComesTo job c n t) (hempty : t.isEmpty = true) :
    ¬ Translates job c n := by
  rw [ht.translates_iff, hempty]
  exact Bool.noConfusion

/-- What is known of the output of a node. -/
structure Standing (job : Job) (c : Context) (n : Ast) (t : Tree) : Prop where
  comesTo : ComesTo job c n t
  keyed : t.keyed = []
  begun : Begun n t
  code : n.kind.isStatement = true → t.isEmpty = false → ∀ d,
    StatementAt job d c n (codeAt d [t.toFragment])

/-- What a statement comes to begins its line or is empty. -/
theorem Standing.opens_or_isEmpty (h : Standing job c n t) :
    t.toFragment.Opens ∨ t.isEmpty = true :=
  h.begun.imp_right And.right

/-- The output of an expression is not empty. -/
theorem Standing.opens (h : Standing job c n t) (hn : n.kind.isStatement = false) :
    t.toFragment.Opens := by
  refine h.begun.resolve_right fun hno => ?_
  rw [mayBeNothing, Bool.or_eq_true, decide_eq_true_eq, decide_eq_true_eq] at hno
  rcases hno.1 with hkind | hkind <;> rw [hkind] at hn <;> cases hn

/-- Line breaks between statements have no keys. -/
theorem keyedAll_laid (h : ∀ p ∈ ps, p.2.keyed = []) : keyedAll (laid source previous ps) = [] := by
  induction ps generalizing previous with
  | nil => rfl
  | cons p ps ih =>
    obtain ⟨hp, hps⟩ := List.forall_mem_cons.mp h
    have hfragment : p.2.toFragment.keyed = [] := hp
    cases hempty : p.2.isEmpty with
    | true => rw [laid_of_isEmpty hempty, ih hps]
    | false =>
      cases previous with
      | none => rw [laid_none hempty, keyedAll, hfragment, ih hps]; rfl
      | some q => rw [laid_some hempty, keyedAll, keyedAll, hfragment, ih hps]; rfl

/-- What comes after a node in a list of statements: nothing, or a separator and the rest. -/
theorem laid_some_cases (source : String) (n : Ast) (ps : List (Ast × Tree)) :
    (laid source (some n) ps = [] ∧ ∀ p ∈ ps, p.2.isEmpty = true)
      ∨ ∃ gap, (gap = "" ∨ gap = "\n") ∧ (∃ p ∈ ps, p.2.isEmpty = false)
        ∧ laid source (some n) ps = .text ("\n" ++ gap) :: laid source none ps := by
  induction ps with
  | nil => exact .inl ⟨rfl, List.forall_mem_nil _⟩
  | cons p ps ih =>
    cases hempty : p.2.isEmpty with
    | true =>
      rw [laid_of_isEmpty hempty, laid_of_isEmpty hempty]
      rcases ih with ⟨hlaid, hall⟩ | ⟨gap, hgap, ⟨q, hq, hsome⟩, hlaid⟩
      · exact .inl ⟨hlaid, List.forall_mem_cons.mpr ⟨hempty, hall⟩⟩
      · exact .inr ⟨gap, hgap, ⟨q, List.mem_cons_of_mem _ hq, hsome⟩, hlaid⟩
    | false =>
      rw [laid_some hempty, laid_none hempty, Trivia.blankLineSeparator]
      refine .inr ?_
      split
      · exact ⟨"", .inl rfl, ⟨p, List.mem_cons_self, hempty⟩, rfl⟩
      · exact ⟨"\n", .inr rfl, ⟨p, List.mem_cons_self, hempty⟩, rfl⟩

/-- The separator of two statements ends with an indented line break. -/
theorem textAt_separator {gap : String} (h : gap = "" ∨ gap = "\n") (d : Nat) :
    ∃ blank, textAt (margins d) [.text ("\n" ++ gap)] = blank ++ lineAt d
      ∧ ∀ before, stripped (before ++ blank) = stripped before ++ gap := by
  rcases h with rfl | rfl
  · refine ⟨"", ?_, fun before => by rw [String.append_empty, String.append_empty]⟩
    rw [textAt_break List.not_mem_nil, headD_margins, String.append_empty, String.empty_append,
      lineAt]
  · refine ⟨lineAt d, ?_, fun before => ?_⟩
    · rw [textAt_write, headD_margins, lineAt]
      simp [Sink.indentBreaks, spaces, String.append_assoc]
    · rw [lineAt, ← String.append_assoc, stripped_break, stripped_spaces, String.append_empty]

/-- Statements that are laid out. -/
theorem statementsAt_laid (hstatements : ∀ p ∈ ps, p.1.kind.isStatement = true)
    (h : ∀ p ∈ ps, Standing job c p.1 p.2) (d : Nat) :
    StatementsAt job d c (ps.map Prod.fst) (codeAt d (laid source none ps)) := by
  induction ps with
  | nil =>
    rw [laid, codeAt_nil]
    exact .nil
  | cons p ps ih =>
    obtain ⟨hp, hps⟩ := List.forall_mem_cons.mp h
    obtain ⟨hstatement, hstatements⟩ := List.forall_mem_cons.mp hstatements
    cases hempty : p.2.isEmpty with
    | true =>
      rw [laid_of_isEmpty hempty]
      exact .skip (hp.comesTo.not_translates hempty) (ih hstatements hps)
    | false =>
      have htranslates : Translates job c p.1 := ⟨_, hp.comesTo, hempty⟩
      rw [laid_none hempty]
      -- A gap is written only in front of a later statement that comes out as something.
      rcases laid_some_cases source p.1 ps with ⟨hlaid, hall⟩ | ⟨gap, hgap, ⟨q, hq, hsome⟩, hlaid⟩
      · rw [hlaid]
        refine .last htranslates (hp.code hstatement hempty d)
          (List.forall_mem_map.mpr fun q hq => ?_)
        exact (hps q hq).comesTo.not_translates (hall q hq)
      · have hrest : ∃ m ∈ ps.map Prod.fst, Translates job c m :=
          ⟨q.1, List.mem_map_of_mem hq, _, (hps q hq).comesTo, hsome⟩
        -- The next line begins with ink, so its indentation is no blank at the end of a line.
        have hlater : BeginsWithInk (textAt (margins d) (laid source none ps)) := by
          rcases opens_laid fun p hp => (hps p hp).opens_or_isEmpty with
            ⟨-, hall⟩ | ⟨-, f, rest, hrest, hf⟩
          · rw [hall q hq] at hsome
            cases hsome
          · rw [hrest]
            exact textAt_opens hf _ _
        obtain ⟨blank, hblank, hstrip⟩ := textAt_separator hgap d
        have hcode : codeAt d (p.2.toFragment :: laid source (some p.1) ps)
            = codeAt d [p.2.toFragment] ++ gap ++ lineAt d ++ codeAt d (laid source none ps) := by
          have hkeyed : p.2.toFragment.keyed = [] := hp.keyed
          have hseparator : (Fragment.text ("\n" ++ gap)).keyed = [] := rfl
          rw [hlaid, codeAt_eq, textAt_cons hkeyed, textAt_cons hseparator, hblank,
            ← String.append_assoc, ← String.append_assoc, stripped_line hlater, hstrip]
          rfl
        rw [hcode]
        exact .next htranslates (hp.code hstatement hempty d) hrest (ih hstatements hps) hgap

/-- Laid out, no statement is empty. -/
theorem nonempty_laid : nonempty (laid source previous ps) = laid source previous ps := by
  refine nonempty_eq_self ?_
  induction ps generalizing previous with
  | nil => exact List.forall_mem_nil _
  | cons p ps ih =>
    cases hempty : p.2.isEmpty with
    | true =>
      rw [laid_of_isEmpty hempty]
      exact ih
    | false =>
      have hp : p.2.toFragment.isEmpty = false := hempty
      have hseparator : ∀ k, (Fragment.text (Trivia.blankLineSeparator k)).isEmpty = false := by
        intro k
        rw [Trivia.blankLineSeparator]
        split <;> decide +kernel
      cases previous with
      | none =>
        rw [laid_none hempty]
        exact List.forall_mem_cons.mpr ⟨hp, ih⟩
      | some q =>
        rw [laid_some hempty]
        exact List.forall_mem_cons.mpr ⟨hseparator _, List.forall_mem_cons.mpr ⟨hp, ih⟩⟩

/-! ### Suites -/

/-- What is known of the output of a suite: it breaks the line first of all. -/
structure IsSuite (job : Job) (c : Context) (n : Ast) (u : Tree) : Prop where
  keyed : u.keyed = []
  isEmpty : u.isEmpty = false
  code : ∀ d, ∃ line, textAt (margins d) [u.toFragment] = "\n" ++ line
    ∧ SuiteAt job d c n ("\n" ++ stripped line)

/-- A tree that is laid out like a suite. -/
theorem textAt_suite {body : List Fragment} (d : Nat)
    (hbody : BeginsWithInk (textAt (margins (d + 1)) (nonempty body))) :
    ∃ line, textAt (margins d)
        [((Tree.empty.withBody body).withNewline.withIndent indentWidth).toFragment] = "\n" ++ line
      ∧ "\n" ++ stripped line = lineAt (d + 1) ++ codeAt (d + 1) (nonempty body) := by
  have hlevel : (((margins d).headD 0 : Nat) + indentWidth).toNat = 4 * (d + 1) := by
    rw [headD_margins, indentWidth]
    omega
  have hspaces : '\n' ∉ (spaces (4 * (d + 1))).toList := by
    simp [spaces, List.mem_replicate]
  refine ⟨spaces (4 * (d + 1)) ++ textAt (margins (d + 1)) (nonempty body), ?_, ?_⟩
  · have hwrite : textAt (margins d)
        [.node [] (nonempty body) { newline := true, indent := indentWidth }] = _ :=
      textAt_body rfl rfl rfl rfl (by decide) _
    rw [hlevel, String.append_assoc] at hwrite
    exact hwrite
  · rw [stripped_append hspaces hbody, lineAt, String.append_assoc]
    rfl

/-- A suite has its statements one level deeper, or `pass`. -/
theorem ensures_isSuite {R : Context → Ast → Tree → Prop}
    (hstatements : ∀ m ∈ statementsOf n, m.kind.isStatement = true)
    (hR : ∀ m ∈ statementsOf n, ∀ t, R c m t → Standing job c m t) :
    (suite job n).Ensures backend.merge (backend.Answers job R) c (IsSuite job c n) := by
  refine Program.ensures_bind.mpr (ensures_laid fun ts hts => ?_)
  have hnodes : ((statementsOf n).zip ts).map Prod.fst = statementsOf n :=
    List.map_fst_zip (Nat.le_of_eq hts.length_eq)
  have hstanding : ∀ p ∈ (statementsOf n).zip ts, Standing job c p.1 p.2 := by
    rintro ⟨m, t⟩ hp
    exact hR m (List.of_mem_zip hp).1 t (List.forall₂_zip hts hp)
  have hkinds : ∀ p ∈ (statementsOf n).zip ts, p.1.kind.isStatement = true := fun p hp =>
    hstatements p.1 (List.of_mem_zip hp).1
  show IsSuite job c n (Tree.withIndent (Tree.withNewline (Tree.empty.withBody
    (if (laid job.source none ((statementsOf n).zip ts)).isEmpty then [.text "pass"]
      else laid job.source none ((statementsOf n).zip ts)))) indentWidth)
  rcases opens_laid fun p hp => (hstanding p hp).opens_or_isEmpty with
    ⟨hlaid, hall⟩ | ⟨⟨q, hq, hsome⟩, f, rest, hlaid, hf⟩
  · have hvanish : ∀ m ∈ statementsOf n, ¬ Translates job c m := by
      rw [← hnodes]
      exact List.forall_mem_map.mpr fun p hp => (hstanding p hp).comesTo.not_translates (hall p hp)
    have hpass : nonempty [.text "pass"] = [.text "pass"] := rfl
    have hbody : ∀ d, textAt (margins (d + 1)) (nonempty [.text "pass"]) = "pass" := fun d => by
      rw [hpass]
      exact textAt_text (by decide)
    rw [hlaid]
    refine ⟨rfl, rfl, fun d => ?_⟩
    obtain ⟨line, hwrite, hline⟩ := textAt_suite d (by rw [hbody]; exact ⟨_, _, rfl, rfl⟩)
    refine ⟨line, hwrite, ?_⟩
    rw [hline, codeAt_eq, hbody, (by decide +kernel : stripped "pass" = "pass")]
    exact .pass hvanish
  · have htranslates : ∃ m ∈ statementsOf n, Translates job c m := by
      rw [← hnodes]
      exact ⟨_, List.mem_map_of_mem hq, _, (hstanding q hq).comesTo, hsome⟩
    -- What is laid out stays as it is in the suite.
    generalize hbody : laid job.source none ((statementsOf n).zip ts) = body at hlaid
    have hkept : nonempty body = body := hbody ▸ nonempty_laid
    have hkeyed : keyedAll body = [] := hbody ▸ keyedAll_laid fun p hp => (hstanding p hp).keyed
    have hcode : ∀ d, StatementsAt job d c (statementsOf n) (codeAt d body) := fun d => by
      rw [← hnodes, ← hbody]
      exact statementsAt_laid hkinds hstanding d
    have hsome : body.isEmpty = false := by
      rw [hlaid]
      rfl
    rw [hsome, if_neg Bool.false_ne_true]
    refine ⟨?_, ?_, fun d => ?_⟩
    · show keyedAll (nonempty body) = []
      rw [hkept, hkeyed]
    · show (true && (nonempty body).isEmpty && true) = false
      rw [hkept, hsome]
      rfl
    · have hbegins : BeginsWithInk (textAt (margins (d + 1)) (nonempty body)) := by
        rw [hkept, hlaid]
        exact textAt_opens hf _ _
      obtain ⟨line, hwrite, hline⟩ := textAt_suite d hbegins
      refine ⟨line, hwrite, ?_⟩
      rw [hline, hkept]
      exact .lines htranslates (hcode (d + 1))

/-! ### Headers -/

/-- The text of a tree is that of its fragments, -/
theorem textAt_ofFragments (levels : List Nat) (fs : List Fragment) :
    textAt levels [(Tree.ofFragments fs).toFragment] = textAt levels (nonempty fs) := rfl

/-- whether it asks for comments or not. -/
theorem textAt_withComments (levels : List Nat) (fs : List Fragment) :
    textAt levels [(Tree.ofFragments fs).withComments.toFragment] = textAt levels (nonempty fs) :=
  rfl

/-- Text on one line is not indented. -/
theorem textAt_text_cons {levels : List Nat} {content : String} (hbreak : '\n' ∉ content.toList)
    (fs : List Fragment) : textAt levels (.text content :: fs) = content ++ textAt levels fs := by
  rw [textAt_cons rfl, textAt_text hbreak]

/-- A line that ends with a colon, and what comes on the next line. -/
theorem exists_header {d : Nat} {fs : List Fragment} {text : String} (before : String)
    (hbefore : '\n' ∉ before.toList) (htext : textAt (margins d) fs = text ++ ":")
    (hbegins : BeginsWithInk (textAt (margins d) fs)) :
    ∃ header, codeAt d fs = header ++ ":" ∧ ∀ after,
      stripped (before ++ textAt (margins d) fs ++ "\n" ++ after)
        = before ++ header ++ ":" ++ "\n" ++ stripped after := by
  obtain ⟨header, hheader⟩ := exists_stripped_append text
  refine ⟨header, by rw [codeAt_eq, htext, hheader], fun after => ?_⟩
  rw [stripped_break, stripped_append hbefore hbegins, htext, hheader]
  simp only [String.append_assoc]

/-- The code of a header and a suite, and what comes after it. -/
theorem exists_clause {d : Nat} {keyword line : String} {e b : Tree}
    (hkeyword : '\n' ∉ keyword.toList) (he : e.toFragment.Opens) (hkeyed : e.keyed = [])
    (hsuite : b.keyed = []) (hline : textAt (margins d) [b.toFragment] = "\n" ++ line) :
    ∃ header, codeAt d [e.toFragment, .text ":"] = header ++ ":" ∧ ∀ later,
      codeAt d (.text keyword :: .text " " :: e.toFragment :: .text ":" :: b.toFragment :: later)
        = keyword ++ " " ++ header ++ ":" ++ ("\n" ++ stripped (line ++ textAt (margins d) later)) := by
  have hspace : '\n' ∉ (keyword ++ " ").toList := by
    rw [String.toList_append, List.mem_append]
    exact fun h => h.elim hkeyword (by decide)
  have hcolon : '\n' ∉ ":".toList := by decide
  have hhead : ∀ fs, textAt (margins d) (e.toFragment :: .text ":" :: fs)
      = textAt (margins d) [e.toFragment] ++ ":" ++ textAt (margins d) fs := fun fs => by
    rw [textAt_cons hkeyed, textAt_text_cons hcolon, String.append_assoc]
  have hcondition := hhead []
  rw [show textAt (margins d) [] = "" from rfl, String.append_empty] at hcondition
  obtain ⟨header, hheader, hafter⟩ := exists_header _ hspace hcondition (textAt_opens he _ _)
  refine ⟨header, hheader, fun later => ?_⟩
  have hafter := hafter (line ++ textAt (margins d) later)
  rw [hcondition] at hafter
  rw [codeAt_eq, textAt_text_cons hkeyword, textAt_text_cons (by decide), hhead, textAt_cons hsuite,
    hline]
  simp only [String.append_assoc] at hafter ⊢
  exact hafter

/-- A clause of a conditional statement. -/
structure IsClause (job : Job) (c : Context) (keyword : String) (n : Ast) (fs : List Fragment) :
    Prop where
  nonempty : nonempty fs = fs
  begins : ∀ d, BeginsWithInk (textAt (margins d) fs)
  code : ∀ d, ClauseAt job d c keyword n (codeAt d fs)

/-- A clause is not empty. -/
theorem IsClause.isEmpty {keyword : String} {fs : List Fragment} (h : IsClause job c keyword n fs) :
    (Tree.ofFragments fs).isEmpty = false := by
  cases fs with
  | nil => exact absurd rfl (h.begins 0).ne_empty
  | cons f fs =>
    have hlead : (Tree.ofFragments (f :: fs)).lead = f :: fs := h.nonempty
    rw [Tree.isEmpty, hlead]
    rfl

/-- A line is stripped apart from what stands on the next one. -/
theorem stripped_append_line {d : Nat} {text : String} (h : BeginsWithInk text) (line : String) :
    "\n" ++ stripped (line ++ (lineAt d ++ text))
      = "\n" ++ stripped line ++ (lineAt d ++ stripped text) := by
  have hline := stripped_line (d := d) h line
  simp only [String.append_assoc] at hline ⊢
  rw [hline]

section

variable {keyword : String} {e s s' : Ast} {kind : Kind} {fullStart start stop : Nat} {b b' : Tree}
  {later fs : List Fragment}
  (hbreak : '\n' ∉ keyword.toList) (hkeyword : BeginsWithInk keyword) (ht : Standing job c e t)
  (hopens : t.toFragment.Opens) (hb : IsSuite job c s b)

include hbreak hkeyword ht hopens hb

/-- A header, a suite, and what comes after it. -/
theorem isClause_of_suite (hlater : ∀ f ∈ later, f.isEmpty = false)
    (hcode : ∀ d header line, codeAt d [t.toFragment, .text ":"] = header ++ ":" →
      SuiteAt job d c s ("\n" ++ stripped line) → ClauseAt job d c keyword n
        (keyword ++ " " ++ header ++ ":" ++ ("\n" ++ stripped (line ++ textAt (margins d) later)))) :
    IsClause job c keyword n
      (.text keyword :: .text " " :: t.toFragment :: .text ":" :: b.toFragment :: later) where
  nonempty := by
    have hkey : (Fragment.text keyword).isEmpty = false := (Fragment.Opens.text hkeyword).isEmpty
    have hsuite : b.toFragment.isEmpty = false := hb.isEmpty
    refine nonempty_eq_self ?_
    simp only [List.forall_mem_cons]
    exact ⟨hkey, rfl, hopens.isEmpty, rfl, hsuite, hlater⟩
  begins d := textAt_opens (.text hkeyword) _ _
  code d := by
    obtain ⟨line, hline, hsuite⟩ := hb.code d
    obtain ⟨header, hheader, hclause⟩ := exists_clause hbreak hopens ht.keyed hb.keyed hline
    rw [hclause]
    exact hcode d header line hheader hsuite

/-- A clause without `else` is its header and its suite. -/
theorem isClause_ifThen (hkind : n.kind = .ifStatement) (hchildren : n.children = [e, s]) :
    IsClause job c keyword n
      [.text keyword, .text " ", t.toFragment, .text ":", b.toFragment] := by
  refine isClause_of_suite hbreak hkeyword ht hopens hb (List.forall_mem_nil _)
    fun d header line hheader hsuite => ?_
  rw [show textAt (margins d) [] = "" from rfl, String.append_empty]
  exact .ifThen hkind hchildren ht.comesTo hheader hsuite

/-- A clause before another condition has the clause of that one below it, -/
theorem isClause_elseIf (hkind : n.kind = .ifStatement) (hchildren : n.children = [e, s, s'])
    (hkind' : s'.kind = .ifStatement) (hfs : IsClause job c "elif" s' fs) :
    IsClause job c keyword n [.text keyword, .text " ", t.toFragment, .text ":", b.toFragment,
      .text "\n", (Tree.ofFragments fs).toFragment] := by
  refine isClause_of_suite hbreak hkeyword ht hopens hb
    (List.forall_mem_cons.mpr ⟨rfl, List.forall_mem_singleton.mpr hfs.isEmpty⟩)
    fun d header line hheader hsuite => ?_
  have hlater : textAt (margins d) [.text "\n", (Tree.ofFragments fs).toFragment]
      = lineAt d ++ textAt (margins d) fs := by
    have hbreak : textAt (margins d) [.text ("\n" ++ "")]
        = "\n" ++ spaces ((margins d).headD 0) ++ "" := textAt_break List.not_mem_nil
    rw [headD_margins, String.append_empty, String.append_empty] at hbreak
    rw [textAt_cons rfl, textAt_ofFragments, hfs.nonempty, hbreak, lineAt]
  rw [hlater, stripped_append_line (hfs.begins d), ← String.append_assoc]
  exact .elseIf hkind hchildren hkind' ht.comesTo hheader hsuite (hfs.code d)

/-- and one before any other statement has that as a second suite. -/
theorem isClause_ifElse (hkind : n.kind = .ifStatement) (hchildren : n.children = [e, s, s'])
    (hkind' : s'.kind ≠ .ifStatement) (hb' : IsSuite job c s' b') :
    IsClause job c keyword n [.text keyword, .text " ", t.toFragment, .text ":", b.toFragment,
      .text "\nelse:", b'.toFragment] := by
  refine isClause_of_suite hbreak hkeyword ht hopens hb
    (List.forall_mem_cons.mpr ⟨rfl, List.forall_mem_singleton.mpr hb'.isEmpty⟩)
    fun d header line hheader hsuite => ?_
  obtain ⟨line', hline', hsuite'⟩ := hb'.code d
  have hlater : textAt (margins d) [.text "\nelse:", b'.toFragment]
      = lineAt d ++ ("else:" ++ "\n" ++ line') := by
    have hbreak : textAt (margins d) [.text ("\n" ++ "else:")]
        = "\n" ++ spaces ((margins d).headD 0) ++ "else:" := textAt_break (by decide)
    rw [headD_margins] at hbreak
    rw [textAt_cons rfl, hline', show "\nelse:" = "\n" ++ "else:" from rfl, hbreak, lineAt]
    simp only [String.append_assoc]
  have helse : lineAt d ++ stripped ("else:" ++ "\n" ++ line')
      = lineAt d ++ "else:" ++ ("\n" ++ stripped line') := by
    rw [stripped_break, (by decide +kernel : stripped "else:" = "else:")]
    simp only [String.append_assoc]
  have hink : BeginsWithInk ("else:" ++ "\n" ++ line') := by
    rw [String.append_assoc]
    exact BeginsWithInk.append ⟨_, _, rfl, rfl⟩ _
  rw [hlater, stripped_append_line hink, helse, ← String.append_assoc]
  exact .ifElse hkind hchildren hkind' ht.comesTo hheader hsuite hsuite'

end

end

/-! ### Functions -/

section

variable {name body : Ast} {params : List Ast} {ts : List Tree} {b : Tree}

/-- Parameters have no keys. -/
theorem keyed_parametersOf (h : List.Forall₂ (Standing job c) params ts) :
    (parametersOf ts).keyed = [] := by
  have hts : ∀ t ∈ ts, t.keyed = [] := by
    induction h with
    | nil => exact List.forall_mem_nil _
    | cons ht _ ih => exact List.forall_mem_cons.mpr ⟨ht.keyed, ih⟩
  rw [Tree.keyed_of_none rfl]
  refine keyedAll_eq_nil fun f hf => ?_
  obtain ⟨t, ht, rfl⟩ := List.mem_map.mp (List.mem_filter.mp hf).1
  exact hts t ht

/-- A function has its name first, its block last and its parameters in between. -/
theorem function_concat (job : Job) (name : Ast) (params : List Ast) (body : Ast) :
    function job (name :: params ++ [body]) = do
      let parameters ← convertAll params
      let body ← Program.under Context.body (suite job body)
      let name ← convertNode name
      return some (Tree.withComments (.ofFragments
        [.text "def ", name.toFragment, .text "(", (parametersOf parameters).toFragment,
         .text "):", body.toFragment])) := by
  cases params with
  | nil => rfl
  | cons p more =>
    rw [List.cons_append, List.cons_append, function]
    simp only [← List.cons_append, List.dropLast_concat, List.getLast_concat]
    rfl

/-- The signature of a function, and its suite. -/
theorem statementAt_function (hkind : n.kind = .functionDeclaration)
    (hchildren : n.children = name :: params ++ [body]) (ht : Standing job c name t)
    (hopens : t.toFragment.Opens) (hts : List.Forall₂ (Standing job c) params ts)
    (hb : IsSuite job (c.merge .body) body b) (d : Nat) :
    StatementAt job d c n (codeAt d [(Tree.ofFragments
      [.text "def ", t.toFragment, .text "(", (parametersOf ts).toFragment, .text "):",
        b.toFragment]).withComments.toFragment]) := by
  let inside := nonempty [.text "(", (parametersOf ts).toFragment]
  have hsignature : nonempty [t.toFragment, .text "(", (parametersOf ts).toFragment, .text "):"]
      = t.toFragment :: inside ++ [.text "):"] := by
    rw [nonempty_cons hopens.isEmpty, List.cons_append]
    exact congrArg _ (nonempty_append [.text "(", (parametersOf ts).toFragment] [.text "):"])
  -- `ofFragments` drops what is empty.  The parameters may be; the name and the suite are not.
  have hall : nonempty [.text "def ", t.toFragment, .text "(", (parametersOf ts).toFragment,
      .text "):", b.toFragment]
        = .text "def " :: (t.toFragment :: inside ++ [.text "):"] ++ [b.toFragment]) := by
    have hsuite : nonempty [b.toFragment] = [b.toFragment] :=
      nonempty_eq_self (List.forall_mem_singleton.mpr hb.isEmpty)
    rw [nonempty_cons rfl, ← hsignature]
    exact congrArg _ ((nonempty_append [t.toFragment, _, _, _] [b.toFragment]).trans
      (congrArg _ hsuite))
  -- Nothing in the signature is printed once only, so it comes to the same wherever it stands.
  have hfront : keyedAll (t.toFragment :: inside) = [] := by
    have hinside : ∀ f ∈ inside, f.keyed = [] := fun f hf => by
      rcases List.mem_pair.mp (List.mem_filter.mp hf).1 with rfl | rfl
      · rfl
      · exact keyed_parametersOf hts
    exact keyedAll_eq_nil (List.forall_mem_cons.mpr ⟨ht.keyed, hinside⟩)
  have hkeyed : keyedAll (t.toFragment :: inside ++ [.text "):"]) = [] := by
    rw [keyedAll_append, hfront]
    rfl
  have hcolon : textAt (margins d) (t.toFragment :: inside ++ [.text "):"])
      = textAt (margins d) (t.toFragment :: inside) ++ ")" ++ ":" := by
    rw [textAt_append hfront, textAt_text (by decide), String.append_assoc]
    rfl
  obtain ⟨line, hline, hsuite⟩ := hb.code d
  obtain ⟨header, hheader, hafter⟩ := exists_header "def " (by decide) hcolon
    (textAt_opens hopens _ _)
  have hcode : codeAt d [(signatureOf t ts).toFragment] = header ++ ":" := by
    rw [← hheader, codeAt_eq, signatureOf, textAt_ofFragments, hsignature]
    rfl
  rw [codeAt_eq, textAt_withComments, hall, textAt_text_cons (by decide), textAt_append hkeyed,
    hline, ← String.append_assoc, ← String.append_assoc, hafter, String.append_assoc]
  exact .function hkind hchildren ht.comesTo (hts.imp fun _ _ h => h.comesTo) hcode hsuite

end

end Transcode.Target
