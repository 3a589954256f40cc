import Transcode.Proofs.CommentBlocks
import Transcode.Proofs.GapLines
import Transcode.Proofs.Halting
import Transcode.Proofs.Margins
import Transcode.Proofs.TrailingBlanks

/-!
# Comments and carriage returns

The scanner and the readers of the code take a carriage return for a line break, also where no line
feed comes next; those who cut a comment into lines do not.  So a comment goes on behind a carriage
return in it, but its remark in the code ends there, and the rest of the line is code
(`comment_leaks`).

This is the only way in which a comment comes to be code.  The remarks of a comment are whole lines,
and every line in them begins with `#` if behind each carriage return that is left in the body of
the comment there is a `#` (`remarks_lead_lines`).  A line comment ends at the first carriage return
and has none in it.
-/

namespace Transcode.Text

/-- The lines of a text as the readers of code find them: each ends at a line feed, at a carriage
    return, or at one of each together, and nothing after the last of them is no line. -/
def physicalLines : List Char → List (List Char)
  | [] => []
  | '\r' :: '\n' :: rest => [] :: physicalLines rest
  | c :: rest =>
    if c = '\n' ∨ c = '\r' then [] :: physicalLines rest
    else match physicalLines rest with
      | [] => [[c]]
      | first :: later => (c :: first) :: later

/-- Behind each carriage return in the line a comment of Python begins. -/
def StaysRemark (line : List Char) : Prop :=
  ∀ part ∈ (line.splitOn '\r').tail, part.head? = some '#'

variable {c : Char} {line rest : List Char} {lines : List String}

/-- A carriage return ends a line, unless a line feed comes next. -/
theorem physicalLines_return (h : line.head? ≠ some '\n') :
    physicalLines ('\r' :: line) = [] :: physicalLines line := by
  cases line with
  | nil => rfl
  | cons c line =>
    have hc : c ≠ '\n' := fun hc => h (congrArg some hc)
    rw [physicalLines]
    · simp
    · simpa using hc

/-- Any other character belongs to the first line. -/
theorem physicalLines_cons (hfeed : c ≠ '\n') (hreturn : c ≠ '\r') {first : List Char}
    {later : List (List Char)} (h : physicalLines rest = first :: later) :
    physicalLines (c :: rest) = (c :: first) :: later := by
  rw [physicalLines, if_neg (by simp [hfeed, hreturn]), h]
  simp [hreturn]

/-- A line without line feeds ends at the next one, and before that at each carriage return. -/
theorem physicalLines_append (hfeed : '\n' ∉ line) (hlast : line.getLast? ≠ some '\r') :
    physicalLines (line ++ '\n' :: rest) = line.splitOn '\r' ++ physicalLines rest := by
  induction line with
  | nil =>
    rw [List.nil_append, physicalLines, if_pos (.inl rfl)]
    · rfl
    · simp
  | cons c line ih =>
    have hc : c ≠ '\n' := (List.ne_of_not_mem_cons hfeed).symm
    have hrest : '\n' ∉ line := List.not_mem_of_not_mem_cons hfeed
    rw [List.cons_append, List.splitOn_cons_eq_if_modifyHead]
    by_cases hreturn : c = '\r'
    · -- It is not the last of the line, and so no line feed comes next.
      subst hreturn
      obtain ⟨next, line, rfl⟩ : ∃ next more, line = next :: more := by
        apply List.exists_cons_of_ne_nil
        rintro rfl
        exact hlast rfl
      have hnext : ((next :: line) ++ '\n' :: rest).head? ≠ some '\n' := by
        simpa using (List.ne_of_not_mem_cons hrest).symm
      rw [physicalLines_return hnext, ih hrest (by simpa using hlast)]
      rfl
    · have hlast : line.getLast? ≠ some '\r' := by
        intro hreturn'
        apply hlast
        rw [List.getLast?_cons, hreturn']
        rfl
      obtain ⟨first, later, hsplit⟩ :=
        List.exists_cons_of_ne_nil (List.splitOn_ne_nil '\r' line)
      rw [if_neg (by simpa using hreturn), hsplit]
      refine physicalLines_cons hc hreturn ?_
      rw [ih hrest hlast, hsplit]
      rfl

/-- Whole lines are read as the parts between their carriage returns. -/
theorem physicalLines_asLines
    (h : ∀ line ∈ lines, '\n' ∉ line.toList ∧ line.toList.getLast? ≠ some '\r') :
    physicalLines (asLines 0 lines).toList
      = lines.flatMap fun line => line.toList.splitOn '\r' := by
  induction lines with
  | nil => rfl
  | cons line lines ih =>
    obtain ⟨⟨hfeed, hlast⟩, hlines⟩ := List.forall_mem_cons.mp h
    have hchars : (asLines 0 (line :: lines)).toList
        = line.toList ++ '\n' :: (asLines 0 lines).toList := by
      rw [asLines_cons]
      simp [spaces]
    rw [hchars, physicalLines_append hfeed hlast, ih hlines, List.flatMap_cons]

/-- Lines end with a line break. -/
theorem getLast?_asLines (h : lines ≠ []) : (asLines 0 lines).toList.getLast? = some '\n' := by
  obtain ⟨before, last, rfl⟩ := (List.eq_nil_or_concat' lines).resolve_left h
  rw [asLines_append]
  simp [asLines, spaces]

/-- Lines that end in no space or tab are finished as they are. -/
theorem stripped_asLines
    (h : ∀ line ∈ lines, '\n' ∉ line.toList ∧ ∀ c ∈ line.toList.getLast?, c ≠ ' ' ∧ c ≠ '\t') :
    Output.stripped (asLines 0 lines) = asLines 0 lines := by
  induction lines with
  | nil => rfl
  | cons line lines ih =>
    obtain ⟨⟨hfeed, hlast⟩, hlines⟩ := List.forall_mem_cons.mp h
    have htext : asLines 0 (line :: lines) = line ++ "\n" ++ asLines 0 lines := by
      rw [asLines_cons]
      simp [spaces]
    have hline : Output.stripped line = line := by
      rw [Output.stripped, Output.stripLineEnds_eq_self hfeed hlast, String.ofList_toList]
    rw [htext, Output.stripped_break, hline, ih hlines]

end Transcode.Text

/-! ### Bodies of comments -/

namespace Transcode.Trivia

open Text

variable {c : Char} {line cs : List Char} {source : String} {start : Nat} {limit? : Option Nat}
  {span : Span}

/-- No line of the text ends in a blank. -/
def IsTidy (cs : List Char) : Prop :=
  ∀ part ∈ pieces cs, endsInBlank part = false

/-- Trimmed, a line does not end in a blank. -/
theorem endsInBlank_trimEnd (line : List Char) : endsInBlank (trimEnd line) = false :=
  getLast?_dropEndWhile isBlank line

/-- Its last character is none that is blank. -/
theorem ne_of_endsInBlank (h : endsInBlank line = false) {x : Char} (hx : isBlank x = true) :
    ∀ c ∈ line.getLast?, c ≠ x := by
  rintro c hc rfl
  rw [endsInBlank, Option.mem_def.mp hc, Option.any_some, hx] at h
  cases h

/-- Nothing is added where a sign is dropped, -/
theorem mem_of_mem_dropOne {x : Char} (h : c ∈ dropOne x line) : c ∈ line := by
  cases line with
  | nil => exact h
  | cons y rest =>
    rw [dropOne] at h
    split at h
    · exact List.mem_cons_of_mem y h
    · exact h

/-- where a gutter is -/
theorem mem_of_mem_dropGutter (h : c ∈ dropGutter line) : c ∈ line := by
  unfold dropGutter at h
  split at h
  · rename_i rest htrim
    have hmem : c ∈ trimStart line := htrim ▸ List.mem_cons_of_mem '*' (mem_of_mem_dropOne h)
    exact List.dropWhile_subset _ hmem
  · exact h

/-- or where the end of a comment is. -/
theorem mem_of_mem_dropClosing (h : c ∈ dropClosing line) : c ∈ line := by
  unfold dropClosing at h
  split at h
  · rename_i rest hreverse
    rw [← List.mem_reverse, hreverse]
    exact List.mem_cons_of_mem _ (List.mem_cons_of_mem _ (List.mem_reverse.mp h))
  · exact h

/-- Nothing comes to a line when its markers are taken away. -/
theorem mem_of_mem_blockLineBody (h : c ∈ blockLineBody line) : c ∈ line := by
  have hclosing : ∀ {c}, c ∈ dropClosing (trimEnd line) → c ∈ line := fun hmem =>
    mem_of_mem_dropEndWhile (mem_of_mem_dropClosing hmem)
  unfold blockLineBody at h
  split at h
  · rename_i rest hline
    have hrest := mem_of_mem_dropOne (mem_of_mem_dropEndWhile h)
    apply hclosing
    rw [hline]
    exact List.mem_cons_of_mem _ (List.mem_cons_of_mem _ (List.dropWhile_subset _ hrest))
  · exact hclosing (mem_of_mem_dropGutter (mem_of_mem_dropEndWhile h))

/-- A line of a block comment does not end in a blank. -/
theorem endsInBlank_blockLineBody (line : List Char) :
    endsInBlank (blockLineBody line) = false := by
  unfold blockLineBody
  split <;> exact endsInBlank_trimEnd _

/-- The lines kept are lines of the comment. -/
theorem mem_of_mem_dropOuterEmpty {body : List (List Char)} (h : line ∈ dropOuterEmpty body) :
    line ∈ body := by
  unfold dropOuterEmpty at h
  have hreverse := List.dropWhile_subset _ (List.mem_reverse.mp h)
  exact List.dropWhile_subset _ (List.mem_reverse.mp hreverse)

/-- The body of a block comment is tidy. -/
theorem isTidy_block (comment : String) : IsTidy (stripMarkers comment true).toList := by
  have hlines : ∀ line ∈ blockCommentLines comment.toList,
      '\n' ∉ line ∧ endsInBlank line = false := by
    intro line hline
    obtain ⟨before, hbefore, rfl⟩ := List.mem_map.mp (mem_of_mem_dropOuterEmpty hline)
    refine ⟨fun hmem => ?_, endsInBlank_blockLineBody before⟩
    exact break_notMem_of_mem_lines hbefore (mem_of_mem_blockLineBody hmem)
  intro part hpart
  rw [stripMarkers, if_pos rfl, String.toList_ofList] at hpart
  by_cases hnone : blockCommentLines comment.toList = []
  · rw [hnone] at hpart
    rw [List.mem_singleton.mp hpart]
    rfl
  · rw [pieces, List.splitOn_intercalate '\n' (fun line hline => (hlines line hline).1) hnone]
      at hpart
    exact (hlines part hpart).2

/-- A line comment keeps only what it had. -/
theorem mem_of_mem_lineCommentBody (h : c ∈ lineCommentBody cs) : c ∈ cs := by
  have hmem := mem_of_mem_dropOne (mem_of_mem_dropEndWhile h)
  split at hmem
  · exact List.mem_cons_of_mem _ (List.mem_cons_of_mem _ hmem)
  · exact hmem

/-- A line comment is stripped as one line. -/
theorem toList_stripMarkers_line (comment : String) :
    (stripMarkers comment false).toList = lineCommentBody comment.toList := by
  rw [stripMarkers, if_neg Bool.false_ne_true, String.toList_ofList]

/-- So is that of a comment on one line. -/
theorem isTidy_line {comment : String} (h : '\n' ∉ comment.toList) :
    IsTidy (stripMarkers comment false).toList := by
  have hbreak : '\n' ∉ lineCommentBody comment.toList := fun hmem =>
    h (mem_of_mem_lineCommentBody hmem)
  intro part hpart
  rw [toList_stripMarkers_line, pieces, List.splitOn_eq_singleton hbreak,
    List.mem_singleton] at hpart
  rw [hpart]
  exact endsInBlank_trimEnd _

/-- Its lines end in no blank, and so in no carriage return. -/
theorem IsTidy.lines (h : IsTidy cs) (hline : line ∈ lines cs) :
    '\n' ∉ line ∧ endsInBlank line = false := by
  refine ⟨break_notMem_of_mem_lines hline, ?_⟩
  rcases mem_lines hline with hpiece | hpiece
  · exact h line hpiece
  · -- The carriage return is a blank itself.
    have hlast := h _ (List.dropLast_subset _ hpiece)
    exact absurd rfl (ne_of_endsInBlank hlast (by decide) '\r' List.getLast?_concat)

/-! ### Line comments -/

/-- There is no line break in a line comment. -/
theorem break_notMem_lineComment (hspan : span ∈ scan source start limit?)
    (hkind : span.kind = .lineComment) :
    '\n' ∉ (span.textIn source).toList ∧ '\r' ∉ (span.textIn source).toList := by
  obtain ⟨first, stop, hle, hstop, hscan⟩ := exists_limit source start limit?
  rw [hscan] at hspan
  obtain ⟨hholds, hlength⟩ := (tiled_scan hle hstop).holds span hspan
  have hplain := (hholds.line hkind).2.1
  rw [length_take_bytes hstop] at hlength
  have hbyte : ∀ b ∈ bytes (span.textIn source), isBreakByte b = false := by
    intro b hb
    have hslice : slice source span.start span.stop ≠ "" := by
      intro hempty
      rw [Span.textIn, hempty] at hb
      cases hb
    rw [Span.textIn, bytes_slice hslice] at hb
    obtain ⟨k, hk⟩ := List.mem_iff_getElem?.mp hb
    have hlt : k < span.stop - span.start :=
      ((List.getElem?_eq_some_iff.mp hk).1).trans_le (length_window_le source _ _)
    rw [getElem?_window source hlength hlt] at hk
    refine Bool.eq_false_iff.mpr fun hbreak => ?_
    exact hplain (span.start + k) (Nat.le_add_right _ _) (by omega) ⟨b, hk, hbreak⟩
  have hchar : ∀ {c : Char} {b : UInt8}, String.utf8EncodeChar c = [b] → isBreakByte b = true →
      c ∉ (span.textIn source).toList := by
    intro c b hencode hbreak hmem
    have hb : b ∈ bytes (span.textIn source) :=
      List.mem_flatMap.mpr ⟨c, hmem, hencode ▸ List.mem_singleton_self b⟩
    rw [hbyte b hb] at hbreak
    cases hbreak
  exact ⟨hchar rfl rfl, hchar rfl rfl⟩

/-- The body of a comment is tidy. -/
theorem isTidy_comment (hspan : span ∈ scan source start limit?)
    (hcomment : span.isComment = true) :
    IsTidy (stripMarkers (span.textIn source) (span.kind == .blockComment)).toList := by
  cases hkind : span.kind with
  | text => simp [Span.isComment, hkind] at hcomment
  | lineComment => exact isTidy_line (break_notMem_lineComment hspan hkind).1
  | blockComment => exact isTidy_block _

end Transcode.Trivia

/-! ### Remarks -/

namespace Transcode.Target

open Text Output Engine Script

variable {source : String} {start : Nat} {limit? : Option Nat} {span : Trivia.Span}
  {line : List Char}

/-- The body of a comment of the source. -/
def bodyOf (source : String) (span : Trivia.Span) : String :=
  Trivia.stripMarkers (span.textIn source) (span.kind == .blockComment)

/-- The remark of a line is comments only if the line is. -/
theorem splitOn_remarkOf (line : List Char) :
    (∀ part ∈ (remarkOf line).toList.splitOn '\r', part.head? = some '#') ↔ StaysRemark line := by
  obtain ⟨first, later, hsplit⟩ := List.exists_cons_of_ne_nil (List.splitOn_ne_nil '\r' line)
  have hremark : ∃ first', (remarkOf line).toList.splitOn '\r' = ('#' :: first') :: later := by
    rw [remarkOf]
    split
    · rename_i hempty
      rw [List.isEmpty_iff.mp hempty] at hsplit
      cases hsplit
      exact ⟨[], by decide⟩
    · have hchars : ("# " ++ String.ofList line).toList = '#' :: ' ' :: line := by simp
      rw [hchars]
      simp [List.splitOn_cons_eq_if_modifyHead, hsplit]
  obtain ⟨first', hremark⟩ := hremark
  rw [hremark, StaysRemark, hsplit]
  simp

/-- The remarks of a comment end in no blanks. -/
theorem remarks_tidy (h : Trivia.IsTidy (bodyOf source span).toList) :
    ∀ line ∈ remarksOf source span,
      '\n' ∉ line.toList ∧ Trivia.endsInBlank line.toList = false := by
  intro line hline
  refine ⟨(isRemark_of_mem source span line hline).oneLine, ?_⟩
  rw [remarksOf] at hline
  split at hline
  · rw [List.mem_singleton.mp hline]
    decide
  · obtain ⟨before, hbefore, rfl⟩ := List.mem_map.mp hline
    rw [remarkOf]
    split
    · decide
    · rename_i hne
      have hchars : ("# " ++ String.ofList before).toList = '#' :: ' ' :: before := by simp
      obtain ⟨c, rest, rfl⟩ : ∃ c rest, before = c :: rest :=
        List.exists_cons_of_ne_nil fun hnil => hne (List.isEmpty_iff.mpr hnil)
      rw [hchars, Trivia.endsInBlank, List.getLast?_cons_cons, List.getLast?_cons_cons]
      exact (h.lines hbefore).2

/-- A comment is rendered as its remarks, line by line. -/
theorem render_comment (h : Trivia.IsTidy (bodyOf source span).toList) :
    render (comment source span) = asLines 0 (remarksOf source span) := by
  have hbuffer := (remarks_writeLead (isRemark_of_mem source span) {}).buffer
  rw [comment_eq, Tree.ofFragments, nonempty_lines]
  show stripped (Sink.writeLead {} _).buffer = _
  rw [hbuffer]
  show stripped ("" ++ asLines 0 (remarksOf source span)) = _
  rw [String.empty_append]
  refine stripped_asLines fun line hline => ?_
  obtain ⟨hfeed, hlast⟩ := remarks_tidy h line hline
  refine ⟨hfeed, fun c hc => ⟨?_, ?_⟩⟩
  · exact Trivia.ne_of_endsInBlank hlast (by decide) c hc
  · exact Trivia.ne_of_endsInBlank hlast (by decide) c hc

/-- So it is for all of them together. -/
theorem splitOn_remarksOf (source : String) (span : Trivia.Span) :
    (∀ part ∈ (remarksOf source span).flatMap (·.toList.splitOn '\r'), part.head? = some '#')
      ↔ ∀ line ∈ lines (bodyOf source span).toList, StaysRemark line := by
  have hparts : (∀ part ∈ (remarksOf source span).flatMap (·.toList.splitOn '\r'),
        part.head? = some '#')
      ↔ ∀ line ∈ remarksOf source span, ∀ part ∈ line.toList.splitOn '\r',
        part.head? = some '#' := by
    simp only [List.mem_flatMap, forall_exists_index, and_imp]
    exact ⟨fun h line hline part => h part line hline, fun h part line hline => h line hline part⟩
  rw [hparts]
  by_cases hempty : bodyOf source span = ""
  · have hremarks : remarksOf source span = ["#"] := if_pos (String.isEmpty_iff.mpr hempty)
    rw [hremarks, hempty, List.forall_mem_singleton]
    exact iff_of_true (by decide) (List.forall_mem_nil _)
  · have hremarks : remarksOf source span = (lines (bodyOf source span).toList).map remarkOf :=
      if_neg fun h => hempty (String.isEmpty_iff.mp h)
    simp only [hremarks, List.forall_mem_map, splitOn_remarkOf]

/-- A line comment stays a remark, as no carriage return is left in it. -/
theorem staysRemark_lineComment (hspan : span ∈ Trivia.scan source start limit?)
    (hkind : span.kind = .lineComment) :
    ∀ line ∈ lines (bodyOf source span).toList, StaysRemark line := by
  obtain ⟨hfeed, hreturn⟩ := Trivia.break_notMem_lineComment hspan hkind
  have hbody : (bodyOf source span).toList
      = Trivia.lineCommentBody (span.textIn source).toList := by
    rw [bodyOf, hkind]
    exact Trivia.toList_stripMarkers_line _
  have hnone : ∀ {c}, c ∉ (span.textIn source).toList →
      c ∉ Trivia.lineCommentBody (span.textIn source).toList := fun hnone hmem =>
    hnone (Trivia.mem_of_mem_lineCommentBody hmem)
  -- The body is one line, if there is anything in it.
  have hpieces := List.splitOn_eq_singleton (hnone hfeed)
  rw [hbody]
  intro line hline part hpart
  rcases mem_lines hline with hline | hline
  · rw [Text.pieces, hpieces, List.mem_singleton] at hline
    rw [hline, List.splitOn_eq_singleton (hnone hreturn)] at hpart
    cases hpart
  · rw [Text.pieces, hpieces] at hline
    cases hline

/-- **Remarks lead lines.**  A comment is rendered as whole lines.  All of them begin with `#` if
    and only if behind each carriage return that is left in the body a comment of Python begins;
    and so it is for line comments. -/
theorem remarks_lead_lines (hspan : span ∈ Trivia.scan source start limit?)
    (hcomment : span.isComment = true) :
    (render (comment source span)).toList.getLast? = some '\n'
      ∧ ((∀ line ∈ physicalLines (render (comment source span)).toList, line.head? = some '#')
        ↔ ∀ line ∈ lines (bodyOf source span).toList, StaysRemark line)
      ∧ (span.kind = .lineComment →
        ∀ line ∈ lines (bodyOf source span).toList, StaysRemark line) := by
  have htidy : Trivia.IsTidy (bodyOf source span).toList := Trivia.isTidy_comment hspan hcomment
  have hremarks : ∀ line ∈ remarksOf source span,
      '\n' ∉ line.toList ∧ line.toList.getLast? ≠ some '\r' := by
    intro line hline
    obtain ⟨hfeed, hlast⟩ := remarks_tidy htidy line hline
    exact ⟨hfeed, fun hreturn => Trivia.ne_of_endsInBlank hlast (by decide) '\r' hreturn rfl⟩
  rw [render_comment htidy, physicalLines_asLines hremarks]
  exact ⟨getLast?_asLines (remarksOf_ne_nil source span), splitOn_remarksOf source span,
    staysRemark_lineComment hspan⟩

/-- What stands behind a carriage return in a comment becomes code. -/
theorem comment_leaks :
    ¬ ∀ (source : String) (root : Ast), parse source = .ok root → ∀ n ∈ root.preorder,
      ∀ span ∈ Trivia.scan source n.fullStart none, span.isComment = true →
        (∀ line ∈ physicalLines (render (comment source span)).toList, line.head? = some '#')
          ∧ (render (comment source span)).toList.getLast? = some '\n' := by
  have hrun : ((parse "/* a\rb */ x;").toOption.bind fun root =>
      (Trivia.firstComment? (Trivia.scan "/* a\rb */ x;" root.fullStart none)).map fun span =>
        (render (comment "/* a\rb */ x;" span)).toList)
      = some "# a\rb\n".toList := by
    decide +kernel
  obtain ⟨root, hroot, hrun⟩ := Option.bind_eq_some_iff.mp hrun
  obtain ⟨span, hspan, hrun⟩ := Option.map_eq_some_iff.mp hrun
  intro hclaim
  have hlines := (hclaim _ root (eq_ok_of_toOption hroot) root root.self_mem_preorder span
    (List.mem_of_find?_eq_some hspan) (List.find?_some hspan)).1
  rw [hrun] at hlines
  exact absurd hlines (by decide)

end Transcode.Target
