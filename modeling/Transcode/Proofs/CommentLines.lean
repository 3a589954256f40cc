import Transcode.Proofs.CommentOrder
import Transcode.Proofs.Visits
import Transcode.Proofs.Writing

/-!
# Comments end lines

A comment in Python goes up to the end of its line, and so all that is written for the comments
before a node are whole lines (`comments_end_lines`).  Where a line was begun before, it ends with
the first of them, and what comes after them begins a new one.  That does no harm before a
statement, because the line is still empty there (`codeLines_withLeading`), but some nodes that
stand inside of statements ask for comments too (`return_broken`).
-/

/-! ### Lines of code -/

namespace Transcode.Text

/-- Whether there is more in a line than blanks and a comment of Python. -/
def isCode (line : List Char) : Bool :=
  (trimStart line).head?.any (· != '#')

/-- The lines of a text that are code. -/
def codeLines (text : String) : List (List Char) :=
  (pieces text.toList).filter isCode

/-- The lines of a text that show something. -/
def inkLines (text : String) : List (List Char) :=
  (pieces text.toList).filter fun line => line.any (!isBlank ·)

/-- So many spaces. -/
def spaces (k : Nat) : String :=
  String.ofList (List.replicate k ' ')

/-- Whole lines, with so many spaces after each line break. -/
def asLines (k : Nat) (lines : List String) : String :=
  String.join (lines.map fun line => line ++ "\n" ++ spaces k)

/-- The text is one line, and that is no code. -/
structure IsRemark (line : String) : Prop where
  oneLine : '\n' ∉ line.toList
  isCode : isCode line.toList = false

/-- A line was begun with so many spaces and no more. -/
def IsBegun (k : Nat) (text : String) : Prop :=
  text = spaces k ∨ ∃ before, text = before ++ "\n" ++ spaces k

variable {line before after : String} {lines : List String} {k : Nat}

/-- Lines are written one by one, -/
theorem asLines_cons : asLines k (line :: lines) = line ++ "\n" ++ spaces k ++ asLines k lines :=
  String.join_cons

/-- part by part. -/
theorem asLines_append {more : List String} :
    asLines k (lines ++ more) = asLines k lines ++ asLines k more := by
  rw [asLines, List.map_append, String.join_append]
  rfl

/-- Between two line breaks there is none, -/
theorem break_notMem_of_mem_pieces {cs line : List Char} (h : line ∈ pieces cs) : '\n' ∉ line := by
  induction cs generalizing line with
  | nil => simp_all [pieces]
  | cons c cs ih =>
    rw [pieces, List.splitOn_cons_eq_if_modifyHead] at h
    split at h
    · rcases List.mem_cons.mp h with rfl | h
      · exact List.not_mem_nil
      · exact ih h
    · rename_i hc
      obtain ⟨first, rest, hsplit⟩ := List.exists_cons_of_ne_nil (List.splitOn_ne_nil '\n' cs)
      rw [hsplit, List.modifyHead_cons] at h
      rw [pieces, hsplit] at ih
      rcases List.mem_cons.mp h with rfl | h
      · have hne : '\n' ≠ c := fun heq => hc (beq_iff_eq.mpr heq.symm)
        exact List.not_mem_cons_of_ne_of_not_mem hne (ih List.mem_cons_self)
      · exact ih (List.mem_cons_of_mem _ h)

/-- and so there is none in a line. -/
theorem break_notMem_of_mem_lines {cs line : List Char} (h : line ∈ Text.lines cs) :
    '\n' ∉ line := by
  have hparts : ∀ part ∈ pieces cs, '\n' ∉ part := fun _ => break_notMem_of_mem_pieces
  have hdropReturn : ∀ part ∈ pieces cs, '\n' ∉ dropReturn part := by
    intro part hpart
    rw [dropReturn]
    split
    · exact fun hmem => hparts part hpart (List.dropLast_subset _ hmem)
    · exact hparts part hpart
  have hterminated : ∀ line ∈ (pieces cs).dropLast.map dropReturn, '\n' ∉ line :=
    List.forall_mem_map.mpr fun part hpart => hdropReturn part (List.dropLast_subset _ hpart)
  rw [Text.lines] at h
  split at h
  · rename_i hlast
    rcases List.mem_append.mp h with h | h
    · exact hterminated line h
    · rw [List.mem_singleton.mp h]
      exact hparts _ (List.mem_of_getLast? hlast)
  · exact hterminated line h

/-- The code of two texts with a line break between them is that of one and of the other. -/
theorem codeLines_append_break :
    codeLines (before ++ "\n" ++ after) = codeLines before ++ codeLines after := by
  have hchars : (before ++ "\n" ++ after).toList = before.toList ++ '\n' :: after.toList := by
    simp
  rw [codeLines, hchars, pieces, List.splitOn_append_cons_self, List.filter_append]
  rfl

/-- A line that is no code is none either after spaces. -/
theorem IsRemark.codeLines (h : IsRemark line) : codeLines (spaces k ++ line) = [] := by
  have hchars : (spaces k ++ line).toList = List.replicate k ' ' ++ line.toList := by
    simp [spaces]
  have hbreak : '\n' ∉ (spaces k ++ line).toList := by
    rw [hchars, List.mem_append, List.mem_replicate]
    simp [h.oneLine]
  -- Trimming takes one space after the other.
  have hcode : ∀ k, Text.isCode (List.replicate k ' ' ++ line.toList) = false := by
    intro k
    induction k with
    | zero => exact h.isCode
    | succ k ih => exact ih
  rw [Text.codeLines, pieces, List.splitOn_eq_singleton hbreak, hchars, List.filter_singleton,
    hcode]
  rfl

/-- Lines that are no code make no difference at the beginning of a line. -/
theorem codeLines_spaces_append (hlines : ∀ line ∈ lines, IsRemark line) :
    codeLines (spaces k ++ asLines k lines ++ after) = codeLines (spaces k ++ after) := by
  induction lines with
  | nil => rw [asLines, List.map_nil, String.join_nil, String.append_empty]
  | cons line lines ih =>
    obtain ⟨hline, hlines⟩ := List.forall_mem_cons.mp hlines
    have htext : spaces k ++ asLines k (line :: lines) ++ after
        = spaces k ++ line ++ "\n" ++ (spaces k ++ asLines k lines ++ after) := by
      rw [asLines_cons]
      simp only [String.append_assoc]
    rw [htext, codeLines_append_break, hline.codeLines, ih hlines, List.nil_append]

/-- So the line may have been begun with the spaces. -/
theorem codeLines_of_begun (hbegun : IsBegun k before) (hlines : ∀ line ∈ lines, IsRemark line) :
    codeLines (before ++ asLines k lines ++ after) = codeLines (before ++ after) := by
  rcases hbegun with rfl | ⟨front, rfl⟩
  · exact codeLines_spaces_append hlines
  · have htext : ∀ text, front ++ "\n" ++ spaces k ++ text = front ++ "\n" ++ (spaces k ++ text) :=
      fun _ => String.append_assoc
    rw [htext, String.append_assoc, htext, codeLines_append_break, codeLines_append_break,
      codeLines_spaces_append hlines]

/-- They end a line that was begun before, and what comes after them begins another. -/
theorem codeLines_append_asLines (hlines : ∀ line ∈ lines, IsRemark line) :
    codeLines (before ++ asLines k (line :: lines) ++ after)
      = codeLines (before ++ line) ++ codeLines (spaces k ++ after) := by
  have htext : before ++ asLines k (line :: lines) ++ after
      = before ++ line ++ "\n" ++ (spaces k ++ asLines k lines ++ after) := by
    rw [asLines_cons]
    simp only [String.append_assoc]
  rw [htext, codeLines_append_break, codeLines_spaces_append hlines]

end Transcode.Text

/-! ### Writing lines -/

namespace Transcode.Output

open Text

/-- How many spaces follow the next line break. -/
def Sink.nextIndentation (s : Sink) : Nat :=
  s.applyPending.indentation

/-- Writing takes a sink to another by whole lines that are no code. -/
structure Sink.Remarks (s : Sink) (lines : List String) (s' : Sink) : Prop where
  remark : ∀ line ∈ lines, IsRemark line
  buffer : s'.buffer = s.buffer ++ asLines s.nextIndentation lines
  nextIndentation : s'.nextIndentation = s.nextIndentation

variable {s s' s'' : Sink} {line : String} {lines more : List String}

/-- No lines are written by doing nothing. -/
theorem Sink.Remarks.refl (s : Sink) : s.Remarks [] s :=
  ⟨nofun, String.append_empty.symm, rfl⟩

/-- Lines are written after others. -/
theorem Sink.Remarks.trans (h : s.Remarks lines s') (h' : s'.Remarks more s'') :
    s.Remarks (lines ++ more) s'' := by
  refine ⟨List.forall_mem_append.mpr ⟨h.remark, h'.remark⟩, ?_,
    h'.nextIndentation.trans h.nextIndentation⟩
  rw [h'.buffer, h.buffer, h.nextIndentation, asLines_append, String.append_assoc]

/-- A line is written with its indentation after the break. -/
theorem remarks_write (h : IsRemark line) : s.Remarks [line] (s.write (line ++ "\n")) := by
  have hbreak : (line ++ "\n").toList.contains '\n' = true := by simp
  have hindent : String.ofList (Sink.indentBreaks s.nextIndentation (line ++ "\n").toList)
      = asLines s.nextIndentation [line] := by
    rw [String.toList_append, Sink.indentBreaks_append, Sink.indentBreaks_eq_self h.oneLine]
    simp [asLines, Sink.indentBreaks, spaces, String.append_assoc]
  refine ⟨List.forall_mem_singleton.mpr h, ?_, ?_⟩
  · rw [← hindent, ← buffer_applyPending s, Sink.write, hbreak, if_pos rfl]
    rfl
  · have hpending : (s.write (line ++ "\n")).pending = 0 := by
      rw [Sink.write, hbreak, if_pos rfl]
      exact pending_applyPending s
    rw [Sink.nextIndentation, Sink.applyPending, if_pos hpending, Sink.write, hbreak, if_pos rfl]
    rfl

/-- Which keys have fired does not matter for the lines. -/
theorem Sink.Remarks.of_fired {keys : List String}
    (h : Sink.Remarks { s with fired := keys } lines s') : s.Remarks lines s' := by
  have hnext : Sink.nextIndentation { s with fired := keys } = s.nextIndentation := by
    rw [Sink.nextIndentation, Sink.nextIndentation, Sink.applyPending, Sink.applyPending]
    split <;> rfl
  exact ⟨h.remark, hnext ▸ h.buffer, hnext ▸ h.nextIndentation⟩

/-- Lines that are written one after the other. -/
theorem remarks_writeLead (hlines : ∀ line ∈ lines, IsRemark line) (s : Sink) :
    s.Remarks lines (s.writeLead (lines.map fun line => .text (line ++ "\n"))) := by
  induction lines generalizing s with
  | nil => exact .refl s
  | cons line lines ih =>
    obtain ⟨hline, hlines⟩ := List.forall_mem_cons.mp hlines
    exact (remarks_write hline).trans (ih hlines _)

end Transcode.Output

/-! ### Comments before a node -/

namespace Transcode.Target

open Text Output Engine Script

section

variable {source : String} {p : Piece} {s : Sink} {t : Tree}

/-- A line of a comment without its break. -/
def remarkOf (line : List Char) : String :=
  if line.isEmpty then "#" else "# " ++ String.ofList line

/-- The lines of a comment. -/
def remarksOf (source : String) (span : Trivia.Span) : List String :=
  let body := Trivia.stripMarkers (span.textIn source) (span.kind == .blockComment)
  if body.isEmpty then ["#"] else (Text.lines body.toList).map remarkOf

/-- A remark on one line is no code. -/
theorem isRemark_remarkOf {line : List Char} (h : '\n' ∉ line) : IsRemark (remarkOf line) := by
  rw [remarkOf]
  split
  · exact ⟨by decide, by decide⟩
  · have hchars : ("# " ++ String.ofList line).toList = '#' :: ' ' :: line := by simp
    refine ⟨?_, ?_⟩
    · rw [hchars]
      simp [h]
    · rw [hchars]
      rfl

/-- So none of the lines is that a comment becomes. -/
theorem isRemark_of_mem (source : String) (span : Trivia.Span) :
    ∀ line ∈ remarksOf source span, IsRemark line := by
  rw [remarksOf]
  split
  · exact List.forall_mem_singleton.mpr ⟨by decide, by decide⟩
  · exact List.forall_mem_map.mpr fun line hline =>
      isRemark_remarkOf (break_notMem_of_mem_lines hline)

/-- A comment becomes at least one line. -/
theorem remarksOf_ne_nil (source : String) (span : Trivia.Span) : remarksOf source span ≠ [] := by
  rw [remarksOf]
  split
  · exact List.cons_ne_nil _ _
  · rename_i hbody
    rw [Ne, List.map_eq_nil_iff]
    exact lines_ne_nil fun hnil => hbody (by simpa using hnil)

/-- The output of a comment is its lines. -/
theorem comment_eq (source : String) (span : Trivia.Span) :
    comment source span
      = .ofFragments ((remarksOf source span).map fun line => .text (line ++ "\n")) := by
  have hline : ∀ line, commentLine line = remarkOf line ++ "\n" := by
    intro line
    rw [commentLine, remarkOf]
    split <;> rfl
  rw [comment, remarksOf]
  split
  · rfl
  · rw [List.map_map]
    simp only [hline]
    rfl

/-- No line is dropped, as even an empty one has its break. -/
theorem nonempty_lines (lines : List String) :
    nonempty (lines.map fun line => .text (line ++ "\n"))
      = lines.map fun line => Fragment.text (line ++ "\n") := by
  refine nonempty_eq_self (List.forall_mem_map.mpr fun line _ => ?_)
  simp [Fragment.isEmpty]

/-- A piece that was not written before is written as lines, and then it counts as written. -/
theorem exists_remarks_piece (source : String) (hkey : p.key ∉ s.fired) :
    ∃ lines, lines ≠ []
      ∧ s.Remarks lines (s.writeFragment (p.tree (comment source)).toFragment) := by
  obtain ⟨lines, hne, hlines, htree⟩ : ∃ lines : List String, lines ≠ []
      ∧ (∀ line ∈ lines, IsRemark line) ∧ p.tree (comment source)
        = (Tree.ofFragments (lines.map fun line => .text (line ++ "\n"))).withKey p.key := by
    cases p with
    | comment span =>
      refine ⟨_, remarksOf_ne_nil source span, isRemark_of_mem source span, ?_⟩
      rw [← comment_eq]
      rfl
    | blank start =>
      exact ⟨[""], List.cons_ne_nil _ _, List.forall_mem_singleton.mpr ⟨by decide, by decide⟩, rfl⟩
  refine ⟨lines, hne, ?_⟩
  rw [htree, writeFragment_withKey hkey, nonempty_lines]
  exact (remarks_writeLead hlines _).of_fired

/-- A piece that was written before is passed over. -/
theorem writeFragment_piece (hkey : p.key ∈ s.fired) :
    s.writeFragment (p.tree (comment source)).toFragment = s := by
  cases p with
  | comment span | blank start => exact writeFragment_of_fired hkey

/-- Pieces are written as lines, at least one for each that is new. -/
theorem exists_remarks_pieces (source : String) (pieces : List Piece) (s : Sink) :
    ∃ lines, s.Remarks lines
        (s.writeLead (pieces.map fun p => (p.tree (comment source)).toFragment))
      ∧ ((∃ p ∈ pieces, p.key ∉ s.fired) → lines ≠ []) := by
  induction pieces generalizing s with
  | nil => exact ⟨[], .refl s, fun ⟨_, hp, _⟩ => absurd hp List.not_mem_nil⟩
  | cons p pieces ih =>
    by_cases hkey : p.key ∈ s.fired
    · -- It leaves the sink as it is, so which of the others are new does not change.
      obtain ⟨lines, hlines, hnew⟩ := ih s
      refine ⟨lines, ?_, fun ⟨q, hq, hnew'⟩ => hnew ⟨q, ?_, hnew'⟩⟩
      · rw [List.map_cons, Sink.writeLead, writeFragment_piece hkey]
        exact hlines
      · exact (List.mem_cons.mp hq).resolve_left fun heq => hnew' (heq ▸ hkey)
    · obtain ⟨first, hne, hfirst⟩ := exists_remarks_piece source hkey
      obtain ⟨lines, hlines, -⟩ := ih (s.writeFragment (p.tree (comment source)).toFragment)
      exact ⟨first ++ lines, hfirst.trans hlines, fun _ h => hne (List.append_eq_nil_iff.mp h).1⟩

/-- **Comments end lines.**  Whatever was written before, the comments before a node are written as
    whole lines that are no code, at least one if any of them is new, and then the output of the
    node. -/
theorem comments_end_lines (source : String) (n : Ast) (s : Sink) (ht : t.isEmpty = false) :
    ∃ (lines : List String) (s' : Sink), s.Remarks lines s'
      ∧ s.writeTree (withLeading source (comment source) n t) = s'.writeTree t
      ∧ ((∃ p ∈ leadingOf source n, p.key ∉ s.fired) → lines ≠ []) := by
  obtain ⟨lines, hlines, hnew⟩ := exists_remarks_pieces source (leadingOf source n) s
  refine ⟨lines, _, hlines, ?_, hnew⟩
  rw [withLeading]
  generalize leadingOf source n = pieces
  -- Neither the comments nor the output are left out as empty.
  have hkept : nonempty (pieces.map (fun p => (p.tree (comment source)).toFragment)
      ++ [t.toFragment]) = pieces.map (fun p => (p.tree (comment source)).toFragment)
      ++ [t.toFragment] := by
    refine nonempty_eq_self (List.forall_mem_append.mpr ⟨?_, ?_⟩)
    · exact List.forall_mem_map.mpr fun p _ => isEmpty_piece (isEmpty_comment source) p
    · exact List.forall_mem_singleton.mpr ht
  cases pieces with
  | nil => rfl
  | cons p pieces =>
    show s.writeTree (.ofFragments
      ((p :: pieces).map (fun p => (p.tree (comment source)).toFragment) ++ [t.toFragment])) = _
    rw [Tree.ofFragments, hkept]
    exact writeLead_append _ _ s

/-- **Lines of code and comments.**  At the beginning of a line the comments before a node make no
    difference to the lines that are code.  Where a line was begun already, the first comment that
    is new ends it, and the output of the node stands on a line of its own. -/
theorem codeLines_withLeading (source : String) (n : Ast) (s : Sink) (ht : t.isEmpty = false) :
    ∃ (lines : List String) (s' : Sink) (after : String),
      s.Remarks lines s' ∧ (s'.writeTree t).buffer = s'.buffer ++ after
      ∧ (IsBegun s.nextIndentation s.buffer →
        codeLines (s.writeTree (withLeading source (comment source) n t)).buffer
          = codeLines (s.buffer ++ after))
      ∧ ((∃ p ∈ leadingOf source n, p.key ∉ s.fired) → ∃ line ∈ lines,
        codeLines (s.writeTree (withLeading source (comment source) n t)).buffer
          = codeLines (s.buffer ++ line) ++ codeLines (spaces s.nextIndentation ++ after)) := by
  obtain ⟨lines, s', hlines, hwrite, hnew⟩ := comments_end_lines source n s ht
  obtain ⟨after, hafter⟩ := respects_grows.writeFragment s' t.toFragment
  refine ⟨lines, s', after, hlines, hafter, fun hbegun => ?_, fun hfresh => ?_⟩
  · rw [hwrite, Sink.writeTree, hafter, hlines.buffer]
    exact codeLines_of_begun hbegun hlines.remark
  · obtain ⟨line, rest, rfl⟩ := List.exists_cons_of_ne_nil (hnew hfresh)
    refine ⟨line, List.mem_cons_self, ?_⟩
    rw [hwrite, Sink.writeTree, hafter, hlines.buffer]
    exact codeLines_append_asLines (List.forall_mem_cons.mp hlines.remark).2

end

/-! ### Comments inside of statements -/

/-- A source with a space in place of each comment, given its tokens from an offset on. -/
def withoutComments (source : String) (offset : Nat) : List Lexeme → String
  | [] => Text.slice source offset source.utf8ByteSize
  | l :: rest => Text.slice source offset l.start ++ (if l.token.isComment then " " else l.text)
      ++ withoutComments source l.stop rest

example : (tokens "a/*b*/+c; //d").map (withoutComments "a/*b*/+c; //d" 0) = .ok "a +c;  " := by
  decide +kernel

/-- Whether a comment stands inside of parentheses or brackets, given all tokens, or inside of an
    object. -/
def isEnclosed (root : Ast) (all : List Lexeme) (l : Lexeme) : Bool :=
  let before := (all.filter (·.start < l.start)).map (·.token)
  decide (before.countP ([.rightParen, .rightBracket].contains ·)
      < before.countP ([.leftParen, .leftBracket].contains ·))
    || root.preorder.any fun n => n.kind = .objectLiteral && n.start < l.start && l.start < n.stop

/-- A comment inside of a `return` ends its line before the value. -/
theorem return_broken :
    ¬ ∀ (source : String) (root : Ast) (all : List Lexeme) (conversion conversion' : Conversion),
      parse source = .ok root → tokens source = .ok all →
      (∀ n ∈ root.preorder, n.kind ≠ .whileStatement) → backend.NestsWithin { source } root →
      (∀ l ∈ all, l.token.isComment = true → isEnclosed root all l = false) →
      toPython source = .ok conversion →
      toPython (withoutComments source 0 all) = .ok conversion' →
      codeLines conversion.code = inkLines conversion'.code := by
  have hrun : ((parse "function f() \x7b return /* c */ 5; \x7d").toOption.bind fun root =>
      (tokens "function f() \x7b return /* c */ 5; \x7d").toOption.bind fun all =>
      (toPython "function f() \x7b return /* c */ 5; \x7d").toOption.bind fun conversion =>
      (toPython (withoutComments "function f() \x7b return /* c */ 5; \x7d" 0 all)).toOption.map
        fun conversion' =>
        (decide ((∀ n ∈ root.preorder, n.kind ≠ .whileStatement)
            ∧ backend.NestsWithin { source := "function f() \x7b return /* c */ 5; \x7d" } root
            ∧ ∀ l ∈ all, l.token.isComment = true → isEnclosed root all l = false),
          conversion.code, conversion'.code))
      = some (true, "def f():\n    return # c\n    5", "def f():\n    return 5") := by
    decide +kernel
  obtain ⟨root, hroot, hrun⟩ := Option.bind_eq_some_iff.mp hrun
  obtain ⟨all, hall, hrun⟩ := Option.bind_eq_some_iff.mp hrun
  obtain ⟨conversion, hconversion, hrun⟩ := Option.bind_eq_some_iff.mp hrun
  obtain ⟨conversion', hconversion', hrun⟩ := Option.map_eq_some_iff.mp hrun
  simp only [Prod.mk.injEq, decide_eq_true_eq] at hrun
  obtain ⟨⟨hwhile, hnests, houter⟩, hcode, hcode'⟩ := hrun
  intro hclaim
  have hsame := hclaim _ root all conversion conversion' (eq_ok_of_toOption hroot)
    (eq_ok_of_toOption hall) hwhile hnests houter (eq_ok_of_toOption hconversion)
    (eq_ok_of_toOption hconversion')
  rw [hcode, hcode'] at hsame
  exact absurd hsame (by decide +kernel)

end Transcode.Target
