import Transcode.Proofs.CommentOrder

namespace Transcode.Target

open Output Engine Script

/-!
# Blank lines

Two mechanisms keep the blank lines of a source.  Those between two statements come out with the
separator, and those after a comment in leading trivia as blank lines with a key of their own.
The second mechanism is exact about what it keeps: each of its blank lines stands for one stretch
of whitespace with a line break in it, after a comment, and is written once
(`blank_lines_kept`).  But the two overlap.  A comment on the line where the statement before it
ends is passed over by the separator, which then counts the line breaks after the comment as
well (`blank_line_doubled`).
-/

/-! ### Runs of blank lines after comments -/

section

variable {source : String} {root n : Ast} {start : Nat}

/-- A stretch of whitespace with a line break after a comment in the leading trivia of a node. -/
def KeepsBlank (source : String) (n : Ast) (start : Nat) : Prop :=
  ∃ front span back, Trivia.scan source n.fullStart none = front ++ span :: back
    ∧ (∃ comment ∈ front, comment.isComment = true)
    ∧ span.kind = .text ∧ span.start = start ∧ 0 < Text.countBreaks (span.textIn source)

/-- A blank line among some pieces stands for whitespace with a line break, after a comment. -/
theorem exists_of_blank_mem {seen owes : Bool} {spans : List Trivia.Span}
    (h : .blank start ∈ piecesOf source seen owes spans) :
    ∃ front span back, spans = front ++ span :: back
      ∧ (seen = true ∨ ∃ comment ∈ front, comment.isComment = true)
      ∧ span.kind = .text ∧ span.start = start ∧ 0 < Text.countBreaks (span.textIn source) := by
  induction spans generalizing seen owes with
  | nil => cases h
  | cons first rest ih =>
    -- What is found further on is found after the first span too.
    have hlater : ∀ {seen' owes' : Bool},
        (seen' = true → seen = true ∨ first.isComment = true) →
        .blank start ∈ piecesOf source seen' owes' rest →
        ∃ front span back, first :: rest = front ++ span :: back
          ∧ (seen = true ∨ ∃ comment ∈ front, comment.isComment = true)
          ∧ span.kind = .text ∧ span.start = start ∧ 0 < Text.countBreaks (span.textIn source) := by
      intro seen' owes' hseen hmem
      obtain ⟨front, span, back, rfl, hcomment, hspan⟩ := ih hmem
      refine ⟨first :: front, span, back, rfl, ?_, hspan⟩
      rcases hcomment with hcomment | ⟨s, hs, hcomment⟩
      · exact (hseen hcomment).imp_right fun h => ⟨first, List.mem_cons_self, h⟩
      · exact .inr ⟨s, List.mem_cons_of_mem _ hs, hcomment⟩
    rw [piecesOf] at h
    split at h
    · rename_i hkind
      split at h
      · rename_i hseen
        simp only at h
        split at h
        · rename_i hkept
          rcases List.mem_cons.mp h with heq | h
          · injection heq with hstart
            exact ⟨[], first, rest, rfl, .inl hseen, hkind, hstart.symm, by omega⟩
          · exact hlater (fun _ => .inl hseen) h
        · exact hlater (fun _ => .inl hseen) h
      · exact hlater (fun hseen => absurd hseen Bool.false_ne_true) h
    · rename_i hkind
      have hcomment : first.isComment = true := bne_iff_ne.mpr hkind
      rcases List.mem_cons.mp h with heq | h
      · cases heq
      · exact hlater (fun _ => .inr hcomment) h

/-- **Kept blank lines.**  What is written once when the output of a source is rendered, besides
    comments, are blank lines, one for each of some stretches of whitespace with a line break after
    a comment. -/
theorem blank_lines_kept (h : parse source = .ok root) (settings : Settings) :
    ∃ outcome, convertTree source settings root = .ok outcome
      ∧ (Sink.writeTreeWith {} outcome.tree settings.strategy).fired.Nodup
      ∧ ∀ key ∈ (Sink.writeTreeWith {} outcome.tree settings.strategy).fired,
        isCommentKey key = false →
          ∃ start, key = "ws-" ++ toString start
            ∧ ∃ n ∈ root.preorder, KeepsBlank source n start := by
  obtain ⟨outcome, houtcome, hfits⟩ := exists_fits h settings
  have hfired := fired_writeTreeWith settings.strategy hfits.isFlat
  refine ⟨outcome, houtcome, hfired ▸ List.nodup_dedup _, fun key hkey hnot => ?_⟩
  obtain ⟨pieces, hkeyed, hpieces, -⟩ := hfits
  rw [hfired, List.mem_dedup, List.mem_reverse, hkeyed, keysOf_map_tree] at hkey
  obtain ⟨p, hp, rfl⟩ := List.mem_map.mp hkey
  obtain ⟨n, hn, hmem⟩ := hpieces p hp
  cases p with
  | comment span =>
    rw [Piece.key, isCommentKey_commentKey] at hnot
    cases hnot
  | blank start =>
    obtain ⟨front, span, back, hspans, hcomment, hspan⟩ := exists_of_blank_mem hmem
    exact ⟨start, rfl, n, hn, front, span, back, hspans, hcomment.resolve_left Bool.false_ne_true,
      hspan⟩

end

/-! ### Counting blank lines -/

/-- How many lines of a text have nothing in them. -/
def emptyLines (text : String) : Nat :=
  ((Text.lines text.toList).filter List.isEmpty).length

/-- Some lines of a text, each with the offset at which it begins, if the first of them begins at
    `o`. -/
def linesFrom (o : Nat) : List (List Char) → List (Nat × List Char)
  | [] => []
  | line :: rest => (o, line) :: linesFrom (o + Text.byteLength line + 1) rest

/-- Whether a line that begins at `o` is whitespace outside of comments. -/
def isBlankLine (all : List Lexeme) (o : Nat) (line : List Char) : Bool :=
  line.all Text.isBlank
    && all.all fun l => !(l.token.isComment && l.start ≤ o && o + Text.byteLength line ≤ l.stop)

/-- How many lines of a source are whitespace outside of comments, given its tokens.  Line feeds are
    taken to be the only line breaks. -/
def blankLines (source : String) (all : List Lexeme) : Nat :=
  ((linesFrom 0 (Text.lines source.toList)).filter fun (o, line) => isBlankLine all o line).length

-- The blank line inside of a comment does not count.
example : emptyLines "a\n\n# c" = 1
    ∧ (tokens "a;\n \n/*\n\n*/").map (blankLines "a;\n \n/*\n\n*/") = .ok 1 := by
  decide +kernel

/-- One blank line after a comment on the line of a statement comes out as two. -/
theorem blank_line_doubled :
    ¬ ∀ (source : String) (root : Ast) (all : List Lexeme) (conversion : Conversion),
      parse source = .ok root → tokens source = .ok all →
      (∀ n ∈ root.preorder, n.kind ≠ .whileStatement) → '\r' ∉ source.toList →
      toPython source = .ok conversion →
      (∀ d ∈ conversion.diagnostics, ∀ n : Ast, d ≠ Backend.refusal { source } n) →
      emptyLines conversion.code ≤ blankLines source all := by
  have hrun : ((parse "a; // c\n\nb;").toOption.bind fun root =>
      (tokens "a; // c\n\nb;").toOption.bind fun all =>
      (toPython "a; // c\n\nb;").toOption.map fun conversion =>
        (decide (∀ n ∈ root.preorder, n.kind ≠ .whileStatement), conversion.diagnostics,
          conversion.code, blankLines "a; // c\n\nb;" all))
      = some (true, [], "a\n\n# c\n\nb", 1) := by
    decide +kernel
  obtain ⟨root, hroot, hrun⟩ := Option.bind_eq_some_iff.mp hrun
  obtain ⟨all, hall, hrun⟩ := Option.bind_eq_some_iff.mp hrun
  obtain ⟨conversion, hconversion, hrun⟩ := Option.map_eq_some_iff.mp hrun
  simp only [Prod.mk.injEq, decide_eq_true_eq] at hrun
  obtain ⟨hwhile, hdiagnostics, hcode, hblank⟩ := hrun
  intro hclaim
  have hle := hclaim _ root all conversion (eq_ok_of_toOption hroot) (eq_ok_of_toOption hall) hwhile
    (by decide +kernel) (eq_ok_of_toOption hconversion)
    (by rw [hdiagnostics]; exact List.forall_mem_nil _)
  rw [hcode, hblank] at hle
  exact absurd hle (by decide +kernel)

end Transcode.Target
