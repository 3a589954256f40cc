import Mathlib.Data.List.Infix
import Transcode.Proofs.Returns

namespace Transcode.Trivia

open Text

/-!
# Block comments around lines

Lines become a block comment when the markers are put on lines of their own around them and a gutter
before each of them (`asBlockComment`).  Taking the markers away gives the lines back, also those
that are empty, that begin with blanks, or that look like a marker
(`stripMarkers_asBlockComment`).

Every line goes through the same steps, although only the first and the last of them have a marker.
With its gutter a line is safe from these steps (`blockLineBody_gutter`): it begins with a blank,
and so it does not open the comment, it does not close it either, and of what looks like a gutter
only the first one is dropped.
-/

/-- Lines as a block comment, with the markers on lines of their own and a gutter before each
    line. -/
def asBlockComment (ending : String) (body : List String) : String :=
  ending.intercalate (["/*"] ++ body.map (" * " ++ ·) ++ [" */"])

/-- A line ends in a blank. -/
def endsInBlank (line : List Char) : Bool :=
  line.getLast?.any isBlank

/-- A line that can stand in a block comment as it is: it has no line break in it, does not close
    the comment, and does not end in a blank. -/
structure IsBodyLine (line : List Char) : Prop where
  noFeed : '\n' ∉ line
  noReturn : '\r' ∉ line
  noClosing : ¬ ['*', '/'] <:+: line
  noGap : endsInBlank line = false

instance (line : List Char) : Decidable (IsBodyLine line) :=
  decidable_of_iff ('\n' ∉ line ∧ '\r' ∉ line ∧ ¬ ['*', '/'] <:+: line
      ∧ endsInBlank line = false)
    ⟨fun ⟨h₁, h₂, h₃, h₄⟩ => ⟨h₁, h₂, h₃, h₄⟩, fun ⟨h₁, h₂, h₃, h₄⟩ => ⟨h₁, h₂, h₃, h₄⟩⟩

section

variable {line ending : List Char} {body : List (List Char)}

/-! ### One line -/

/-- Nothing is trimmed from a line that does not end in a blank. -/
theorem trimEnd_eq_self (h : endsInBlank line = false) : trimEnd line = line := by
  unfold endsInBlank at h
  unfold trimEnd dropEndWhile
  rw [← List.head?_reverse] at h
  cases hreverse : line.reverse with
  | nil => simpa using hreverse
  | cons c rest =>
    rw [hreverse] at h
    have hc : ¬ isBlank c = true := by simpa using h
    rw [List.dropWhile_cons_of_neg hc, ← hreverse, List.reverse_reverse]

theorem dropClosing_eq_self (h : ¬ ['*', '/'] <:+ line) : dropClosing line = line := by
  unfold dropClosing
  split
  · rename_i rest hreverse
    refine absurd ⟨rest.reverse, ?_⟩ h
    rw [← List.reverse_reverse line, hreverse]
    simp
  · rfl

/-- A gutter does not help a line to close the comment. -/
theorem not_closes_gutter (h : ¬ ['*', '/'] <:+: line) :
    ¬ ['*', '/'] <:+ ' ' :: '*' :: ' ' :: line := by
  intro hsuffix
  simp only [List.suffix_cons_iff] at hsuffix
  -- A closing marker can begin nowhere in the gutter.
  rcases hsuffix with hspace | hstar | hspace | hsuffix
  · simp at hspace
  · simp at hstar
  · simp at hspace
  · exact h hsuffix.isInfix

/-- A line with a gutter comes out as it was. -/
theorem blockLineBody_gutter (h : IsBodyLine line) :
    blockLineBody (' ' :: '*' :: ' ' :: line) = line := by
  by_cases hempty : line = []
  · subst hempty
    decide
  · have hend : endsInBlank (' ' :: '*' :: ' ' :: line) = false := by
      obtain ⟨first, rest, rfl⟩ := List.exists_cons_of_ne_nil hempty
      unfold endsInBlank
      simp only [List.getLast?_cons_cons]
      exact h.noGap
    unfold blockLineBody
    rw [trimEnd_eq_self hend, dropClosing_eq_self (not_closes_gutter h.noClosing)]
    show trimEnd (dropGutter (' ' :: '*' :: ' ' :: line)) = line
    exact trimEnd_eq_self h.noGap

/-! ### All lines -/

/-- Lines that are joined by either line break are found again. -/
theorem lines_intercalate (hending : ending = ['\n'] ∨ ending = ['\r', '\n'])
    (h : ∀ line ∈ body, '\n' ∉ line ∧ '\r' ∉ line) (hlast : ∀ line ∈ body.getLast?, line ≠ []) :
    lines (ending.intercalate body) = body := by
  have hfirst : ∀ {line : List Char}, '\n' ∉ line ∧ '\r' ∉ line → ∀ rest : List Char,
      lines (line ++ ending ++ rest) = line :: lines rest := by
    intro line hline rest
    rcases hending with rfl | rfl
    · rw [List.append_assoc, List.singleton_append, lines_append hline.1,
        dropReturn_of_notMem hline.2]
    · have hreturn : '\n' ∉ line ++ ['\r'] := by simp [hline.1]
      have hsplit : line ++ ['\r', '\n'] ++ rest = line ++ ['\r'] ++ '\n' :: rest := by simp
      rw [hsplit, lines_append hreturn, dropReturn_concat]
  induction body with
  | nil => simp [lines, pieces]
  | cons line body ih =>
    obtain ⟨hline, hbody⟩ := List.forall_mem_cons.mp h
    cases body with
    | nil =>
      rw [List.intercalate_singleton]
      exact lines_of_notMem hline.1 (hlast line rfl)
    | cons next body =>
      rw [List.intercalate_cons_cons, hfirst hline, ih hbody]
      simpa using hlast

/-- The empty lines around others are dropped, and those in between are not. -/
theorem dropOuterEmpty_around (hfirst : ∀ line ∈ body.head?, line ≠ [])
    (hlast : ∀ line ∈ body.getLast?, line ≠ []) : dropOuterEmpty ([] :: body ++ [[]]) = body := by
  have hfront : ∀ {rest : List (List Char)}, (∀ line ∈ rest.head?, line ≠ []) →
      rest.dropWhile List.isEmpty = rest := by
    intro rest hrest
    cases rest with
    | nil => rfl
    | cons line rest => exact List.dropWhile_cons_of_neg (by simpa using hrest line rfl)
  unfold dropOuterEmpty
  cases body with
  | nil => rfl
  | cons line body =>
    have hdrop : ([] :: (line :: body) ++ [[]]).dropWhile List.isEmpty = line :: body ++ [[]] := by
      show (line :: body ++ [[]]).dropWhile List.isEmpty = line :: body ++ [[]]
      exact hfront hfirst
    rw [hdrop, List.reverse_append]
    show (((line :: body).reverse).dropWhile List.isEmpty).reverse = line :: body
    rw [hfront (by rwa [List.head?_reverse]), List.reverse_reverse]

end

/-- A block comment that is made of lines has these lines, with the gutter, between the markers. -/
theorem lines_asBlockComment {ending : String} (hending : ending = "\n" ∨ ending = "\r\n")
    {body : List String} (h : ∀ line ∈ body, IsBodyLine line.toList) :
    lines (asBlockComment ending body).toList
      = ['/', '*'] :: (body.map String.toList).map ([' ', '*', ' '] ++ ·) ++ [[' ', '*', '/']] := by
  have hchars : (asBlockComment ending body).toList = ending.toList.intercalate
      (['/', '*'] :: (body.map String.toList).map ([' ', '*', ' '] ++ ·) ++ [[' ', '*', '/']]) := by
    simp only [asBlockComment, String.toList_intercalate, List.map_append, List.map_map,
      Function.comp_def, String.toList_append]
    rfl
  rw [hchars]
  refine lines_intercalate ?_ ?_ ?_
  · rcases hending with rfl | rfl
    · exact .inl rfl
    · exact .inr rfl
  · intro line hline
    simp only [List.cons_append, List.mem_cons, List.mem_append, List.mem_map,
      List.not_mem_nil, or_false] at hline
    rcases hline with rfl | ⟨_, ⟨line, hline, rfl⟩, rfl⟩ | rfl
    · decide
    · have hline := h line hline
      simp [hline.noFeed, hline.noReturn]
    · decide
  · intro line hline
    rw [List.getLast?_concat] at hline
    cases hline
    exact List.cons_ne_nil _ _

/-- Line by line, the markers and the gutters go. -/
theorem map_blockLineBody {body : List (List Char)} (h : ∀ line ∈ body, IsBodyLine line) :
    (['/', '*'] :: body.map ([' ', '*', ' '] ++ ·) ++ [[' ', '*', '/']]).map blockLineBody
      = [] :: body ++ [[]] := by
  have hbody : (body.map ([' ', '*', ' '] ++ ·)).map blockLineBody = body := by
    rw [List.map_map]
    exact (List.map_congr_left fun line hline => blockLineBody_gutter (h line hline)).trans
      (List.map_id _)
  have hopening : blockLineBody ['/', '*'] = [] := by decide
  have hclosing : blockLineBody [' ', '*', '/'] = [] := by decide
  rw [List.map_append, List.map_cons, hbody, List.map_singleton, hopening, hclosing]

/-- **Lines of a comment.**  Lines that are made a block comment, with line feeds or with carriage
    returns and line feeds, are what is left when the markers are taken away: the first and the last
    of them are not empty, and none of them has a line break, closes the comment, or ends in a
    blank. -/
theorem stripMarkers_asBlockComment {ending : String} (hending : ending = "\n" ∨ ending = "\r\n")
    {body : List String} (hfirst : ∀ line ∈ body.head?, line ≠ "")
    (hlast : ∀ line ∈ body.getLast?, line ≠ "") (h : ∀ line ∈ body, IsBodyLine line.toList) :
    stripMarkers (asBlockComment ending body) true = "\n".intercalate body := by
  have hbody : ∀ line ∈ body.map String.toList, IsBodyLine line := List.forall_mem_map.mpr h
  have hfirst : ∀ line ∈ (body.map String.toList).head?, line ≠ [] := by
    simpa [List.head?_map] using hfirst
  have hlast : ∀ line ∈ (body.map String.toList).getLast?, line ≠ [] := by
    simpa [List.getLast?_map] using hlast
  rw [stripMarkers, if_pos rfl, blockCommentLines, lines_asBlockComment hending h,
    map_blockLineBody hbody, dropOuterEmpty_around hfirst hlast, ← String.toList_inj,
    String.toList_ofList, String.toList_intercalate]
  rfl

/-- A line that begins with a star, an empty one, one that is indented, and one that looks like the
    marker that opens a comment. -/
theorem stripMarkers_asBlockComment_markers :
    (∀ line ∈ ["* a", "", "  b", "/* c"], IsBodyLine line.toList)
      ∧ stripMarkers (asBlockComment "\r\n" ["* a", "", "  b", "/* c"]) true
        = "* a\n\n  b\n/* c" := by
  have h : ∀ line ∈ ["* a", "", "  b", "/* c"], IsBodyLine line.toList := by decide +kernel
  refine ⟨h, (stripMarkers_asBlockComment (.inr rfl) (by decide) (by decide) h).trans ?_⟩
  decide +kernel

end Transcode.Trivia
