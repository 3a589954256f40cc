import Transcode.Proofs.CommentLines
import Transcode.Proofs.Returns

/-!
# Blanks at the ends of lines

When the text of a sink is finished, spaces and tabs at the ends of its lines are dropped.  A line,
there, is what stands between two line feeds (`endsInGap_of_mem_pieces`).  Those who read the code
line by line take a carriage return before a line feed as a part of the break.  For most texts that
is the same; but a blank before such a carriage return is not at the end of anything when lines are
stripped, and it is when they are read (`gap_before_return`).  This is the only way in which a line
of the code can end in a blank (`returns_after_gaps`).
-/

namespace Transcode

open Text Output Script

namespace Text

/-- A line ends in a space or a tab. -/
def endsInGap (line : List Char) : Bool :=
  line.getLast?.any fun c => c == ' ' || c == '\t'

variable {cs line : List Char}

theorem getLast?_dropEndWhile (p : Char → Bool) (cs : List Char) :
    (dropEndWhile p cs).getLast?.any p = false := by
  rw [dropEndWhile, List.getLast?_reverse]
  cases hrest : cs.reverse.dropWhile p with
  | nil => rfl
  | cons c rest =>
    have hne : cs.reverse.dropWhile p ≠ [] := hrest ▸ List.cons_ne_nil c rest
    have hhead := List.head_dropWhile_not p hne
    simp only [hrest, List.head_cons] at hhead
    exact hhead

theorem mem_of_mem_dropEndWhile {p : Char → Bool} {c : Char} (h : c ∈ dropEndWhile p cs) :
    c ∈ cs := by
  rw [dropEndWhile, List.mem_reverse] at h
  exact List.mem_reverse.mp (List.dropWhile_subset _ h)

/-- Stripping the ends of the lines strips the pieces between line feeds, each for itself. -/
theorem pieces_stripLineEnds (cs : List Char) :
    pieces (Sink.stripLineEnds cs)
      = (pieces cs).map (dropEndWhile fun c => c == ' ' || c == '\t') := by
  refine List.splitOn_intercalate '\n' (List.forall_mem_map.mpr fun part hpart hmem => ?_) ?_
  · exact break_notMem_of_mem_pieces hpart (mem_of_mem_dropEndWhile hmem)
  · rw [Ne, List.map_eq_nil_iff]
    exact List.splitOn_ne_nil '\n' cs

/-- A line is a piece between line feeds, or it has lost the carriage return at the end of one. -/
theorem mem_lines (h : line ∈ lines cs) :
    line ∈ pieces cs ∨ line ++ ['\r'] ∈ (pieces cs).dropLast := by
  have hterminated : line ∈ (pieces cs).dropLast.map dropReturn →
      line ∈ pieces cs ∨ line ++ ['\r'] ∈ (pieces cs).dropLast := by
    intro hmem
    obtain ⟨part, hpart, rfl⟩ := List.mem_map.mp hmem
    rw [dropReturn]
    split
    · rename_i hlast
      obtain ⟨before, rfl⟩ := List.getLast?_eq_some_iff.mp hlast
      exact .inr (by rwa [List.dropLast_concat])
    · exact .inl (List.dropLast_subset _ hpart)
  rw [lines] at h
  split at h
  · rename_i hlast
    rcases List.mem_append.mp h with h | h
    · exact hterminated h
    · rw [List.mem_singleton.mp h]
      exact .inl (List.mem_of_getLast? hlast)
  · exact hterminated h

end Text

namespace Output

/-- Between line feeds, nothing in a finished text ends in a blank. -/
theorem endsInGap_of_mem_pieces (s : Sink) {part : List Char}
    (h : part ∈ pieces s.finish.toList) : endsInGap part = false := by
  rw [Sink.finish, String.toList_ofList, pieces_stripLineEnds] at h
  obtain ⟨before, -, rfl⟩ := List.mem_map.mp h
  exact getLast?_dropEndWhile _ before

/-- A line of a finished text that ends in a blank was followed by a carriage return. -/
theorem return_of_endsInGap (s : Sink) {line : List Char} (hline : line ∈ lines s.finish.toList)
    (hgap : endsInGap line = true) : line ++ ['\r'] ∈ (pieces s.finish.toList).dropLast := by
  refine (mem_lines hline).resolve_left fun hpart => ?_
  rw [endsInGap_of_mem_pieces s hpart] at hgap
  cases hgap

end Output

namespace Target

/-- Lines of the code end in blanks only where a carriage return and a line feed come next.  So no
    line does if no blank stands before a carriage return. -/
theorem returns_after_gaps {source : String} {settings : Settings} {conversion : Conversion}
    (h : toPython source settings = .ok conversion) {line : List Char}
    (hline : line ∈ lines conversion.code.toList) (hgap : endsInGap line = true) :
    line ++ ['\r'] ∈ (pieces conversion.code.toList).dropLast := by
  rw [toPython] at h
  obtain ⟨root, -, h⟩ := Parser.bind_eq_ok.mp h
  obtain ⟨outcome, -, h⟩ := Parser.bind_eq_ok.mp h
  cases h
  exact return_of_endsInGap _ hline hgap

/-- The blank before the line break of a loop stays, because a carriage return stands behind it. -/
theorem gap_before_return :
    ¬ ∀ (source : String) (settings : Settings) (conversion : Conversion),
      toPython source settings = .ok conversion →
      ∀ line ∈ lines conversion.code.toList, endsInGap line = false := by
  have hrun : (toPython "while (a) \x7b \r\n\x7d").toOption.map Conversion.code
      = some "while (a) \x7b \r\n\x7d" := by decide +kernel
  obtain ⟨conversion, hconversion, hcode⟩ := Option.map_eq_some_iff.mp hrun
  intro hclaim
  have hlines := hclaim _ _ conversion (eq_ok_of_toOption hconversion)
  rw [hcode] at hlines
  exact absurd hlines (by decide +kernel)

end Target

end Transcode
