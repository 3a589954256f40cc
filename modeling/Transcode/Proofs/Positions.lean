import Mathlib.Data.List.Induction
import Transcode.Proofs.Returns
import Transcode.Text.Position

namespace Transcode.Text

open Trivia

/-!
# Offsets as lines and columns

The line table of a text lists the beginning of the text and every offset just after a line feed, in
order (`starts_eq`).  Those up to an offset come first, and they are where the lines of the bytes
before it begin (`starts_append`).  So the search by halving finds that their number is one more
than the number of the line feeds there (`partitionPoint_starts`), and the last of them is where the
line begins (`isLineStart_lineStart`).  The further an offset, the later is its position, and the
position leads back to the offset (`positions_of_offsets`).

Lines and columns are 64-bit words.  Inside of a text there is no overflow, because no text in
memory is that long (`FitsMemory`).  Diagnostics may have offsets past the end of the text.  There
the column overflows at one place only, which is the greatest offset in a text without line feeds
(`positions_of_words`, `column_overflows`).
-/

/-! ### Positions -/

/-- A position comes before another one: on an earlier line, or earlier on the same line. -/
def Position.Before (p q : Position) : Prop :=
  p.line < q.line ∨ p.line = q.line ∧ p.column < q.column

instance (p q : Position) : Decidable (p.Before q) :=
  inferInstanceAs (Decidable (_ ∨ _))

/-- No position comes before itself. -/
theorem Position.not_before_self (p : Position) : ¬ p.Before p := by
  unfold Before
  omega

/-- The line of an offset begins at `start`: at the beginning of the text or just after a line feed,
    with no line feed from there to the offset. -/
structure IsLineStart (bs : List UInt8) (offset start : Nat) : Prop where
  le : start ≤ offset
  begins : start = 0 ∨ ∃ p, start = p + 1 ∧ bs[p]? = some lineFeed
  last : ∀ i, start ≤ i → i < offset → bs[i]? ≠ some lineFeed

/-- A 64-bit word can hold the column of the end of a text, even if it is all on one line.  Texts in
    memory are much shorter than that. -/
def FitsMemory (s : String) : Prop :=
  s.utf8ByteSize + 1 < UInt64.size

instance (s : String) : Decidable (FitsMemory s) :=
  inferInstanceAs (Decidable (_ < _))

/-! ### The search by halving -/

/-- If the items at the front of a list satisfy `p` and those behind do not, then the search finds
    how many there are at the front. -/
theorem partitionPoint_append {α : Type} {p : α → Bool} {front back : List α}
    (hfront : ∀ i ∈ front, p i = true) (hback : ∀ i ∈ back, p i = false) :
    partitionPoint p (front ++ back) = front.length := by
  induction hsize : (front ++ back).length using Nat.strong_induction_on
    generalizing front back with
  | _ size ih =>
  subst hsize
  rw [partitionPoint]
  have hhalf := Nat.div_mul_le_self (front ++ back).length 2
  revert hhalf
  generalize (front ++ back).length / 2 = middle
  intro hhalf
  rw [List.length_append] at hhalf
  split
  · rename_i hnone
    rw [List.drop_eq_nil_iff, List.length_append] at hnone
    omega
  · rename_i item behind hdrop
    have hlength := congrArg List.length hdrop
    rw [List.length_drop, List.length_append, List.length_cons] at hlength
    rcases Nat.lt_or_ge middle front.length with hlt | hge
    · -- The middle is at the front, and the search goes on behind it.
      rw [List.drop_append_of_le_length (Nat.le_of_lt hlt), List.drop_eq_getElem_cons hlt,
        List.cons_append, List.cons.injEq] at hdrop
      obtain ⟨rfl, rfl⟩ := hdrop
      have hshorter : (front.drop (middle + 1) ++ back).length < (front ++ back).length := by
        rw [List.length_append, List.length_append, List.length_drop]
        omega
      rw [if_pos (hfront _ (List.getElem_mem hlt)),
        ih _ hshorter (fun i hi => hfront i (List.mem_of_mem_drop hi)) hback rfl, List.length_drop]
      omega
    · -- The middle is at the back, and the search goes on before it.
      rw [List.drop_append, List.drop_eq_nil_of_le hge, List.nil_append] at hdrop
      have hitem : p item = false :=
        hback item (List.mem_of_mem_drop (hdrop ▸ List.mem_cons_self))
      have hshorter : (front ++ back.take (middle - front.length)).length
          < (front ++ back).length := by
        rw [List.length_append, List.length_append, List.length_take]
        omega
      rw [if_neg (Bool.eq_false_iff.mp hitem), List.take_append, List.take_of_length_le hge,
        ih _ hshorter hfront (fun i hi => hback i (List.mem_of_mem_take hi)) rfl]

/-! ### The offsets after line feeds -/

/-- The offsets just after the line feeds of some bytes, the first of which stands at `offset`. -/
def feedEnds (offset : Nat) : List UInt8 → List Nat
  | [] => []
  | b :: bs =>
    if b = lineFeed then (offset + 1) :: feedEnds (offset + 1) bs else feedEnds (offset + 1) bs

section

variable {bs more : List UInt8} {o i : Nat}

/-- Lines are found part by part. -/
theorem feedEnds_append (bs more : List UInt8) (o : Nat) :
    feedEnds o (bs ++ more) = feedEnds o bs ++ feedEnds (o + bs.length) more := by
  induction bs generalizing o with
  | nil => simp [feedEnds]
  | cons b bs ih =>
    have hlength : o + 1 + bs.length = o + (b :: bs).length := by
      simp only [List.length_cons]
      omega
    simp only [List.cons_append, feedEnds, ih, hlength]
    split <;> simp

/-- Without a line feed no line begins. -/
theorem feedEnds_of_notMem (h : lineFeed ∉ bs) (o : Nat) : feedEnds o bs = [] := by
  induction bs generalizing o with
  | nil => rfl
  | cons b bs ih =>
    have hb : b ≠ lineFeed := (List.ne_of_not_mem_cons h).symm
    rw [feedEnds, if_neg hb, ih (List.not_mem_of_not_mem_cons h)]

/-- A line begins behind a line feed, and so within the bytes or at their end. -/
theorem bounds_of_mem_feedEnds (h : i ∈ feedEnds o bs) : o < i ∧ i ≤ o + bs.length := by
  induction bs generalizing o with
  | nil => cases h
  | cons b bs ih =>
    have hlater : i ∈ feedEnds (o + 1) bs → o < i ∧ i ≤ o + (b :: bs).length := by
      intro hi
      have hbounds := ih hi
      simp only [List.length_cons]
      omega
    unfold feedEnds at h
    split at h
    · rcases List.mem_cons.mp h with hfirst | h
      · simp only [List.length_cons]
        omega
      · exact hlater h
    · exact hlater h

/-- There are as many as there are line feeds. -/
theorem length_feedEnds (bs : List UInt8) (o : Nat) :
    (feedEnds o bs).length = bs.count lineFeed := by
  induction bs generalizing o with
  | nil => rfl
  | cons b bs ih =>
    unfold feedEnds
    split
    · rename_i hb
      simp [hb, ih]
    · rename_i hb
      simp [List.count_cons_of_ne hb, ih]

/-- The last of them is where the line begins on which the bytes end. -/
theorem isLineStart_getLastD (bs : List UInt8) :
    IsLineStart bs bs.length ((feedEnds 0 bs).getLastD 0) := by
  -- From the back: the last byte is what decides.
  induction bs using List.reverseRecOn with
  | nil =>
    refine ⟨Nat.le_refl 0, .inl rfl, ?_⟩
    intro i _ hi
    simp at hi
  | append_singleton bs b ih =>
    by_cases hb : b = lineFeed
    · have hlast : (feedEnds 0 (bs ++ [b])).getLastD 0 = bs.length + 1 := by
        simp [feedEnds_append, feedEnds, hb]
      rw [hlast]
      refine ⟨by simp, .inr ⟨bs.length, rfl, by simp [hb]⟩, ?_⟩
      intro i hle hlt
      simp only [List.length_append, List.length_singleton] at hlt
      omega
    · have hsame : feedEnds 0 (bs ++ [b]) = feedEnds 0 bs := by
        simp [feedEnds_append, feedEnds, hb]
      rw [hsame]
      refine ⟨?_, ?_, ?_⟩
      · have hle := ih.le
        simp only [List.length_append, List.length_singleton]
        omega
      · refine ih.begins.imp_right ?_
        rintro ⟨p, hp, hfeed⟩
        obtain ⟨hlt, -⟩ := List.getElem?_eq_some_iff.mp hfeed
        exact ⟨p, hp, by rw [List.getElem?_append_left hlt, hfeed]⟩
      · intro i hle hlt
        simp only [List.length_append, List.length_singleton] at hlt
        by_cases hi : i < bs.length
        · rw [List.getElem?_append_left hi]
          exact ih.last i hle hi
        · obtain rfl : i = bs.length := by omega
          simpa using hb

end

/-! ### The line table -/

section

variable {s : String} {o o' : Nat}

/-- The characters of a text that are line feeds are its bytes that are. -/
theorem afterBreaks_eq (cs : List Char) (o : Nat) : afterBreaks o cs = feedEnds o (encode cs) := by
  induction cs generalizing o with
  | nil => rfl
  | cons c cs ih =>
    rw [encode_cons, feedEnds_append, String.length_utf8EncodeChar]
    unfold afterBreaks
    by_cases hc : c = '\n'
    · subst hc
      rw [if_pos rfl, ih]
      rfl
    · rw [if_neg hc, ih, feedEnds_of_notMem (lineFeed_notMem hc), List.nil_append]

/-- Lines begin at the beginning of the text and just after each line feed. -/
theorem starts_eq (s : String) : (LineTable.ofText s).starts = 0 :: feedEnds 0 (bytes s) :=
  congrArg (0 :: ·) (afterBreaks_eq s.toList 0)

/-- The table is that of the bytes before an offset, and then that of the bytes after it. -/
theorem starts_append (s : String) (o : Nat) :
    (LineTable.ofText s).starts = (0 :: feedEnds 0 ((bytes s).take o))
      ++ feedEnds ((bytes s).take o).length ((bytes s).drop o) := by
  rw [starts_eq, List.cons_append, ← Nat.zero_add ((bytes s).take o).length, ← feedEnds_append,
    List.take_append_drop]

/-- A line feed before an offset ends before it or at it, -/
theorem le_of_mem_take (s : String) (o : Nat) :
    ∀ i ∈ 0 :: feedEnds 0 ((bytes s).take o), decide (i ≤ o) = true := by
  intro i hi
  have hlength : ((bytes s).take o).length ≤ o := List.length_take_le o (bytes s)
  rw [decide_eq_true_iff]
  rcases List.mem_cons.mp hi with hi | hi
  · omega
  · have hbounds := bounds_of_mem_feedEnds hi
    omega

/-- and a later one ends behind it. -/
theorem lt_of_mem_drop (s : String) (o : Nat) :
    ∀ i ∈ feedEnds ((bytes s).take o).length ((bytes s).drop o), decide (i ≤ o) = false := by
  intro i hi
  have hbounds := bounds_of_mem_feedEnds hi
  rw [List.length_take, List.length_drop] at hbounds
  rw [decide_eq_false_iff_not]
  omega

/-- The search finds as many lines that begin up to an offset as there are line feeds before it, and
    the first line. -/
theorem partitionPoint_starts (s : String) (o : Nat) :
    partitionPoint (· ≤ o) (LineTable.ofText s).starts
      = ((bytes s).take o).count lineFeed + 1 := by
  rw [starts_append s o, partitionPoint_append (le_of_mem_take s o) (lt_of_mem_drop s o),
    List.length_cons, length_feedEnds]

/-- Where the line of an offset begins. -/
def lineStart (s : String) (o : Nat) : Nat :=
  (feedEnds 0 ((bytes s).take o)).getLastD 0

/-- The line of an offset starts where it should. -/
theorem isLineStart_lineStart (s : String) (o : Nat) :
    IsLineStart (bytes s) o (lineStart s o) := by
  have hstart := isLineStart_getLastD ((bytes s).take o)
  have hlength : ((bytes s).take o).length ≤ o := List.length_take_le o (bytes s)
  refine ⟨Nat.le_trans hstart.le hlength, hstart.begins.imp_right ?_, ?_⟩
  · rintro ⟨p, hp, hfeed⟩
    obtain ⟨hlt, -⟩ := List.getElem?_eq_some_iff.mp hfeed
    rw [List.getElem?_take_of_lt (by omega)] at hfeed
    exact ⟨p, hp, hfeed⟩
  · intro i hle hlt hfeed
    obtain ⟨hsize, -⟩ := List.getElem?_eq_some_iff.mp hfeed
    refine hstart.last i hle (by rw [List.length_take]; omega) ?_
    rw [List.getElem?_take_of_lt hlt, hfeed]

/-- The table has the beginning of the line under its number. -/
theorem getElem?_starts (s : String) (o : Nat) :
    (LineTable.ofText s).starts[((bytes s).take o).count lineFeed]? = some (lineStart s o) := by
  rw [starts_append s o, ← length_feedEnds _ 0, List.getElem?_append_left (by simp), lineStart]
  rcases List.eq_nil_or_concat (feedEnds 0 ((bytes s).take o)) with hnil | ⟨front, last, hlast⟩
  · rw [hnil]
    rfl
  · rw [hlast]
    simp

/-- The line is one more than the line feeds before the offset, and the column one more than the
    distance from where the line begins, if both are words. -/
theorem position_eq (s : String) (o : Nat) :
    (LineTable.ofText s).position o = (do
      return ⟨← addWords (((bytes s).take o).count lineFeed) 1,
        ← addWords (o - lineStart s o) 1⟩) := by
  rw [LineTable.position, partitionPoint_starts, Nat.add_sub_cancel, getElem?_starts]
  rfl

/-- Either there are more line feeds before a later offset, or its line begins at the same place. -/
theorem count_lt_or_lineStart_eq (s : String) (h : o ≤ o') :
    ((bytes s).take o).count lineFeed < ((bytes s).take o').count lineFeed
      ∨ ((bytes s).take o).count lineFeed = ((bytes s).take o').count lineFeed
        ∧ lineStart s o = lineStart s o' := by
  have hsplit := List.take_append_drop o ((bytes s).take o')
  rw [List.take_take, Nat.min_eq_left h] at hsplit
  by_cases hmem : lineFeed ∈ ((bytes s).take o').drop o
  · left
    have hpos := List.count_pos_iff.mpr hmem
    rw [← hsplit, List.count_append]
    omega
  · right
    rw [lineStart, lineStart, ← hsplit, feedEnds_append, feedEnds_of_notMem hmem, List.append_nil,
      List.count_append, List.count_eq_zero_of_not_mem hmem]
    exact ⟨rfl, rfl⟩

end

/-! ### Offsets inside of a text -/

/-- Both offsets have a position, and the one comes before the other. -/
def LineTable.Precedes (table : LineTable) (o o' : Nat) : Prop :=
  ∃ p p', table.position o = .ok p ∧ table.position o' = .ok p' ∧ p.Before p'

section

variable {s : String}

/-- There are no more lines than a 64-bit word can count. -/
theorem line_lt (hs : FitsMemory s) (o : Nat) :
    ((bytes s).take o).count lineFeed + 1 < UInt64.size := by
  have hcount := List.count_le_length (a := lineFeed) (l := (bytes s).take o)
  rw [List.length_take, length_bytes] at hcount
  unfold FitsMemory at hs
  omega

/-- An offset whose column is a word has a position. -/
theorem position_of_column_lt (hs : FitsMemory s) {o : Nat}
    (hcolumn : o - lineStart s o + 1 < UInt64.size) :
    (LineTable.ofText s).position o
      = .ok ⟨1 + ((bytes s).take o).count lineFeed, o - lineStart s o + 1⟩ := by
  rw [position_eq, addWords, if_pos (line_lt hs o), addWords, if_pos hcolumn, Nat.add_comm 1]
  rfl

/-- Inside of a text, columns are words. -/
theorem column_lt_of_le (hs : FitsMemory s) {o : Nat} (ho : o ≤ s.utf8ByteSize) :
    o - lineStart s o + 1 < UInt64.size := by
  unfold FitsMemory at hs
  omega

/-- Where columns are words, a later offset has a later position. -/
theorem precedes_of_column_lt (hs : FitsMemory s) {o o' : Nat} (hlt : o < o')
    (hcolumn : o - lineStart s o + 1 < UInt64.size)
    (hcolumn' : o' - lineStart s o' + 1 < UInt64.size) :
    (LineTable.ofText s).Precedes o o' := by
  have hle := (isLineStart_lineStart s o).le
  refine ⟨_, _, position_of_column_lt hs hcolumn, position_of_column_lt hs hcolumn', ?_⟩
  unfold Position.Before
  simp only
  rcases count_lt_or_lineStart_eq s (Nat.le_of_lt hlt) with hcount | ⟨hcount, hstart⟩
  · omega
  · -- On the same line, the columns are as far apart as the offsets.
    rw [hcount, ← hstart]
    omega

/-- Offsets of which one precedes the other have different positions. -/
theorem LineTable.Precedes.position_ne {table : LineTable} {o o' : Nat}
    (h : table.Precedes o o') : table.position o ≠ table.position o' := by
  obtain ⟨p, p', hp, hp', hbefore⟩ := h
  intro hsame
  obtain rfl : p = p' := Except.ok.inj (hp.symm.trans (hsame.trans hp'))
  exact Position.not_before_self p hbefore

/-- **Positions of offsets.**  An offset up to the end of a text lies on the line whose number is
    one more than the number of line feeds before it, and its column is one more than its distance
    from the place just after the last of them; neither overflows.  That place is what the table has
    for the line, so that the offset can be found again.  Positions follow each other as the offsets
    do, and no two offsets have the same one. -/
theorem positions_of_offsets (s : String) (hs : FitsMemory s) :
    let table := LineTable.ofText s
    (∀ o ≤ s.utf8ByteSize, ∃ start p, IsLineStart (bytes s) o start
      ∧ table.position o = .ok p
      ∧ p = ⟨1 + ((bytes s).take o).count lineFeed, o - start + 1⟩
      ∧ table.starts[p.line - 1]? = some start
      ∧ start + p.column - 1 = o)
    ∧ (∀ o o', o < o' → o' ≤ s.utf8ByteSize → table.Precedes o o')
    ∧ ∀ o o', o ≤ s.utf8ByteSize → o' ≤ s.utf8ByteSize → table.position o = table.position o' →
      o = o' := by
  intro table
  have hbefore : ∀ o o', o < o' → o' ≤ s.utf8ByteSize → table.Precedes o o' :=
    fun o o' hlt ho' => precedes_of_column_lt hs hlt
      (column_lt_of_le hs (Nat.le_of_lt (Nat.lt_of_lt_of_le hlt ho'))) (column_lt_of_le hs ho')
  refine ⟨?_, hbefore, ?_⟩
  · intro o ho
    have hstart := isLineStart_lineStart s o
    have hle := hstart.le
    refine ⟨lineStart s o, _, hstart, position_of_column_lt hs (column_lt_of_le hs ho), rfl, ?_, ?_⟩
    · rw [Nat.add_sub_cancel_left]
      exact getElem?_starts s o
    · simp only
      omega
  · intro o o' ho ho' hsame
    rcases Nat.lt_trichotomy o o' with hlt | heq | hlt
    · exact absurd hsame (hbefore o o' hlt ho').position_ne
    · exact heq
    · exact absurd hsame.symm (hbefore o' o hlt ho).position_ne

/-- A character of two bytes, an empty line and a line feed at the end: the offsets of the first
    line feed, of the empty line, and of the end of the text. -/
theorem positions_of_offsets_empty_line :
    FitsMemory "é\n\nx\n"
      ∧ ((LineTable.ofText "é\n\nx\n").position 2).toOption = some ⟨1, 3⟩
      ∧ (∃ start, IsLineStart (bytes "é\n\nx\n") 3 start
        ∧ (LineTable.ofText "é\n\nx\n").position 3 = .ok ⟨2, 3 - start + 1⟩
        ∧ (LineTable.ofText "é\n\nx\n").starts[1]? = some start)
      ∧ (LineTable.ofText "é\n\nx\n").Precedes 2 3
      ∧ (LineTable.ofText "é\n\nx\n").Precedes 5 6 := by
  have hfits : FitsMemory "é\n\nx\n" := by decide +kernel
  have hsize : "é\n\nx\n".utf8ByteSize = 6 := by decide +kernel
  have hline : 1 + ((bytes "é\n\nx\n").take 3).count lineFeed = 2 := by decide +kernel
  obtain ⟨hplaces, hbefore, -⟩ := positions_of_offsets "é\n\nx\n" hfits
  refine ⟨hfits, by decide +kernel, ?_, hbefore 2 3 (by omega) (by omega),
    hbefore 5 6 (by omega) (by omega)⟩
  obtain ⟨start, p, hstart, hposition, hp, hfound, -⟩ := hplaces 3 (by omega)
  rw [hp, hline] at hposition hfound
  exact ⟨start, hstart, hposition, hfound⟩

/-! ### Offsets past the end of a text -/

/-- A text without line feeds is one line, whatever the offset. -/
theorem lineStart_of_notMem (h : lineFeed ∉ bytes s) (o : Nat) : lineStart s o = 0 := by
  have htake : lineFeed ∉ (bytes s).take o := fun hmem => h (List.mem_of_mem_take hmem)
  rw [lineStart, feedEnds_of_notMem htake]
  rfl

/-- Past the end of a text with a line feed, the line begins after one. -/
theorem lineStart_pos (h : lineFeed ∈ bytes s) {o : Nat} (ho : s.utf8ByteSize ≤ o) :
    0 < lineStart s o := by
  have hstart := isLineStart_lineStart s o
  obtain ⟨p, hp, hfeed⟩ := List.mem_iff_getElem.mp h
  have hsize : p < s.utf8ByteSize := by
    rwa [length_bytes] at hp
  by_contra hzero
  -- Otherwise the line feed would be on the line that begins at the beginning.
  refine hstart.last p (by omega) (by omega) ?_
  rw [List.getElem?_eq_getElem hp, hfeed]

/-- The column of an offset fits into a 64-bit word, unless the offset is the greatest one and the
    text has no line feed. -/
theorem column_lt_iff (hs : FitsMemory s) {o : Nat} (ho : o < UInt64.size) :
    o - lineStart s o + 1 < UInt64.size ↔ o + 1 < UInt64.size ∨ lineFeed ∈ bytes s := by
  constructor
  · intro hcolumn
    by_contra hneither
    rw [not_or] at hneither
    rw [lineStart_of_notMem hneither.2] at hcolumn
    omega
  · rintro (hlt | hmem)
    · omega
    · unfold FitsMemory at hs
      rcases Nat.lt_or_ge o s.utf8ByteSize with hinside | hpast
      · omega
      · have hpos := lineStart_pos hmem hpast
        omega

/-- An offset whose column is no word has no position. -/
theorem position_of_column_ge (hs : FitsMemory s) {o : Nat}
    (hcolumn : UInt64.size ≤ o - lineStart s o + 1) :
    (LineTable.ofText s).position o = .error .add := by
  rw [position_eq, addWords, if_pos (line_lt hs o), addWords, if_neg (Nat.not_lt.mpr hcolumn)]
  rfl

/-- The positions of all offsets that 64-bit words can hold, but for the greatest one in a text
    without line feeds: nothing overflows, columns are at least one, and a later offset has a later
    position.  At the greatest offset of a text without line feeds the column overflows. -/
theorem positions_of_words (hs : FitsMemory s) :
    let table := LineTable.ofText s
    (∀ o < UInt64.size, o + 1 < UInt64.size ∨ lineFeed ∈ bytes s →
      ∃ p, table.position o = .ok p ∧ 1 ≤ p.column
        ∧ p = ⟨1 + ((bytes s).take o).count lineFeed, o - lineStart s o + 1⟩)
    ∧ (∀ o o', o < o' → o' < UInt64.size → o' + 1 < UInt64.size ∨ lineFeed ∈ bytes s →
      table.Precedes o o')
    ∧ (lineFeed ∉ bytes s → table.position (UInt64.size - 1) = .error .add) := by
  intro table
  refine ⟨?_, ?_, ?_⟩
  · intro o ho hfits
    have hcolumn := (column_lt_iff hs ho).mpr hfits
    exact ⟨_, position_of_column_lt hs hcolumn, Nat.le_add_left 1 _, rfl⟩
  · intro o o' hlt ho' hfits
    apply precedes_of_column_lt hs hlt
    · exact (column_lt_iff hs (by omega)).mpr (.inl (by omega))
    · exact (column_lt_iff hs ho').mpr hfits
  · intro hnone
    apply position_of_column_ge hs
    rw [lineStart_of_notMem hnone]
    decide

/-- Not every offset has a position with a column of at least one that is later than those of the
    offsets before: the column of the greatest offset overflows in a text without line feeds. -/
theorem column_overflows :
    ¬ ∀ s : String, FitsMemory s → ∀ o < UInt64.size,
      ∃ p, (LineTable.ofText s).position o = .ok p ∧ 1 ≤ p.column
        ∧ ∀ o' < o, (LineTable.ofText s).Precedes o' o := by
  intro hclaim
  have hfits : FitsMemory "" := by decide
  obtain ⟨p, hp, -⟩ := hclaim "" hfits (UInt64.size - 1) (by decide)
  have hoverflow := (positions_of_words hfits).2.2 (by decide)
  cases hp.symm.trans hoverflow

end

end Transcode.Text
