import Mathlib.Data.List.Find
import Transcode.Proofs.BlankLines
import Transcode.Proofs.Phases
import Transcode.Proofs.Returns

namespace Transcode.Trivia

open Text Script Target

/-!
# Blank lines of a gap

Between two nodes with nothing but whitespace and comments in between, the blank lines are the lines
of whitespace after the one on which the first node ends and before the one on which something
follows, be it a comment or the second node (`blankLinesBetween_eq`).

The number is found in three scans, each of which begins where the one before it left off.  What
they look for is said here of one scan, that of the whole gap: where the line ends
(`lineEnd?`), and where the next comment begins (`commentAfter`).  The other scans are in phase
with that one, since they begin after a line break outside of comments (`Phased.findsEnd`).
-/

/-! ### Lines with their offsets -/

section

variable {c : Char} {cs : List Char} {o p q : Nat} {lines : List (List Char)}

/-- A line break begins another line. -/
theorem pieces_break : Text.pieces ('\n' :: cs) = [] :: Text.pieces cs := by
  rw [Text.pieces, List.splitOn_cons_eq_if_modifyHead]
  rfl

/-- Any other character is the first one of the first line. -/
theorem exists_pieces_cons (hc : c ≠ '\n') (cs : List Char) :
    ∃ first rest, Text.pieces cs = first :: rest
      ∧ Text.pieces (c :: cs) = (c :: first) :: rest := by
  obtain ⟨first, rest, hsplit⟩ := List.exists_cons_of_ne_nil (List.splitOn_ne_nil '\n' cs)
  refine ⟨first, rest, hsplit, ?_⟩
  rw [Text.pieces, List.splitOn_cons_eq_if_modifyHead, beq_eq_false_iff_ne.mpr hc, hsplit]
  rfl

/-- Lines do not begin before the first one. -/
theorem le_of_mem_linesFrom {line : Nat × List Char} (h : line ∈ linesFrom o lines) :
    o ≤ line.1 := by
  induction lines generalizing o with
  | nil => cases h
  | cons first rest ih =>
    rcases List.mem_cons.mp h with rfl | h
    · exact Nat.le_refl o
    · have hle := ih h
      omega

/-- A line is whitespace, and ends before an offset. -/
def endsBlank (q : Nat) (line : Nat × List Char) : Bool :=
  decide (line.1 + byteLength line.2 < q) && line.2.all isBlank

/-- Where whitespace ends at `q`, the lines that end before that are those of the whitespace. -/
theorem count_blank (hblank : cs.all isBlank = true) (hq : o + byteLength cs = q)
    (after : List Char) :
    (linesFrom o (Text.pieces (cs ++ after))).countP (endsBlank q) = cs.count '\n' := by
  induction cs generalizing o with
  | nil =>
    rw [List.count_nil, List.countP_eq_zero]
    intro line hline hends
    have hle := le_of_mem_linesFrom hline
    have hlt := of_decide_eq_true (Bool.and_eq_true_iff.mp hends).1
    rw [byteLength_nil] at hq
    omega
  | cons c cs ih =>
    obtain ⟨hc, hblank⟩ := Bool.and_eq_true_iff.mp (List.all_cons.symm.trans hblank)
    rw [byteLength_cons] at hq
    by_cases hbreak : c = '\n'
    · subst hbreak
      have hsize : Char.utf8Size '\n' = 1 := rfl
      have hfirst : endsBlank q (o, []) = true := by
        rw [endsBlank, List.all_nil, Bool.and_true, decide_eq_true_iff, byteLength_nil]
        omega
      rw [List.cons_append, pieces_break, linesFrom, List.countP_cons_of_pos hfirst,
        ih hblank (by rw [byteLength_nil]; omega), List.count_cons_self]
    · obtain ⟨first, rest, hpieces, hcons⟩ := exists_pieces_cons hbreak (cs ++ after)
      have hlater := ih hblank (o := o + c.utf8Size) (by omega)
      -- The line ends where it did, and is whitespace if it was.
      have hfirst : endsBlank q (o, c :: first) = endsBlank q (o + c.utf8Size, first) := by
        rw [endsBlank, endsBlank, List.all_cons, hc, Bool.true_and, byteLength_cons, Nat.add_assoc]
      rw [hpieces, linesFrom, List.countP_cons] at hlater
      rw [List.cons_append, hcons, linesFrom, List.countP_cons, hfirst, byteLength_cons,
        ← Nat.add_assoc o, hlater, List.count_cons_of_ne hbreak]

/-- The lines after the first one that ends at `p` are those of what comes then. -/
theorem count_after (f : Nat × List Char → Bool) (hp : o + byteLength cs = p) (after : List Char) :
    (linesFrom o (Text.pieces (cs ++ '\n' :: after))).countP
        (fun line => decide (p < line.1) && f line)
      = (linesFrom (p + 1) (Text.pieces after)).countP f := by
  -- No line that begins up to there counts.
  have hskip : ∀ {o : Nat} {line : List Char} {rest : List (Nat × List Char)}, o ≤ p →
      ((o, line) :: rest).countP (fun line => decide (p < line.1) && f line)
        = rest.countP (fun line => decide (p < line.1) && f line) := fun ho =>
    List.countP_cons_of_neg fun h =>
      Nat.not_lt.mpr ho (of_decide_eq_true (Bool.and_eq_true_iff.mp h).1)
  induction cs generalizing o with
  | nil =>
    rw [byteLength_nil, Nat.add_zero] at hp
    subst hp
    rw [List.nil_append, pieces_break, linesFrom, hskip (Nat.le_refl o), byteLength_nil,
      Nat.add_zero]
    refine List.countP_congr fun line hline => ?_
    have hlt : o < line.1 := le_of_mem_linesFrom hline
    rw [decide_eq_true hlt, Bool.true_and]
  | cons c cs ih =>
    rw [byteLength_cons] at hp
    by_cases hbreak : c = '\n'
    · subst hbreak
      have hsize : Char.utf8Size '\n' = 1 := rfl
      have ho : o ≤ p := by omega
      rw [List.cons_append, pieces_break, linesFrom, hskip ho, ih (by rw [byteLength_nil]; omega)]
    · obtain ⟨first, rest, hpieces, hcons⟩ := exists_pieces_cons hbreak (cs ++ '\n' :: after)
      have hlater := ih (o := o + c.utf8Size) (by omega)
      have ho : o ≤ p ∧ o + c.utf8Size ≤ p := by omega
      rw [hpieces, linesFrom, hskip ho.2] at hlater
      rw [List.cons_append, hcons, linesFrom, hskip ho.1, byteLength_cons, ← Nat.add_assoc o,
        hlater]

end

/-! ### Whitespace -/

section

variable {text : String}

/-- Blank text has no slash in it. -/
theorem slash_notMem_bytes (h : text.toList.all isBlank = true) : slash ∉ bytes text := by
  intro hmem
  obtain ⟨c, hc, hbyte⟩ := List.mem_flatMap.mp hmem
  obtain rfl : c = '/' := Char.toNat_inj.mp (eq_of_mem_utf8EncodeChar hbyte (by decide))
  exact absurd (List.all_eq_true.mp h _ hc) (by decide)

/-- Without slashes there are no comments. -/
theorem inText_notMem {opened pos : Nat} {bs : List UInt8} (h : slash ∉ bs) :
    inText true opened pos bs = plainText opened (pos + bs.length) := by
  induction bs generalizing pos with
  | nil => rw [inText, List.length_nil, Nat.add_zero]
  | cons b bs ih =>
    have hb : b ≠ slash := (List.ne_of_not_mem_cons h).symm
    rw [inText_cons (absurd · hb) (absurd · hb), Bool.or_true, if_pos rfl,
      ih (List.not_mem_of_not_mem_cons h), List.length_cons, Nat.add_right_comm, Nat.add_assoc]

/-- In whitespace all line breaks are outside of comments. -/
theorem countNakedBreaks_blank (h : text.toList.all isBlank = true) :
    countNakedBreaks text = countBreaks text := by
  have hscan : scan text 0 (some (bytes text).length) = plainText 0 (bytes text).length := by
    rw [scan_eq_window (Nat.le_refl _), Nat.zero_min, window, List.drop_zero, Nat.sub_zero,
      List.take_length, inText_notMem (slash_notMem_bytes h), Nat.zero_add]
  have hall : slice text 0 (bytes text).length = text := by
    have hslice := slice_append [] text.toList []
    rwa [List.append_nil, List.nil_append, String.ofList_toList, byteLength_nil, Nat.zero_add,
      ← utf8ByteSize_eq_byteLength, ← length_bytes] at hslice
  rw [countNakedBreaks, hscan, plainText]
  split
  · show countBreaks (slice text 0 (bytes text).length) = _
    rw [hall]
  · rename_i hnot
    obtain rfl : text = "" := by
      rw [← String.utf8ByteSize_eq_zero_iff, ← length_bytes]
      exact Nat.eq_zero_of_not_pos hnot
    rfl

end

/-! ### Where a line ends -/

/-- A block comment hides the offsets in it. -/
def Span.hides (s : Span) (i : Nat) : Bool :=
  s.kind == .blockComment && decide (s.start ≤ i) && decide (i < s.stop)

section

variable {all : List UInt8} {pos p : Nat} {spans later : List Span} {c : Span}

/-- Spans from an offset to the end say where the line ends on which it lies: at the first line feed
    that no block comment hides.  A scan from there on is in phase with them. -/
structure LineEnds (all : List UInt8) (pos : Nat) (spans : List Span) (p : Nat) : Prop where
  le : pos ≤ p
  feed : all[p]? = some lineFeed
  seen : ∀ s ∈ spans, s.hides p = false
  first : ∀ i, pos ≤ i → i < p → all[i]? = some lineFeed → ∃ s ∈ spans, s.hides i = true
  /-- The first comment is the same. -/
  comment : firstComment? (rescan all (p + 1))
    = spans.find? fun s => s.isComment && decide (p < s.start)
  /-- What comes before it is the end of a stretch of text. -/
  within : ∃ q, firstStart all.length (rescan all (p + 1)) = q
    ∧ (p + 1 = q ∨ p + 1 ≤ q ∧ ∃ s ∈ spans, s.kind = .text ∧ s.start ≤ p + 1 ∧ s.stop = q)

/-- Plain text hides no line feed, -/
theorem hides_plainText {start stop i : Nat} : ∀ s ∈ plainText start stop, s.hides i = false :=
  fun s hs => by rw [eq_of_mem_plainText hs]; rfl

/-- and no span hides one before it -/
theorem hides_of_lt {s : Span} {i : Nat} (h : i < s.start) : s.hides i = false := by
  rw [Span.hides, decide_eq_false (Nat.not_le.mpr h), Bool.and_false, Bool.false_and]

/-- or behind it. -/
theorem hides_of_le {s : Span} {i : Nat} (h : s.stop ≤ i) : s.hides i = false := by
  rw [Span.hides, decide_eq_false (Nat.not_lt.mpr h), Bool.and_false]

/-- No comment is found in plain text. -/
theorem find?_plainText {start stop : Nat} (f : Span → Bool) :
    (plainText start stop ++ spans).find? (fun s => s.isComment && f s)
      = spans.find? fun s => s.isComment && f s := by
  rw [plainText]
  split <;> rfl

/-- No span of a stretch of text, a span and those after it hides what is past that span, if those
    after it do not. -/
theorem hides_parts {start i : Nat} (hstop : c.stop ≤ i)
    (hlater : ∀ s ∈ later, s.hides i = false) :
    ∀ s ∈ plainText pos start ++ c :: later, s.hides i = false := by
  intro s hs
  rcases List.mem_append.mp hs with hs | hs
  · exact hides_plainText s hs
  rcases List.mem_cons.mp hs with rfl | hs
  · exact hides_of_le hstop
  · exact hlater s hs

/-- What is found out about the end of a line: where the next one begins, or that there is no line
    feed but in block comments. -/
def FindsEnd (all : List UInt8) (pos : Nat) (spans : List Span) (found : Option Nat) : Prop :=
  (found = none
      ∧ ∀ i, pos ≤ i → i < all.length → all[i]? = some lineFeed → ∃ s ∈ spans, s.hides i = true)
    ∨ ∃ p, found = some (p + 1) ∧ LineEnds all pos spans p

/-- The line goes on after a comment without a line feed that shows. -/
theorem LineEnds.after (h : LineEnds all (c.next all) later p) (hlt : c.start < c.stop)
    (hnone : ∀ i, pos ≤ i → i < c.next all → all[i]? = some lineFeed → c.hides i = true)
    (hle : pos ≤ c.start) : LineEnds all pos (plainText pos c.start ++ c :: later) p := by
  have hnext := c.stop_le_next all
  have hp := h.le
  refine ⟨by omega, h.feed, hides_parts (by omega) h.seen, ?_, ?_, ?_⟩
  · intro i hi hip hfeed
    by_cases hbefore : i < c.next all
    · exact ⟨c, by simp, hnone i hi hbefore hfeed⟩
    · obtain ⟨s, hs, hhides⟩ := h.first i (Nat.le_of_not_lt hbefore) hip hfeed
      exact ⟨s, by simp [hs], hhides⟩
  · rw [h.comment, find?_plainText, List.find?_cons_of_neg]
    rw [decide_eq_false (by omega), Bool.and_false]
    exact Bool.false_ne_true
  · obtain ⟨q, hq, hwithin⟩ := h.within
    refine ⟨q, hq, hwithin.imp_right ?_⟩
    rintro ⟨hle, s, hs, htext⟩
    exact ⟨hle, s, by simp [hs], htext⟩

/-- What is found behind a comment is found before it, if no line feed comes in between that the
    comment does not hide. -/
theorem FindsEnd.after {found : Option Nat} (h : FindsEnd all (c.next all) later found)
    (hlt : c.start < c.stop)
    (hnone : ∀ i, pos ≤ i → i < c.next all → all[i]? = some lineFeed → c.hides i = true)
    (hle : pos ≤ c.start) : FindsEnd all pos (plainText pos c.start ++ c :: later) found := by
  rcases h with ⟨hfound, hhidden⟩ | ⟨p, hfound, hends⟩
  · refine .inl ⟨hfound, fun i hi hlength hfeed => ?_⟩
    by_cases hbefore : i < c.next all
    · exact ⟨c, by simp, hnone i hi hbefore hfeed⟩
    · obtain ⟨s, hs, hhides⟩ := hhidden i (Nat.le_of_not_lt hbefore) hlength hfeed
      exact ⟨s, by simp [hs], hhides⟩
  · exact .inr ⟨p, hfound, hends.after hlt hnone hle⟩

/-- Up to the first comment there is a stretch of text, or nothing. -/
theorem Phased.exists_text (h : Phased all pos spans) :
    ∃ q, firstStart all.length spans = q
      ∧ (pos = q ∨ pos ≤ q ∧ ∃ s ∈ spans, s.kind = .text ∧ s.start ≤ pos ∧ s.stop = q) := by
  obtain ⟨rest, hspans, hle, -⟩ := h.exists_append
  generalize firstStart all.length spans = q at hspans hle ⊢
  subst hspans
  refine ⟨q, rfl, hle.eq_or_lt.imp_right fun hlt =>
    ⟨hle, ⟨.text, pos, q, false⟩, ?_, rfl, Nat.le_refl pos, rfl⟩⟩
  rw [plainText, if_pos hlt]
  exact List.mem_append_left rest List.mem_cons_self

/-- The line ends in the text before the first comment. -/
theorem lineEnds_text {start : Nat}
    (hsame : ∀ m, pos ≤ m → m ≤ start → rescan all m = plainText m start ++ spans)
    (hspans : ∀ s ∈ spans, start ≤ s.start)
    (hstart : firstStart all.length spans = start)
    (hle : pos ≤ p) (hlt : p < start) (hfeed : all[p]? = some lineFeed)
    (hnone : ∀ i, pos ≤ i → i < p → all[i]? ≠ some lineFeed) :
    LineEnds all pos (plainText pos start ++ spans) p := by
  have hrescan := hsame (p + 1) (by omega) hlt
  refine ⟨hle, hfeed, ?_, fun i hi hip hfeed => absurd hfeed (hnone i hi hip), ?_, ?_⟩
  · intro s hs
    rcases List.mem_append.mp hs with hs | hs
    · exact hides_plainText s hs
    · exact hides_of_lt (Nat.lt_of_lt_of_le hlt (hspans s hs))
  · rw [hrescan, firstComment?_plainText, find?_plainText, firstComment?]
    refine List.find?_congr fun s hs => ?_
    rw [decide_eq_true (Nat.lt_of_lt_of_le hlt (hspans s hs)), Bool.and_true]
  · refine ⟨start, by rw [hrescan, firstStart_plainText, hstart], .inr ⟨hlt, ?_⟩⟩
    refine ⟨⟨.text, pos, start, false⟩, ?_, rfl, by simp only; omega, rfl⟩
    rw [plainText, if_pos (by omega)]
    exact List.mem_append_left _ (List.mem_singleton.mpr rfl)

end

section

variable {text : String} {pos stop start : Nat} {spans : List Span}

/-- The first comment begins where a character does, if all spans do. -/
theorem isBoundary_firstStart (hspans : ∀ s ∈ spans, IsBoundary text s.start)
    (hstop : IsBoundary text stop) : IsBoundary text (firstStart stop spans) := by
  rw [firstStart]
  cases hfirst : firstComment? spans with
  | none => exact hstop
  | some c => exact hspans c (List.mem_of_find?_eq_some hfirst)

/-- The bytes of a slice are those between its offsets. -/
theorem bytes_slice_of_isBoundary (h : IsBoundary text pos) (h' : IsBoundary text start)
    (hlt : pos < start) : bytes (slice text pos start) = window text pos start := by
  refine bytes_slice fun hempty => ?_
  have hink := isEmpty_slice h h' hlt
  rw [hempty] at hink
  cases hink

/-- A byte between two offsets is a byte of the text up to a later one. -/
theorem getElem?_window (text : String) {k : Nat} (hle : start ≤ stop) (hk : k < start - pos) :
    (window text pos start)[k]? = ((bytes text).take stop)[pos + k]? := by
  rw [window, List.getElem?_take_of_lt hk, List.getElem?_drop,
    List.getElem?_take_of_lt (by omega)]

/-- The first line feed of a stretch of text is found, if there is one. -/
theorem firstBreakEnd?_plainText (limit : Nat) (spans : List Span)
    (hbounds : ∀ s ∈ plainText pos start, IsBoundary text s.start ∧ IsBoundary text s.stop)
    (hle : start ≤ stop) :
    (∃ p, pos ≤ p ∧ p < start ∧ ((bytes text).take stop)[p]? = some lineFeed
        ∧ (∀ i, pos ≤ i → i < p → ((bytes text).take stop)[i]? ≠ some lineFeed)
        ∧ firstBreakEnd? text limit (plainText pos start ++ spans) = some (p + 1))
      ∨ (∀ i, pos ≤ i → i < start → ((bytes text).take stop)[i]? ≠ some lineFeed)
        ∧ firstBreakEnd? text limit (plainText pos start ++ spans)
          = firstBreakEnd? text limit spans := by
  by_cases hlt : pos < start
  · rw [plainText, if_pos hlt] at hbounds ⊢
    obtain ⟨hpos, hstart⟩ := hbounds _ List.mem_cons_self
    have hbytes : bytes (Span.textIn ⟨.text, pos, start, false⟩ text) = window text pos start :=
      bytes_slice_of_isBoundary hpos hstart hlt
    simp only [List.singleton_append, firstBreakEnd?, hbytes]
    -- The search is in the bytes of the window, where index `k` is the offset `pos + k`.
    cases hfind : (window text pos start).findIdx? (· == lineFeed) with
    | none =>
      refine .inr ⟨fun i hi hlt' hfeed => ?_, rfl⟩
      have hwithin : i - pos < start - pos := by omega
      have hk := getElem?_window text hle hwithin
      rw [Nat.add_sub_cancel' hi, hfeed] at hk
      have hne := List.findIdx?_eq_none_iff.mp hfind lineFeed (List.mem_of_getElem? hk)
      simp at hne
    | some k =>
      obtain ⟨hk, hfeed, hbefore⟩ := List.findIdx?_eq_some_iff_getElem.mp hfind
      have hlength := length_window_le text pos start
      refine .inl ⟨pos + k, Nat.le_add_right _ _, by omega, ?_, fun i hi hip hfeed' => ?_, rfl⟩
      · rw [← getElem?_window text hle (by omega), List.getElem?_eq_getElem hk, beq_iff_eq.mp hfeed]
      · have hwithin : i - pos < start - pos := by omega
        have hi' := getElem?_window text hle hwithin
        rw [Nat.add_sub_cancel' hi, hfeed'] at hi'
        obtain ⟨hlt', hi'⟩ := List.getElem?_eq_some_iff.mp hi'
        have hne := hbefore (i - pos) (by omega)
        rw [hi'] at hne
        exact hne rfl
  · rw [plainText, if_neg hlt]
    exact .inr ⟨fun i hi hi' => absurd (Nat.lt_of_le_of_lt hi hi') hlt, rfl⟩

variable {all : List UInt8} {c : Span} {later : List Span} {p i : Nat}

/-- Without carriage returns, a line breaks at line feeds only. -/
theorem getElem?_of_breakAt (hreturn : carriageReturn ∉ all) (h : BreakAt all i) :
    all[i]? = some lineFeed := by
  obtain ⟨b, hbyte, hb⟩ := h
  simp only [isBreakByte, Bool.or_eq_true, beq_iff_eq] at hb
  rcases hb with rfl | rfl
  · exact hbyte
  · exact absurd (List.mem_of_getElem? hbyte) hreturn

/-- A line comment that ends its line does so with a line feed, and is over after it. -/
theorem Span.Holds.next_eq (h : c.Holds all) (hreturn : carriageReturn ∉ all)
    (hkind : c.kind = .lineComment) (hends : c.endsLine = true) :
    all[c.stop]? = some lineFeed ∧ c.next all = c.stop + 1 := by
  have hbreak := (h.endsLine.mp hends).2
  have hfeed := getElem?_of_breakAt hreturn hbreak
  obtain ⟨hlt, hget⟩ := List.getElem?_eq_some_iff.mp hfeed
  refine ⟨hfeed, ?_⟩
  rw [Span.next, if_pos ⟨hkind, hends⟩, List.drop_eq_getElem_cons hlt, hget,
    breakWidth_eq_one (by decide)]
  intro rest hcr _
  exact absurd hcr (by decide)

/-- At a line feed it does. -/
theorem breakAt_of_feed (h : all[i]? = some lineFeed) : BreakAt all i :=
  ⟨lineFeed, h, by decide⟩

/-- Any other comment hides its line feeds. -/
theorem Span.Holds.hides (h : c.Holds all) (hcomment : c.isComment = true)
    (hother : ¬ (c.kind = .lineComment ∧ c.endsLine = true)) (hi : c.start ≤ i)
    (hi' : i < c.next all) (hfeed : all[i]? = some lineFeed) : c.hides i = true := by
  have hstop : i < c.stop := by rwa [Span.next, if_neg hother] at hi'
  cases hkind : c.kind with
  | text => simp [Span.isComment, hkind] at hcomment
  | lineComment => exact absurd (breakAt_of_feed hfeed) ((h.line hkind).2.1 i hi hstop)
  | blockComment => simp [Span.hides, hkind, hi, hstop]

/-- The line ends with a line comment. -/
theorem lineEnds_lineComment (hreturn : carriageReturn ∉ all) (hholds : c.Holds all)
    (hkind : c.kind = .lineComment) (hends : c.endsLine = true) (hle : pos ≤ c.start)
    (hlt : c.start < c.stop) (hlater : Phased all (c.next all) later)
    (hnone : ∀ i, pos ≤ i → i < c.start → all[i]? ≠ some lineFeed) :
    LineEnds all pos (plainText pos c.start ++ c :: later) c.stop := by
  obtain ⟨hfeed, hnext⟩ := hholds.next_eq hreturn hkind hends
  have hstarts : ∀ s ∈ later, c.stop < s.start := fun s hs => by
    have hstart := hlater.le_start s hs
    omega
  have hrescan : rescan all (c.stop + 1) = later := hnext ▸ hlater.rescan_eq
  refine ⟨by omega, hfeed, hides_parts (Nat.le_refl _) fun s hs => hides_of_lt (hstarts s hs),
    ?_, ?_, ?_⟩
  · intro i hi hip hfeed
    have hinside := (hholds.line hkind).2.1 i
    by_cases hbefore : i < c.start
    · exact absurd hfeed (hnone i hi hbefore)
    · exact absurd (breakAt_of_feed hfeed) (hinside (Nat.le_of_not_lt hbefore) hip)
  · rw [hrescan, find?_plainText, List.find?_cons_of_neg, firstComment?]
    · refine List.find?_congr fun s hs => ?_
      rw [decide_eq_true (hstarts s hs), Bool.and_true]
    · rw [decide_eq_false (by omega), Bool.and_false]
      exact Bool.false_ne_true
  · obtain ⟨q, hq, hwithin⟩ := hlater.exists_text
    refine ⟨q, hrescan ▸ hq, ?_⟩
    rw [hnext] at hwithin
    refine hwithin.imp_right ?_
    rintro ⟨hle, s, hs, htext⟩
    exact ⟨hle, s, by simp [hs], htext⟩

/-- The line break that ends a line comment is found. -/
theorem firstBreakEnd?_lineComment (hreturn : carriageReturn ∉ (bytes text).take stop)
    (hholds : c.Holds ((bytes text).take stop)) (hkind : c.kind = .lineComment)
    (hends : c.endsLine = true) : firstBreakEnd? text stop (c :: later) = some (c.stop + 1) := by
  rw [← (hholds.next_eq hreturn hkind hends).2, Span.next, if_pos ⟨hkind, hends⟩, List.drop_take,
    firstBreakEnd?, hkind]
  simp only [hends, if_true]
  rfl

/-- Any other comment is passed over. -/
theorem firstBreakEnd?_comment (hcomment : c.isComment = true)
    (hother : ¬ (c.kind = .lineComment ∧ c.endsLine = true)) :
    firstBreakEnd? text stop (c :: later) = firstBreakEnd? text stop later := by
  rw [firstBreakEnd?]
  split
  · rename_i hkind
    simp [Span.isComment, hkind] at hcomment
  · rename_i hkind
    rw [if_neg fun h => hother ⟨hkind, h⟩]
  · rfl

/-- The lines of a scan end where it says, if they do. -/
theorem Phased.findsEnd (hall : all = (bytes text).take stop) (hreturn : carriageReturn ∉ all)
    (hlength : all.length = stop) (h : Phased all pos spans)
    (hbounds : ∀ s ∈ spans, IsBoundary text s.start ∧ IsBoundary text s.stop) :
    FindsEnd all pos spans (firstBreakEnd? text stop spans) := by
  -- The line ends in the text before the next comment, with that comment, or later.
  induction h with
  | @text pos hle hsame =>
    have hfirst := firstBreakEnd?_plainText stop [] hbounds (Nat.le_of_eq hlength)
    rw [← hall] at hfirst
    rw [← List.append_nil (plainText pos all.length)]
    rcases hfirst with ⟨p, hp, hlt, hfeed, hnone, heq⟩ | ⟨hnone, heq⟩
    · refine .inr ⟨p, heq, lineEnds_text ?_ nofun rfl hp hlt hfeed hnone⟩
      exact fun m hm hm' => (hsame m hm hm').trans (List.append_nil _).symm
    · exact .inl ⟨heq, fun i hi hlt hfeed => absurd hfeed (hnone i hi hlt)⟩
  | @comment pos c later hle hlt hcomment hholds hsame hlater ih =>
    obtain ⟨hplain, hrest⟩ := List.forall_mem_append.mp hbounds
    obtain ⟨-, hrest⟩ := List.forall_mem_cons.mp hrest
    have hnext := c.stop_le_next all
    have hle' := hlater.le_length
    have hstarts : ∀ s ∈ c :: later, c.start ≤ s.start :=
      List.forall_mem_cons.mpr ⟨Nat.le_refl _, fun s hs => by
        have hs := hlater.le_start s hs
        omega⟩
    have hfirst := firstBreakEnd?_plainText stop (c :: later) hplain
      (by omega : c.start ≤ stop)
    rw [← hall] at hfirst
    rcases hfirst with ⟨p, hp, hlt, hfeed, hnone, heq⟩ | ⟨hnone, heq⟩
    · exact .inr ⟨p, heq,
        lineEnds_text hsame hstarts (firstStart_cons hcomment) hp hlt hfeed hnone⟩
    rw [heq]
    by_cases hends : c.kind = .lineComment ∧ c.endsLine = true
    · exact .inr ⟨c.stop,
        firstBreakEnd?_lineComment (hall ▸ hreturn) (hall ▸ hholds) hends.1 hends.2,
        lineEnds_lineComment hreturn hholds hends.1 hends.2 hle hlt hlater hnone⟩
    · rw [firstBreakEnd?_comment hcomment hends]
      refine (ih hrest).after hlt (fun i hi hi' hfeed => ?_) hle
      by_cases hbefore : i < c.start
      · exact absurd hfeed (hnone i hi hbefore)
      · exact hholds.hides hcomment hends (Nat.le_of_not_lt hbefore) hi' hfeed

end

/-! ### The blank lines of a gap -/

/-- Where the line ends on which `start` lies: at the first line feed from there to `stop` that is
    in no block comment. -/
def lineEnd? (text : String) (start stop : Nat) : Option Nat :=
  (List.range' start (stop - start)).find? fun i =>
    (bytes text)[i]? == some lineFeed && (scan text start (some stop)).all (!·.hides i)

/-- Where the first comment between two offsets begins that comes after `p`, or else the second
    offset. -/
def commentAfter (text : String) (start stop p : Nat) : Nat :=
  (((scan text start (some stop)).find? fun s => s.isComment && decide (p < s.start)).map
    Span.start).getD stop

/-- How many lines between two offsets are whitespace, lie after the line of the first one, and
    before the line of the first later comment or of the second offset. -/
def blankLinesIn (text : String) (start stop : Nat) : Nat :=
  match lineEnd? text start stop with
  | none => 0
  | some p => (linesFrom 0 (Text.pieces text.toList)).countP fun line =>
      decide (p < line.1) && endsBlank (commentAfter text start stop p) line

section

variable {text : String} {start stop p q r : Nat} {front back : List Char}

/-- The end of a line is what was found out about it, by the definition of its line feed. -/
theorem FindsEnd.lineEnd?_eq (hlength : ((bytes text).take stop).length = stop) {found : Option Nat}
    (h : FindsEnd ((bytes text).take stop) start (scan text start (some stop)) found) :
    (lineEnd? text start stop).map (· + 1) = found := by
  have hbyte : ∀ {i}, i < stop → ((bytes text).take stop)[i]? = (bytes text)[i]? :=
    fun hi => List.getElem?_take_of_lt hi
  -- An offset is passed over if it is no line feed, or hidden.
  have hnot : ∀ {i}, start ≤ i → i < stop →
      (((bytes text).take stop)[i]? = some lineFeed →
        ∃ s ∈ scan text start (some stop), s.hides i = true) →
      (!((bytes text)[i]? == some lineFeed && (scan text start (some stop)).all (!·.hides i)))
        = true := by
    intro i hi hlt hhides
    rw [Bool.not_eq_true', Bool.and_eq_false_iff, beq_eq_false_iff_ne, List.all_eq_false]
    by_cases hfeed : (bytes text)[i]? = some lineFeed
    · obtain ⟨s, hs, hhides⟩ := hhides ((hbyte hlt).trans hfeed)
      exact .inr ⟨s, hs, by rw [hhides]; exact Bool.false_ne_true⟩
    · exact .inl hfeed
  rcases h with ⟨rfl, hhidden⟩ | ⟨p, rfl, hends⟩
  · have hnone : lineEnd? text start stop = none := by
      refine List.find?_range'_eq_none.mpr fun i hi hlt => ?_
      have hlt : i < stop := by omega
      exact hnot hi hlt (hhidden i hi (hlength.symm ▸ hlt))
    rw [hnone]
    rfl
  · have hlt : p < stop := hlength ▸ (List.getElem?_eq_some_iff.mp hends.feed).1
    have hle := hends.le
    have hsome : lineEnd? text start stop = some p := by
      refine List.find?_range'_eq_some.mpr
        ⟨?_, List.mem_range'_1.mpr ⟨hle, by omega⟩, fun i hi hip => ?_⟩
      · rw [← hbyte hlt, hends.feed, beq_self_eq_true, Bool.true_and, List.all_eq_true]
        exact fun s hs => by rw [hends.seen s hs]; rfl
      · exact hnot hi (hip.trans hlt) (hends.first i hi hip)
    rw [hsome]
    rfl

/-- What comes before a boundary is the beginning of what is left. -/
theorem exists_append_of_isBoundary (h : text.toList = front ++ back) (hq : IsBoundary text q)
    (hle : byteLength front ≤ q) :
    ∃ m rest, back = m ++ rest ∧ byteLength front + byteLength m = q := by
  obtain ⟨front', back', h', rfl⟩ := hq
  rcases List.append_eq_append_iff.mp (h.symm.trans h') with ⟨m, rfl, rfl⟩ | ⟨m, rfl, rfl⟩
  · exact ⟨m, back', rfl, (byteLength_append _ _).symm⟩
  · refine ⟨[], back, rfl, ?_⟩
    rw [byteLength_append] at hle ⊢
    rw [byteLength_nil]
    omega

/-- A part in the middle of a text is the slice between its offsets. -/
theorem slice_of_append {m rest : List Char} (h : text.toList = front ++ m ++ rest) :
    slice text (byteLength front) (byteLength front + byteLength m) = String.ofList m := by
  have hslice := slice_append front m rest
  rwa [← h, String.ofList_toList] at hslice

/-- A slice has the characters of one that begins later. -/
theorem mem_slice_of_le {c : Char} (hp : IsBoundary text p) (hq : IsBoundary text q)
    (hr : IsBoundary text r) (hpq : p ≤ q) (hqr : q ≤ r) (hc : c ∈ (slice text q r).toList) :
    c ∈ (slice text p r).toList := by
  obtain ⟨front, back, h, rfl⟩ := hp
  obtain ⟨m, back, rfl, rfl⟩ := exists_append_of_isBoundary h hq hpq
  rw [← List.append_assoc] at h
  obtain ⟨m', rest, rfl, rfl⟩ := exists_append_of_isBoundary h hr (by rwa [byteLength_append])
  rw [← List.append_assoc] at h
  have hshort := slice_of_append h
  rw [List.append_assoc front] at h
  have hlong := slice_of_append h
  rw [byteLength_append, ← Nat.add_assoc, ← byteLength_append] at hlong
  rw [← byteLength_append, hshort, String.toList_ofList] at hc
  rw [hlong, String.toList_ofList]
  exact List.mem_append_right _ hc

/-- Between an offset and itself there is no text. -/
theorem slice_self (text : String) (p : Nat) : slice text p p = "" := by
  rcases slice_cases text p p with hempty | ⟨as, m, bs, -, hslice, rfl, hp⟩
  · exact hempty
  · cases m with
    | nil => exact hslice
    | cons c m =>
      have hsize := c.utf8Size_pos
      rw [byteLength_cons] at hp
      omega

/-- What a line feed and the characters after it stand for in a text. -/
theorem exists_of_feed (hfeed : (bytes text)[p]? = some lineFeed) (hp : IsBoundary text p)
    (hq : IsBoundary text q) (hle : p + 1 ≤ q) :
    ∃ front m rest, text.toList = front ++ '\n' :: (m ++ rest) ∧ byteLength front = p
      ∧ p + 1 + byteLength m = q ∧ slice text (p + 1) q = String.ofList m
      ∧ slice text p q = String.ofList ('\n' :: m) := by
  obtain ⟨front, back, h, rfl⟩ := hp
  have hhead : (encode back).head? = some lineFeed := by
    have hbytes : bytes text = encode front ++ encode back := by
      rw [← encode_append, ← h]
      rfl
    rwa [hbytes, ← length_encode, List.getElem?_append_right (Nat.le_refl _), Nat.sub_self,
      ← List.head?_eq_getElem?] at hfeed
  obtain ⟨back, rfl⟩ := List.head?_eq_some_iff.mp
    (head?_of_head?_encode (d := '\n') hhead (by decide) rfl)
  have hfirst : byteLength (front ++ ['\n']) = byteLength front + 1 := byteLength_append _ _
  have hsplit : text.toList = front ++ ['\n'] ++ back := by rw [h, List.append_assoc]; rfl
  obtain ⟨m, rest, rfl, hm⟩ := exists_append_of_isBoundary hsplit hq (hfirst ▸ hle)
  rw [← List.append_assoc] at hsplit
  have hslice := slice_of_append hsplit
  rw [hm, hfirst] at hslice
  rw [List.append_assoc front] at hsplit
  have hslice' := slice_of_append hsplit
  rw [byteLength_append, ← Nat.add_assoc, ← byteLength_append, hm] at hslice'
  exact ⟨front, m, rest, h, rfl, hfirst ▸ hm, hslice, hslice'⟩

/-- From the line feed that ends a line up to a later boundary with only whitespace in between,
    there are as many lines of whitespace as line feeds. -/
theorem countP_linesFrom (hfeed : (bytes text)[p]? = some lineFeed) (hp : IsBoundary text p)
    (hq : IsBoundary text q) (hle : p + 1 ≤ q)
    (hblank : (slice text (p + 1) q).toList.all isBlank = true) :
    countNakedBreaks (slice text (p + 1) q) = (linesFrom 0 (Text.pieces text.toList)).countP
      fun line => decide (p < line.1) && endsBlank q line := by
  obtain ⟨front, m, rest, h, hfront, hm, hslice, -⟩ := exists_of_feed hfeed hp hq hle
  rw [countNakedBreaks_blank hblank]
  rw [hslice, String.toList_ofList] at hblank
  rw [hslice, countBreaks, String.toList_ofList, h,
    count_after (endsBlank q) ((Nat.zero_add _).trans hfront), count_blank hblank hm]

/-- After the line that ends at `p` the gap goes up to the next comment, and it is empty or the end
    of a stretch of text. -/
theorem LineEnds.gapEnd_eq
    (h : LineEnds ((bytes text).take stop) start (scan text start (some stop)) p) (hlt : p < stop)
    (hstop : stop ≤ text.utf8ByteSize) :
    gapEnd text (p + 1) stop = commentAfter text start stop p
      ∧ (p + 1 = commentAfter text start stop p
        ∨ p + 1 ≤ commentAfter text start stop p
          ∧ ∃ s ∈ scan text start (some stop),
            s.kind = .text ∧ s.start ≤ p + 1 ∧ s.stop = commentAfter text start stop p) := by
  obtain ⟨q, hq, hwithin⟩ := h.within
  have hcomment : commentAfter text start stop p = q := by
    rw [commentAfter, ← h.comment, ← hq, firstStart, length_take_bytes hstop]
  rw [hcomment]
  refine ⟨?_, hwithin⟩
  rw [gapEnd, scan_eq_rescan hlt hstop, h.comment]
  exact hcomment

/-- The next line starts behind the first line feed that no block comment hides, or at the end. -/
theorem nextLineStart_eq (h : stop ≤ text.utf8ByteSize) :
    nextLineStart text start stop
      = (firstBreakEnd? text stop (scan text start (some stop))).getD stop := by
  rw [nextLineStart, length_bytes, Nat.min_eq_left h]

end

/-- **Blank lines of a gap.**  Where there is nothing but whitespace and comments between two nodes,
    the blank lines between them are the lines of whitespace after the line on which the first one
    ends, and before the line of the first later comment or of the second node. -/
theorem blankLinesBetween_eq {κ : Type} (source : String) (a b : Node κ)
    (hreturn : '\r' ∉ source.toList) (hle : a.stop ≤ b.start)
    (ha : IsBoundary source a.stop) (hb : IsBoundary source b.start)
    (hgap : ∀ span ∈ scan source a.stop (some b.start),
      span.isComment = true ∨ (span.textIn source).toList.all isBlank = true) :
    blankLinesBetween source a b = blankLinesIn source a.stop b.start := by
  have hlength := length_take_bytes hb.le
  have hbounds := isBoundary_of_mem_scan hle ha hb
  have hreturn' : carriageReturn ∉ (bytes source).take b.start :=
    fun hmem => return_notMem_bytes hreturn (List.mem_of_mem_take hmem)
  have hphased := phased_scan hle hb.le
  have hfinds := hphased.findsEnd rfl hreturn' hlength hbounds
  have hend := hfinds.lineEnd?_eq hlength
  have hnext := @nextLineStart_eq source a.stop b.start hb.le
  rcases hfinds with ⟨hfound, -⟩ | ⟨p, hfound, hends⟩
  · -- No line ends before the second node.
    rw [hfound, Option.map_eq_none_iff] at hend
    rw [hfound, Option.getD_none] at hnext
    have hgapEnd : gapEnd source b.start b.start = b.start := by
      rw [gapEnd, scan_self hb.le]
      rfl
    simp only [blankLinesBetween, blankLinesIn, hend, hnext, hgapEnd, slice_self]
    split <;> rfl
  · rw [hfound, Option.map_eq_some_iff] at hend
    obtain ⟨p', hend, hp'⟩ := hend
    obtain rfl := Nat.succ_inj.mp hp'
    rw [hfound, Option.getD_some] at hnext
    have hle' := hends.le
    have hfeed := hends.feed
    have hlt : p' < b.start := hlength ▸ (List.getElem?_eq_some_iff.mp hfeed).1
    obtain ⟨hp, hafter⟩ := isBoundary_of_ascii hfeed (by decide)
    rw [List.getElem?_take_of_lt hlt] at hfeed
    obtain ⟨hcomment, hwithin⟩ := hends.gapEnd_eq hlt hb.le
    simp only [blankLinesBetween, blankLinesIn, hend, hnext, hcomment]
    rw [if_pos (by omega)]
    rcases hwithin with hq | ⟨hpq, s, hs, hkind, hstart, hq⟩
    · refine countP_linesFrom hfeed hp (hq ▸ hafter) (Nat.le_of_eq hq) ?_
      rw [← hq, slice_self]
      rfl
    · obtain ⟨hs', hstop⟩ := hbounds s hs
      have hblank := (hgap s hs).resolve_left (by simp [Span.isComment, hkind])
      rw [← hq] at hpq ⊢
      refine countP_linesFrom hfeed hp hstop hpq (List.all_eq_true.mpr fun c hc => ?_)
      exact List.all_eq_true.mp hblank c (mem_slice_of_le hs' hafter hstop hstart hpq hc)

/-- Two comments on the line of the first node, one of which goes on over blank lines, then two
    lines of whitespace up to a comment of its own line, and one more after it. -/
theorem blankLinesBetween_eq_two :
    let source := "a; /* x\n\n*/ // y\n \n\n/* z */\n\nb"
    let a : Node String := ⟨"A", 0, 0, 2, []⟩
    let b : Node String := ⟨"B", 2, 29, 30, []⟩
    '\r' ∉ source.toList ∧ a.stop ≤ b.start
      ∧ IsBoundary source a.stop ∧ IsBoundary source b.start
      ∧ blankLinesBetween source a b = blankLinesIn source a.stop b.start
      ∧ blankLinesIn source a.stop b.start = 2 := by
  intro source a b
  have hreturn : '\r' ∉ source.toList := by decide +kernel
  have ha : IsBoundary source a.stop :=
    ⟨source.toList.take 2, source.toList.drop 2, by decide +kernel, by decide +kernel⟩
  have hb : IsBoundary source b.start :=
    ⟨source.toList.take 29, source.toList.drop 29, by decide +kernel, by decide +kernel⟩
  have hgap : ∀ span ∈ scan source a.stop (some b.start),
      span.isComment = true ∨ (span.textIn source).toList.all isBlank = true := by decide +kernel
  exact ⟨hreturn, by decide, ha, hb,
    blankLinesBetween_eq source a b hreturn (by decide) ha hb hgap, by decide +kernel⟩

end Transcode.Trivia
