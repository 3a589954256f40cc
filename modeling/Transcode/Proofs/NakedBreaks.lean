import Transcode.Proofs.ElementBreaks

namespace Transcode.Trivia

open Text Script

/-!
# Naked line breaks

The naked line breaks of a text are counted without looking at where they are: all line feeds in
stretches of text, less one for each block comment with a line break directly after it.  Nothing
pairs such a comment with the line feed that is taken away for it.

The pairs are there nevertheless.  A comment accounts for the line feeds from its beginning to the
end of the line break directly after it (`Span.extent`), and no later comment begins before that
(`Phased.extent_le_start`).  After a line comment the scanner goes on at this end, and after a block
comment before the line break; so what it reads once more is nothing, or one line break, and that
has one line feed in it if each carriage return has its own (`Span.Holds.feeds_next`).  A text that
is cut at the extents of its comments shows that the count is exact (`countNakedBreaks_exact`).
-/

/-- Each `a` in a list has a `b` directly after it. -/
def EachFollowedBy {α : Type} (a b : α) (l : List α) : Prop :=
  ∀ i, l[i]? = some a → l[i + 1]? = some b

instance {α : Type} [DecidableEq α] (a b : α) (l : List α) : Decidable (EachFollowedBy a b l) :=
  decidable_of_iff (∀ i < l.length, l[i]? = some a → l[i + 1]? = some b)
    ⟨fun h i hi => h i (List.getElem?_eq_some_iff.mp hi).1 hi, fun h i _ => h i⟩

/-- A comment accounts for the line feeds in it, and for the one that comes directly after it or
    after a carriage return that does.  That one ends a line comment, or the line of a block
    comment. -/
def Span.accountsFor (all : List UInt8) (s : Span) (i : Nat) : Bool :=
  s.covers i
    || s.isComment && (i == s.stop || i == s.stop + 1 && all[s.stop]? == some carriageReturn)

/-- How many line feeds lie between two offsets that no comment among some spans accounts for. -/
def nakedFeeds (all : List UInt8) (spans : List Span) (start stop : Nat) : Nat :=
  (List.range' start (stop - start)).countP fun i =>
    all[i]? == some lineFeed && spans.all (!·.accountsFor all i)

/-- How far a comment extends: to the end of the line break directly after it. -/
def Span.extent (all : List UInt8) (s : Span) : Nat :=
  s.stop + breakWidth (all.drop s.stop)

section

variable {all : List UInt8} {spans more later : List Span} {s c : Span} {pos start m stop i : Nat}

/-! ### Carriage returns -/

/-- Where each carriage return has a line feed directly after it, that is so of their bytes. -/
theorem EachFollowedBy.encode {cs : List Char} (h : EachFollowedBy '\r' '\n' cs) :
    EachFollowedBy carriageReturn lineFeed (encode cs) := by
  intro i hi
  obtain ⟨front, c, back, rfl, rfl, hsize⟩ := exists_char_of_getElem? hi (by decide)
  have hlength : (String.utf8EncodeChar c).length = 1 := by rw [String.length_utf8EncodeChar, hsize]
  have hone : ∀ n : Nat, n + 1 - n = 1 := fun n => Nat.add_sub_cancel_left n 1
  rw [encode_append, encode_cons, ← length_encode, List.getElem?_append_right (Nat.le_refl _),
    Nat.sub_self, List.getElem?_append_left (by omega)] at hi
  obtain rfl : c = '\r' :=
    Char.toNat_inj.mp (eq_of_mem_utf8EncodeChar (List.mem_of_getElem? hi) (by decide))
  have hnext := h front.length (by simp)
  rw [List.getElem?_append_right (Nat.le_succ _), hone] at hnext
  cases back with
  | nil => cases hnext
  | cons d back =>
    obtain rfl : d = '\n' := Option.some.inj hnext
    rw [encode_append, ← length_encode, List.getElem?_append_right (Nat.le_succ _), hone]
    rfl

/-! ### Counting -/

/-- Between an offset and itself there are no line feeds. -/
theorem nakedFeeds_self (all : List UInt8) (spans : List Span) (pos : Nat) :
    nakedFeeds all spans pos pos = 0 := by
  rw [nakedFeeds, Nat.sub_self, List.range'_zero, List.countP_nil]

/-- Line feeds may be counted in two parts. -/
theorem nakedFeeds_cut (all : List UInt8) (spans : List Span) (h : start ≤ m) (h' : m ≤ stop) :
    nakedFeeds all spans start stop
      = nakedFeeds all spans start m + nakedFeeds all spans m stop := by
  have hrange : List.range' start (stop - start)
      = List.range' start (m - start) ++ List.range' m (stop - m) := by
    rw [← Nat.sub_add_sub_cancel h' h, Nat.add_comm, ← List.range'_append_1,
      Nat.add_sub_cancel' h]
  rw [nakedFeeds, hrange, List.countP_append]
  rfl

/-- Spans that account for none of them make no difference. -/
theorem nakedFeeds_append (h : ∀ s ∈ spans, ∀ i, start ≤ i → i < stop →
      all[i]? = some lineFeed → s.accountsFor all i = false) :
    nakedFeeds all (spans ++ more) start stop = nakedFeeds all more start stop := by
  refine List.countP_congr fun i hi => ?_
  obtain ⟨hle, hlt⟩ := List.mem_range'_1.mp hi
  by_cases hfeed : all[i]? = some lineFeed
  · have hnone : spans.all (!·.accountsFor all i) = true :=
      List.all_eq_true.mpr fun s hs => by rw [h s hs i hle (by omega) hfeed]; rfl
    rw [List.all_append, hnone, Bool.true_and]
  · rw [beq_eq_false_iff_ne.mpr hfeed, Bool.false_and, Bool.false_and]

/-- Spans that account for no line feed between two offsets could as well be left out. -/
theorem nakedFeeds_eq_nil (h : ∀ s ∈ spans, ∀ i, start ≤ i → i < stop →
      all[i]? = some lineFeed → s.accountsFor all i = false) :
    nakedFeeds all spans start stop = nakedFeeds all [] start stop := by
  rw [← List.append_nil spans]
  exact nakedFeeds_append h

/-- Where a comment accounts for all of them, none is naked. -/
theorem nakedFeeds_eq_zero (hs : s ∈ spans) (h : ∀ i, start ≤ i → i < stop →
      all[i]? = some lineFeed → s.accountsFor all i = true) :
    nakedFeeds all spans start stop = 0 := by
  refine List.countP_eq_zero.mpr fun i hi hnaked => ?_
  obtain ⟨hle, hlt⟩ := List.mem_range'_1.mp hi
  obtain ⟨hfeed, hnone⟩ := Bool.and_eq_true_iff.mp hnaked
  have hnot := List.all_eq_true.mp hnone s hs
  rw [h i hle (by omega) (eq_of_beq hfeed)] at hnot
  exact Bool.false_ne_true hnot

/-! ### What a comment accounts for -/

/-- Directly after a span there is no line break, a carriage return with a line feed, or one byte
    that breaks the line by itself. -/
theorem Span.extent_cases (all : List UInt8) (s : Span) :
    s.extent all = s.stop ∧ ¬ BreakAt all s.stop
      ∨ s.extent all = s.stop + 2 ∧ PairAt all carriageReturn lineFeed s.stop
      ∨ s.extent all = s.stop + 1 ∧ BreakAt all s.stop
        ∧ ¬ PairAt all carriageReturn lineFeed s.stop := by
  by_cases hbreak : BreakAt all s.stop
  · right
    obtain ⟨rest, hrest⟩ | ⟨b, rest, hrest, hb, hpair⟩ := break_cases (breakAt_iff.mp hbreak)
    · left
      rw [Span.extent, hrest]
      exact ⟨rfl, getElem?_of_drop hrest, getElem?_of_drop (drop_of_drop hrest)⟩
    · right
      rw [Span.extent, hrest, breakWidth_eq_one hb hpair, pairAt_iff hrest]
      refine ⟨rfl, hbreak, fun ⟨hreturn, hfeed⟩ => ?_⟩
      obtain ⟨rest', rfl⟩ := List.head?_eq_some_iff.mp hfeed
      exact hpair rest' hreturn rfl
  · left
    rw [Span.extent, breakWidth_eq_zero (Bool.eq_false_iff.mpr (breakAt_iff.not.mp hbreak))]
    exact ⟨rfl, hbreak⟩

/-- A comment extends to its end at least, -/
theorem Span.stop_le_extent (all : List UInt8) (s : Span) : s.stop ≤ s.extent all :=
  Nat.le_add_right _ _

/-- and not beyond the text. -/
theorem Span.extent_le_length (h : s.stop ≤ all.length) : s.extent all ≤ all.length := by
  have hwidth : breakWidth (all.drop s.stop) ≤ (all.drop s.stop).length := breakWidth_le
  rw [List.length_drop] at hwidth
  rw [Span.extent]
  omega

/-- After the end of a span, up to its extent, there are only bytes that break lines. -/
theorem Span.breakAt_of_lt_extent (h : s.stop ≤ i) (h' : i < s.extent all) : BreakAt all i := by
  obtain ⟨hextent, -⟩ | ⟨hextent, hreturn, hfeed⟩ | ⟨hextent, hbreak, -⟩ := s.extent_cases all
  · omega
  · obtain rfl | rfl : i = s.stop ∨ i = s.stop + 1 := by omega
    · exact ⟨_, hreturn, rfl⟩
    · exact ⟨_, hfeed, rfl⟩
  · obtain rfl : i = s.stop := by omega
    exact hbreak

/-- A comment accounts for the line feeds from its beginning to its extent. -/
theorem Span.accountsFor_iff (hcomment : s.isComment = true) (hle : s.start ≤ s.stop)
    (hfeed : all[i]? = some lineFeed) :
    s.accountsFor all i = true ↔ s.start ≤ i ∧ i < s.extent all := by
  have hbreak : i = s.stop → BreakAt all s.stop := by
    rintro rfl
    exact ⟨_, hfeed, rfl⟩
  have hreturn : all[s.stop]? = some carriageReturn → BreakAt all s.stop := fun h => ⟨_, h, rfl⟩
  simp only [Span.accountsFor, Span.covers, hcomment, Bool.true_and, Bool.or_eq_true,
    Bool.and_eq_true, decide_eq_true_eq, beq_iff_eq]
  obtain ⟨hextent, hnone⟩ | ⟨hextent, hpair⟩ | ⟨hextent, -, hpair⟩ := s.extent_cases all
  · have hi := mt hbreak hnone
    have hr := mt hreturn hnone
    simp only [hr, and_false, or_false]
    omega
  · simp only [hpair.1, and_true]
    omega
  · -- A carriage return with this line feed after it would be a pair.
    have hr : ¬ (i = s.stop + 1 ∧ all[s.stop]? = some carriageReturn) := by
      rintro ⟨rfl, hr⟩
      exact hpair ⟨hr, hfeed⟩
    simp only [hr, or_false]
    omega

/-- Plain text accounts for no line feed. -/
theorem Span.accountsFor_of_not_isComment (h : s.isComment = false) :
    s.accountsFor all i = false := by
  rw [Span.accountsFor, Span.covers, h]
  rfl

/-- A span accounts for nothing before it, and for nothing after its extent. -/
theorem Span.accountsFor_of_outside (hle : s.start ≤ s.stop)
    (hi : i < s.start ∨ s.extent all ≤ i) (hfeed : all[i]? = some lineFeed) :
    s.accountsFor all i = false := by
  cases hcomment : s.isComment with
  | false => exact accountsFor_of_not_isComment hcomment
  | true =>
    rw [Bool.eq_false_iff, Ne, accountsFor_iff hcomment hle hfeed]
    omega

/-! ### Where the scanner goes on -/

/-- A comment begins with a slash. -/
theorem Span.Holds.slash_at_start (h : s.Holds all) (hcomment : s.isComment = true) :
    all[s.start]? = some slash := by
  cases hkind : s.kind with
  | text => simp [Span.isComment, hkind] at hcomment
  | lineComment => exact (h.line hkind).1.1
  | blockComment => exact (h.block hkind).1.1

/-- No span is empty. -/
theorem Tiled.start_lt_stop (h : Tiled all pos spans) : ∀ s ∈ spans, s.start < s.stop := by
  induction h with
  | done => exact List.forall_mem_nil _
  | span hstart hlt _ _ _ ih => exact List.forall_mem_cons.mpr ⟨hstart ▸ hlt, ih⟩

/-- Spans of which all scans find the same tile the text. -/
theorem Phased.tiled (h : Phased all pos spans) : Tiled all pos spans :=
  h.rescan_eq ▸ tiled_rescan h.le_length

/-- The scanner goes on at the end of a comment or at its extent. -/
theorem Span.next_le_extent (all : List UInt8) (s : Span) : s.next all ≤ s.extent all := by
  rw [Span.next]
  split
  · exact Nat.le_refl _
  · exact s.stop_le_extent all

/-- After a line comment, with or without a line break, it goes on at its extent. -/
theorem Span.Holds.next_of_line (h : c.Holds all) (hkind : c.kind = .lineComment) :
    c.next all = c.extent all := by
  have hcomment : c.isComment = true := by simp [Span.isComment, hkind]
  rw [Span.next]
  split
  · rfl
  · rename_i hnone
    have hends : BreakAt all c.stop → c.endsLine = true :=
      fun hbreak => h.endsLine.mpr ⟨hcomment, hbreak⟩
    obtain ⟨hextent, -⟩ | ⟨-, hpair⟩ | ⟨-, hbreak, -⟩ := c.extent_cases all
    · exact hextent.symm
    · exact absurd ⟨hkind, hends ⟨_, hpair.1, rfl⟩⟩ hnone
    · exact absurd ⟨hkind, hends hbreak⟩ hnone

/-- After a block comment it goes on at the end of the comment. -/
theorem Span.next_of_block (hkind : c.kind = .blockComment) : c.next all = c.stop := by
  rw [Span.next, if_neg fun hline => Kind.noConfusion (hkind.symm.trans hline.1)]

/-- No comment begins in the line break directly after another one. -/
theorem Phased.extent_le_start (h : Phased all (c.next all) later) (hs : s ∈ later)
    (hcomment : s.isComment = true) : c.extent all ≤ s.start := by
  have hnext := c.stop_le_next all
  have hstart := h.le_start s hs
  by_contra hlt
  obtain ⟨b, hb, hbreak⟩ := Span.breakAt_of_lt_extent (hnext.trans hstart) (Nat.lt_of_not_le hlt)
  rw [(h.tiled.holds s hs).1.slash_at_start hcomment] at hb
  obtain rfl := Option.some.inj hb
  exact absurd hbreak (by decide)

/-- Later comments account for nothing before the extent of an earlier one. -/
theorem Phased.accountsFor_of_lt (h : Phased all (c.next all) later) (hs : s ∈ later)
    (hi : i < c.extent all) (hfeed : all[i]? = some lineFeed) : s.accountsFor all i = false := by
  cases hcomment : s.isComment with
  | false => exact Span.accountsFor_of_not_isComment hcomment
  | true =>
    have hstart := h.extent_le_start hs hcomment
    exact Span.accountsFor_of_outside (h.tiled.start_lt_stop s hs).le (.inl (by omega)) hfeed

/-- A span of plain text accounts for nothing. -/
theorem accountsFor_plainText (hs : s ∈ plainText start stop) : s.accountsFor all i = false :=
  Span.accountsFor_of_not_isComment (by rw [eq_of_mem_plainText hs]; rfl)

/-- After a comment, the line break that comes first is cut off. -/
theorem Phased.nakedFeeds_next (h : Phased all (c.next all) later) :
    nakedFeeds all later (c.next all) all.length
      = nakedFeeds all [] (c.next all) (c.extent all)
        + nakedFeeds all later (c.extent all) all.length := by
  have hlength := Span.extent_le_length ((c.stop_le_next all).trans h.le_length)
  rw [nakedFeeds_cut all later (c.next_le_extent all) hlength,
    nakedFeeds_eq_nil fun s hs i _ hi hfeed => h.accountsFor_of_lt hs hi hfeed]

/-- A comment is cut off with the line break that comes after it. -/
theorem Phased.nakedFeeds_comment (h : Phased all (c.next all) later) (hle : pos ≤ c.start)
    (hlt : c.start < c.stop) (hcomment : c.isComment = true) :
    nakedFeeds all (plainText pos c.start ++ c :: later) pos all.length
      = nakedFeeds all [] pos c.start + nakedFeeds all later (c.extent all) all.length := by
  have hextent := c.stop_le_extent all
  have hlength := Span.extent_le_length ((c.stop_le_next all).trans h.le_length)
  have hspans : plainText pos c.start ++ c :: later = plainText pos c.start ++ [c] ++ later := by
    rw [List.append_assoc, List.singleton_append]
  -- No comment accounts for the text before, this one for all up to its extent, and only later ones
  -- for what comes then.
  have hbefore : nakedFeeds all (plainText pos c.start ++ c :: later) pos c.start
      = nakedFeeds all [] pos c.start := by
    refine nakedFeeds_eq_nil fun s hs i _ hi hfeed => ?_
    rcases List.mem_append.mp hs with hs | hs
    · exact accountsFor_plainText hs
    rcases List.mem_cons.mp hs with rfl | hs
    · exact Span.accountsFor_of_outside hlt.le (.inl hi) hfeed
    · exact h.accountsFor_of_lt hs (by omega) hfeed
  have hwithin : nakedFeeds all (plainText pos c.start ++ c :: later) c.start (c.extent all) = 0 :=
    nakedFeeds_eq_zero (List.mem_append_right _ List.mem_cons_self) fun i hi hi' hfeed =>
      (Span.accountsFor_iff hcomment hlt.le hfeed).mpr ⟨hi, hi'⟩
  have hafter : nakedFeeds all (plainText pos c.start ++ c :: later) (c.extent all) all.length
      = nakedFeeds all later (c.extent all) all.length := by
    rw [hspans]
    refine nakedFeeds_append fun s hs i hi _ hfeed => ?_
    rcases List.mem_append.mp hs with hs | hs
    · exact accountsFor_plainText hs
    · obtain rfl := List.mem_singleton.mp hs
      exact Span.accountsFor_of_outside hlt.le (.inr hi) hfeed
  calc nakedFeeds all (plainText pos c.start ++ c :: later) pos all.length
      = nakedFeeds all (plainText pos c.start ++ c :: later) pos c.start
        + (nakedFeeds all (plainText pos c.start ++ c :: later) c.start (c.extent all)
          + nakedFeeds all (plainText pos c.start ++ c :: later) (c.extent all) all.length) := by
        rw [← nakedFeeds_cut all _ (by omega) hlength, ← nakedFeeds_cut all _ hle (by omega)]
    _ = nakedFeeds all [] pos c.start + nakedFeeds all later (c.extent all) all.length := by
        rw [hbefore, hwithin, hafter, Nat.zero_add]

/-! ### The line break after a comment -/

/-- Between two offsets that follow each other there is a line feed or none. -/
theorem nakedFeeds_one (all : List UInt8) (pos : Nat) :
    nakedFeeds all [] pos (pos + 1) = if all[pos]? == some lineFeed then 1 else 0 := by
  rw [nakedFeeds, Nat.add_sub_cancel_left, List.range'_one, List.countP_singleton, List.all_nil,
    Bool.and_true]

/-- What the scanner reads of the line break after a comment has one line feed if the comment is a
    block comment that ends its line, and none otherwise. -/
theorem Span.Holds.feeds_next (h : c.Holds all) (hcomment : c.isComment = true)
    (hpaired : EachFollowedBy carriageReturn lineFeed all) :
    nakedFeeds all [] (c.next all) (c.extent all)
      = if c.kind == .blockComment && c.endsLine then 1 else 0 := by
  have hends : c.endsLine = true ↔ BreakAt all c.stop := h.endsLine.trans (and_iff_right hcomment)
  cases hkind : c.kind with
  | text => simp [Span.isComment, hkind] at hcomment
  | lineComment =>
    rw [h.next_of_line hkind, nakedFeeds_self]
    rfl
  | blockComment =>
    rw [Span.next_of_block hkind, beq_self_eq_true, Bool.true_and]
    obtain ⟨hextent, hnone⟩ | ⟨hextent, hreturn, hfeed⟩ | ⟨hextent, hbreak, hpair⟩ :=
      c.extent_cases all
    · rw [hextent, nakedFeeds_self, if_neg (hends.not.mpr hnone)]
    · rw [hextent, nakedFeeds_cut all [] (Nat.le_succ _) (Nat.le_succ _), nakedFeeds_one,
        nakedFeeds_one, hreturn, hfeed, if_pos (hends.mpr ⟨_, hreturn, rfl⟩)]
      rfl
    · -- A carriage return would have a line feed after it.
      obtain ⟨b, hb, hbyte⟩ := hbreak
      have hfeed : b = lineFeed := by
        simp only [isBreakByte, Bool.or_eq_true, beq_iff_eq] at hbyte
        exact hbyte.resolve_right fun hreturn => hpair ⟨hreturn ▸ hb, hpaired _ (hreturn ▸ hb)⟩
      rw [hextent, nakedFeeds_one, hb, hfeed, if_pos (hends.mpr ⟨b, hb, hbyte⟩)]
      rfl

end

/-! ### Whole texts -/

section

variable {text : String} {spans more later : List Span} {c : Span} {pos stop : Nat}

/-- Line breaks are counted part by part. -/
theorem breaksWithin_append :
    breaksWithin text (spans ++ more) = breaksWithin text spans + breaksWithin text more := by
  induction spans with
  | nil => rw [List.nil_append, breaksWithin, Nat.zero_add]
  | cons s spans ih => rw [List.cons_append, breaksWithin, breaksWithin, ih, Nat.add_assoc]

/-- A stretch of text has the line feeds that lie in it. -/
theorem breaksWithin_plainText (hle : pos ≤ stop) (hbounds : ∀ s ∈ plainText pos stop,
      IsBoundary text s.start ∧ IsBoundary text s.stop) :
    breaksWithin text (plainText pos stop) = nakedFeeds (bytes text) [] pos stop := by
  rcases Nat.eq_or_lt_of_le hle with rfl | hlt
  · rw [nakedFeeds_self, plainText, if_neg (Nat.lt_irrefl _), breaksWithin]
  · rw [plainText, if_pos hlt] at hbounds ⊢
    obtain ⟨hstart, hstop⟩ := hbounds _ List.mem_cons_self
    rw [breaksWithin, breaksWithin, Nat.add_zero, Span.textIn, countBreaks_slice hstart hstop hle]
    simp only [nakedFeeds, List.all_nil, Bool.and_true]

/-- Plain text is all plain text, -/
theorem filter_text_plainText :
    (plainText pos stop).filter (·.kind == .text) = plainText pos stop :=
  List.filter_eq_self.mpr fun s hs => by rw [eq_of_mem_plainText hs]; rfl

/-- and has no block comment that ends its line. -/
theorem filter_block_plainText :
    (plainText pos stop).filter (fun s => s.kind == .blockComment && s.endsLine) = [] :=
  List.filter_eq_nil_iff.mpr fun s hs => by rw [eq_of_mem_plainText hs]; exact Bool.false_ne_true

/-- **Line feeds in the text of a scan.**  They are the naked ones, and one for each block comment
    that ends its line. -/
theorem Phased.breaksWithin_eq (h : Phased (bytes text) pos spans)
    (hpaired : EachFollowedBy carriageReturn lineFeed (bytes text))
    (hbounds : ∀ s ∈ spans, IsBoundary text s.start ∧ IsBoundary text s.stop) :
    breaksWithin text (spans.filter (·.kind == .text))
      = nakedFeeds (bytes text) spans pos (bytes text).length
        + (spans.filter fun s => s.kind == .blockComment && s.endsLine).length := by
  induction h with
  | @text pos hle =>
    rw [filter_text_plainText, filter_block_plainText, breaksWithin_plainText hle hbounds,
      nakedFeeds_eq_nil fun s hs i _ _ _ => accountsFor_plainText hs, List.length_nil, Nat.add_zero]
  | @comment pos c later hle hlt hcomment hholds _ hlater ih =>
    have hbefore : ∀ s ∈ plainText pos c.start, IsBoundary text s.start ∧ IsBoundary text s.stop :=
      fun s hs => hbounds s (List.mem_append_left _ hs)
    have hafter : ∀ s ∈ later, IsBoundary text s.start ∧ IsBoundary text s.stop :=
      fun s hs => hbounds s (List.mem_append_right _ (List.mem_cons_of_mem c hs))
    have htexts : (plainText pos c.start ++ c :: later).filter (·.kind == .text)
        = plainText pos c.start ++ later.filter (·.kind == .text) := by
      have hkind : ¬ (c.kind == .text) = true := by simpa [Span.isComment] using hcomment
      rw [List.filter_append, filter_text_plainText, List.filter_cons, if_neg hkind]
    have hblocks : ((plainText pos c.start ++ c :: later).filter fun s =>
          s.kind == .blockComment && s.endsLine).length
        = (if c.kind == .blockComment && c.endsLine then 1 else 0)
          + (later.filter fun s => s.kind == .blockComment && s.endsLine).length := by
      rw [List.filter_append, filter_block_plainText, List.nil_append, List.filter_cons]
      split
      · rw [List.length_cons, Nat.add_comm]
      · rw [Nat.zero_add]
    -- The line feed that the comment takes away is the one that is counted before its extent.
    rw [htexts, hblocks, breaksWithin_append, breaksWithin_plainText hle hbefore, ih hafter,
      hlater.nakedFeeds_next, hlater.nakedFeeds_comment hle hlt hcomment,
      hholds.feeds_next hcomment hpaired]
    omega

/-- **The count of naked line breaks is exact.**  In a text in which each carriage return has a line
    feed directly after it, there are no more block comments that end their lines than line feeds in
    stretches of text, and the difference is the number of line feeds that are outside of comments,
    do not end a line comment and do not come directly after a block comment. -/
theorem countNakedBreaks_exact {text : String} (h : EachFollowedBy '\r' '\n' text.toList) :
    let spans := scan text 0 (some (bytes text).length)
    let inPlainText := breaksWithin text (spans.filter (·.kind == .text))
    let endingLines := (spans.filter fun s => s.kind == .blockComment && s.endsLine).length
    countNakedBreaks text = inPlainText - endingLines ∧ endingLines ≤ inPlainText
      ∧ countNakedBreaks text = nakedFeeds (bytes text) spans 0 (bytes text).length := by
  intro spans inPlainText endingLines
  have hsize : (bytes text).length ≤ text.utf8ByteSize := Nat.le_of_eq (length_bytes text)
  have hstop : IsBoundary text (bytes text).length := length_bytes text ▸ isBoundary_size text
  have hphased := phased_scan (Nat.zero_le _) hsize
  rw [List.take_length] at hphased
  have hbounds := isBoundary_of_mem_scan (Nat.zero_le _) (isBoundary_zero text) hstop
  have hsum : inPlainText = nakedFeeds (bytes text) spans 0 (bytes text).length + endingLines :=
    hphased.breaksWithin_eq h.encode hbounds
  have hcount : countNakedBreaks text = inPlainText - endingLines := rfl
  exact ⟨hcount, by omega, by omega⟩

/-- Line breaks of both kinds in block comments, after them and at the ends of line comments, a
    block comment in the middle of a line, and one that is not closed. -/
theorem countNakedBreaks_exact_mixed :
    let text := "a\r\n/* b\r\n*/\r\n\r\n// c\r\n/* d */ e\n/*f*/\n/*\n"
    let spans := scan text 0 (some (bytes text).length)
    let inPlainText := breaksWithin text (spans.filter (·.kind == .text))
    let endingLines := (spans.filter fun s => s.kind == .blockComment && s.endsLine).length
    EachFollowedBy '\r' '\n' text.toList ∧ inPlainText = 5 ∧ endingLines = 2
      ∧ countNakedBreaks text = inPlainText - endingLines ∧ endingLines ≤ inPlainText
      ∧ countNakedBreaks text = 3
      ∧ nakedFeeds (bytes text) spans 0 (bytes text).length = 3 := by
  intro text spans inPlainText endingLines
  have hpaired : EachFollowedBy '\r' '\n' text.toList := by decide +kernel
  have hplain : inPlainText = 5 := by decide +kernel
  have hending : endingLines = 2 := by decide +kernel
  obtain ⟨hcount, hle, hnaked⟩ := countNakedBreaks_exact hpaired
  have hthree : countNakedBreaks text = 3 := by decide +kernel
  exact ⟨hpaired, hplain, hending, hcount, hle, hthree, hnaked.symm.trans hthree⟩

-- A carriage return without a line feed after a block comment takes a line feed elsewhere away.
example : let text := "/**/\rx\n"
    countNakedBreaks text = 0
      ∧ nakedFeeds (bytes text) (scan text 0 (some 7)) 0 7 = 1 := by decide +kernel

end

end Transcode.Trivia
