import Transcode.Proofs.Tiling

namespace Transcode.Trivia

open Text

/-!
# Scans in phase

A scan that begins later finds what the first one found, as long as it begins outside of comments:
within a stretch of text, or where a comment is over.  So a scan is the text before the first
comment, that comment, and what a scan finds that begins after it; and a scan that begins within
that text finds the same, but for the part of the text that it does not see (`Phased`).

The bytes scanned are those of a text before some limit, which stays the same: a scan with another
limit may find other comments.
-/

/-- What is found from an offset to the end. -/
def rescan (all : List UInt8) (pos : Nat) : List Span :=
  inText true pos pos (all.drop pos)

/-- Spans from an offset to the end, of which scans that begin within a stretch of text find the
    same. -/
inductive Phased (all : List UInt8) : Nat → List Span → Prop
  /-- There is no comment. -/
  | text {pos : Nat} : pos ≤ all.length →
      (∀ m, pos ≤ m → m ≤ all.length → rescan all m = plainText m all.length) →
      Phased all pos (plainText pos all.length)
  /-- There is text up to a comment, and the rest after it. -/
  | comment {pos : Nat} {c : Span} {later : List Span} : pos ≤ c.start → c.start < c.stop →
      c.isComment = true → c.Holds all →
      (∀ m, pos ≤ m → m ≤ c.start → rescan all m = plainText m c.start ++ c :: later) →
      Phased all (c.next all) later → Phased all pos (plainText pos c.start ++ c :: later)

variable {all : List UInt8}

theorem Span.stop_le_next (c : Span) (all : List UInt8) : c.stop ≤ c.next all := by
  rw [Span.next]
  split
  · exact Nat.le_add_right _ _
  · exact Nat.le_refl _

/-- What tiles the rest begins within it. -/
theorem Tiled.le_length {pos : Nat} {spans : List Span} (h : Tiled all pos spans) :
    pos ≤ all.length := by
  induction h with
  | done => exact Nat.le_refl _
  | @span pos s rest _ hlt _ _ _ ih =>
    have hnext := s.stop_le_next all
    omega

/-- What comes first, and the rest. -/
theorem Tiled.head {s : Span} {rest : List Span} {pos : Nat} (h : Tiled all pos (s :: rest)) :
    pos < s.stop ∧ s.Holds all ∧ Tiled all (s.next all) rest := by
  cases h with
  | span _ hlt hholds _ hrest => exact ⟨hlt, hholds, hrest⟩

/-- What is said of the spans of a tiling is so, and they are within it. -/
theorem Tiled.holds {pos : Nat} {spans : List Span} (h : Tiled all pos spans) :
    ∀ s ∈ spans, s.Holds all ∧ s.stop ≤ all.length := by
  induction h with
  | done => exact List.forall_mem_nil _
  | @span pos s rest _ _ hholds _ hrest ih =>
    exact List.forall_mem_cons.mpr ⟨⟨hholds, (s.stop_le_next all).trans hrest.le_length⟩, ih⟩

/-! ### One comment -/

theorem rescan_length : rescan all all.length = [] := by
  rw [rescan, List.drop_length, inText, plainText, if_neg (Nat.lt_irrefl _)]

/-- A line comment, and what a scan finds that begins after it. -/
theorem inLine_eq (start : Nat) {pos : Nat} {bs : List UInt8} (hbs : all.drop pos = bs)
    (hpos : pos ≤ all.length) :
    ∃ c : Span, c.start = start ∧ c.isComment = true
      ∧ inLine true start pos bs = c :: rescan all (c.next all) := by
  induction bs generalizing pos with
  | nil =>
    obtain rfl := eq_length_of_drop hbs hpos
    refine ⟨⟨.lineComment, start, all.length, false⟩, rfl, rfl, ?_⟩
    rw [inLine, Span.next, if_neg (fun h => Bool.noConfusion h.2), rescan_length]
  | cons b rest ih =>
    by_cases hbreak : startsWithBreak (b :: rest) = true
    · refine ⟨⟨.lineComment, start, pos, true⟩, rfl, rfl, ?_⟩
      rw [inLine_break hbreak, Span.next, if_pos ⟨rfl, rfl⟩, hbs, rescan, ← List.drop_drop, hbs]
    · rw [inLine_cons (Bool.eq_false_iff.mpr hbreak)]
      exact ih (drop_of_drop hbs) (lt_length_of_drop hbs)

/-- A block comment, and what a scan finds that begins after it. -/
theorem inBlock_eq (start : Nat) {pos : Nat} {bs : List UInt8} (hbs : all.drop pos = bs)
    (hpos : pos ≤ all.length) :
    ∃ c : Span, c.start = start ∧ c.isComment = true
      ∧ inBlock true start pos bs = c :: rescan all (c.next all) := by
  have hnext : ∀ {stop : Nat} {endsLine : Bool},
      Span.next all ⟨.blockComment, start, stop, endsLine⟩ = stop := by
    intro stop endsLine
    rw [Span.next, if_neg (fun h => Kind.noConfusion h.1)]
  induction bs generalizing pos with
  | nil =>
    obtain rfl := eq_length_of_drop hbs hpos
    refine ⟨⟨.blockComment, start, all.length, false⟩, rfl, rfl, ?_⟩
    rw [inBlock, hnext, rescan_length]
  | cons b rest ih =>
    obtain ⟨rest, rfl, rfl⟩ | hopen := pair_cases star slash b rest
    · refine ⟨⟨.blockComment, start, pos + 2, startsWithBreak rest⟩, rfl, rfl, ?_⟩
      have hrest : all.drop (pos + 2) = rest := drop_of_drop (drop_of_drop hbs)
      rw [inBlock_close, hnext, rescan, hrest]
    · rw [inBlock_cons hopen]
      exact ih (drop_of_drop hbs) (lt_length_of_drop hbs)

/-! ### Text up to a comment -/

/-- What comes after a stretch of text that ends at an offset: nothing at the end, and elsewhere a
    comment. -/
def AfterText (all : List UInt8) (stop : Nat) (spans : List Span) : Prop :=
  stop = all.length ∧ spans = []
    ∨ ∃ c : Span, c.start = stop ∧ c.isComment = true ∧ spans = c :: rescan all (c.next all)

/-- There is a stretch of text between two offsets, and from anywhere in it on the same is found
    after it. -/
structure TextTo (all : List UInt8) (pos stop : Nat) (spans : List Span) : Prop where
  le : pos ≤ stop
  le_length : stop ≤ all.length
  after : AfterText all stop spans
  same : ∀ m, pos ≤ m → m ≤ stop → ∀ opened,
    inText true opened m (all.drop m) = plainText opened stop ++ spans

/-- At the beginning of a comment, or at the end, there is no text left. -/
theorem TextTo.here {pos : Nat} {bs : List UInt8} {spans : List Span} (hbs : all.drop pos = bs)
    (hpos : pos ≤ all.length) (hafter : AfterText all pos spans)
    (hspans : ∀ opened, inText true opened pos bs = plainText opened pos ++ spans) :
    TextTo all pos pos spans := by
  refine ⟨Nat.le_refl pos, hpos, hafter, fun m hm hm' opened => ?_⟩
  obtain rfl := Nat.le_antisymm hm hm'
  rw [hbs, hspans]

/-- Every offset is in some stretch of text, which may be empty. -/
theorem exists_textTo {pos : Nat} {bs : List UInt8} (hbs : all.drop pos = bs)
    (hpos : pos ≤ all.length) :
    ∃ stop spans, TextTo all pos stop spans := by
  induction bs generalizing pos with
  | nil =>
    obtain rfl := eq_length_of_drop hbs hpos
    exact ⟨_, [], .here hbs hpos (.inl ⟨rfl, rfl⟩) fun opened => by rw [inText, List.append_nil]⟩
  | cons b rest ih =>
    have hlt := lt_length_of_drop hbs
    have hrest := drop_of_drop hbs
    obtain ⟨rest, rfl, rfl⟩ | hline := pair_cases slash slash b rest
    · obtain ⟨c, hstart, hcomment, hc⟩ :=
        inLine_eq pos (drop_of_drop hrest) (lt_length_of_drop hrest)
      have hafter : AfterText all pos (c :: rescan all (c.next all)) :=
        .inr ⟨c, hstart, hcomment, rfl⟩
      exact ⟨pos, _, .here hbs hpos hafter fun opened => hc ▸ inText_line⟩
    obtain ⟨rest, rfl, rfl⟩ | hblock := pair_cases slash star b rest
    · obtain ⟨c, hstart, hcomment, hc⟩ :=
        inBlock_eq pos (drop_of_drop hrest) (lt_length_of_drop hrest)
      have hafter : AfterText all pos (c :: rescan all (c.next all)) :=
        .inr ⟨c, hstart, hcomment, rfl⟩
      exact ⟨pos, _, .here hbs hpos hafter fun opened => hc ▸ inText_block⟩
    · -- No comment begins here, so that the stretch goes on.
      obtain ⟨stop, spans, hle, hle', hafter, hspans⟩ := ih hrest hlt
      refine ⟨stop, spans, Nat.le_of_succ_le hle, hle', hafter, fun m hm hm' opened => ?_⟩
      rcases Nat.eq_or_lt_of_le hm with rfl | hm
      · rw [hbs, inText_cons hline hblock, Bool.or_true, if_pos rfl, ← hrest]
        exact hspans (pos + 1) (Nat.le_refl _) hle opened
      · exact hspans m hm hm' opened

/-- A stretch of text is one span, if it is any. -/
theorem eq_of_mem_plainText {pos stop : Nat} {s : Span} (h : s ∈ plainText pos stop) :
    s = ⟨.text, pos, stop, false⟩ := by
  rw [plainText] at h
  split at h
  · exact List.mem_singleton.mp h
  · cases h

/-! ### Whole scans -/

theorem tiled_rescan {pos : Nat} (hpos : pos ≤ all.length) : Tiled all pos (rescan all pos) :=
  tiled_inText _ rfl hpos (Nat.le_refl pos) (forall_lt_self pos)

/-- Every scan is in phase with those that begin later in its text. -/
theorem phased {pos : Nat} (hpos : pos ≤ all.length) : Phased all pos (rescan all pos) := by
  obtain ⟨stop, spans, hle, hle', hafter, hspans⟩ := exists_textTo rfl hpos
  have hrescan : ∀ m, pos ≤ m → m ≤ stop → rescan all m = plainText m stop ++ spans :=
    fun m hm hm' => hspans m hm hm' m
  rcases hafter with ⟨rfl, rfl⟩ | ⟨c, rfl, hcomment, rfl⟩
  · simp only [List.append_nil] at hrescan
    rw [hrescan pos (Nat.le_refl pos) hle]
    exact .text hpos hrescan
  · have htiled := tiled_rescan hle'
    rw [hrescan c.start hle (Nat.le_refl _), plainText, if_neg (Nat.lt_irrefl _)] at htiled
    obtain ⟨hlt, hholds, hrest⟩ := htiled.head
    have hnext := c.stop_le_next all
    have hlength := hrest.le_length
    -- A comment is not empty: less is left after it.
    have hless : all.length - c.next all < all.length - pos := by omega
    rw [hrescan pos (Nat.le_refl pos) hle]
    exact .comment hle hlt hcomment hholds hrescan (phased hlength)
termination_by all.length - pos

/-- A scan in phase is a scan. -/
theorem Phased.rescan_eq {pos : Nat} {spans : List Span} (h : Phased all pos spans) :
    rescan all pos = spans := by
  cases h with
  | text hle hsame => exact hsame pos (Nat.le_refl pos) hle
  | comment hle _ _ _ hsame _ => exact hsame pos (Nat.le_refl pos) hle

theorem Phased.le_length {pos : Nat} {spans : List Span} (h : Phased all pos spans) :
    pos ≤ all.length := by
  induction h with
  | text hle => exact hle
  | @comment pos c later hle hlt _ _ _ _ ih =>
    have hnext := c.stop_le_next all
    omega

/-- Its spans begin where it does or later. -/
theorem Phased.le_start {pos : Nat} {spans : List Span} (h : Phased all pos spans) :
    ∀ s ∈ spans, pos ≤ s.start := by
  have hplain : ∀ {pos stop : Nat}, ∀ s ∈ plainText pos stop, pos ≤ s.start :=
    fun s hs => eq_of_mem_plainText hs ▸ Nat.le_refl _
  induction h with
  | text => exact hplain
  | @comment pos c later hle hlt _ _ _ _ ih =>
    have hnext := c.stop_le_next all
    intro s hs
    rcases List.mem_append.mp hs with hs | hs
    · exact hplain s hs
    rcases List.mem_cons.mp hs with rfl | hs
    · exact hle
    · have hlater := ih s hs
      omega

theorem Phased.pairwise_start {pos : Nat} {spans : List Span} (h : Phased all pos spans) :
    (spans.map Span.start).Pairwise (· < ·) := by
  have hplain : ∀ {pos start : Nat} {spans : List Span}, (∀ s ∈ spans, start ≤ s.start) →
      (spans.map Span.start).Pairwise (· < ·) →
      ((plainText pos start ++ spans).map Span.start).Pairwise (· < ·) := by
    intro pos start spans hstarts hspans
    rw [plainText]
    split
    · rename_i hlt
      refine List.pairwise_cons.mpr ⟨List.forall_mem_map.mpr fun s hs => ?_, hspans⟩
      exact Nat.lt_of_lt_of_le hlt (hstarts s hs)
    · exact hspans
  induction h with
  | text =>
    rw [← List.append_nil (plainText _ _)]
    exact hplain (List.forall_mem_nil _) .nil
  | @comment pos c later _ hlt _ _ _ hlater ih =>
    have hnext := c.stop_le_next all
    have hafter : ∀ s ∈ later, c.start < s.start := fun s hs => by
      have hs := hlater.le_start s hs
      omega
    refine hplain (List.forall_mem_cons.mpr ⟨Nat.le_refl _, fun s hs => Nat.le_of_lt (hafter s hs)⟩)
      (List.pairwise_cons.mpr ⟨List.forall_mem_map.mpr hafter, ih⟩)

/-! ### The first comment -/

/-- Where the first comment begins, or else the end. -/
def firstStart (stop : Nat) (spans : List Span) : Nat :=
  ((firstComment? spans).map Span.start).getD stop

section

variable {pos start stop : Nat} {c : Span} {spans : List Span}

theorem firstStart_cons (h : c.isComment = true) : firstStart stop (c :: spans) = c.start := by
  rw [firstStart, firstComment?, List.find?_cons_of_pos h]
  rfl

theorem firstComment?_plainText :
    firstComment? (plainText pos start ++ spans) = firstComment? spans := by
  rw [plainText]
  split <;> rfl

theorem firstStart_plainText :
    firstStart stop (plainText pos start ++ spans) = firstStart stop spans := by
  rw [firstStart, firstComment?_plainText]
  rfl

/-- A scan is text up to the first comment, and what comes then. -/
theorem Phased.exists_append (h : Phased all pos spans) :
    ∃ rest, spans = plainText pos (firstStart all.length spans) ++ rest
      ∧ pos ≤ firstStart all.length spans ∧ firstStart all.length spans ≤ all.length := by
  cases h with
  | text hle hsame =>
    have hfirst : firstStart all.length (plainText pos all.length ++ []) = all.length :=
      firstStart_plainText
    rw [List.append_nil] at hfirst
    rw [hfirst]
    exact ⟨[], (List.append_nil _).symm, hle, Nat.le_refl _⟩
  | @comment _ c later hle hlt hcomment _ _ hlater =>
    have hnext := c.stop_le_next all
    have hlength := hlater.le_length
    rw [firstStart_plainText, firstStart_cons hcomment]
    exact ⟨c :: later, rfl, hle, by omega⟩

end

/-! ### Limits -/

/-- A scan with a limit goes on to the end of what is before it. -/
theorem scan_eq_rescan {text : String} {start stop : Nat} (h : start ≤ stop)
    (h' : stop ≤ text.utf8ByteSize) :
    scan text start (some stop) = rescan ((bytes text).take stop) start := by
  rw [← length_bytes] at h'
  rw [scan_eq_window h', Nat.min_eq_left h, rescan, List.drop_take]
  rfl

theorem phased_scan {text : String} {start stop : Nat} (h : start ≤ stop)
    (h' : stop ≤ text.utf8ByteSize) :
    Phased ((bytes text).take stop) start (scan text start (some stop)) := by
  rw [scan_eq_rescan h h']
  exact phased ((length_take_bytes h').symm ▸ h)

/-- Between an offset and itself nothing is found. -/
theorem scan_self {text : String} {stop : Nat} (h : stop ≤ text.utf8ByteSize) :
    scan text stop (some stop) = [] := by
  rw [← length_bytes] at h
  rw [scan_eq_window h, Nat.min_self, window_of_le text (Nat.le_refl stop), inText, plainText,
    if_neg (Nat.lt_irrefl _)]

end Transcode.Trivia
