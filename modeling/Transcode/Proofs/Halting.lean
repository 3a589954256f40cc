import Transcode.Proofs.Gaps
import Transcode.Proofs.Tiling

namespace Transcode.Trivia

open Text

/-!
# Scans that end by themselves

A scan without a limit ends where no trivia come next (`NoTrivia`): at the end of the text, or at a
byte that is no space and begins no comment.  It finds the same as a scan with the limit there, and
a scan from there finds nothing (`skipTrivia_ends`).  So the comments before a node are found
between the beginning of its leading trivia and its first token, and whatever comes after makes no
difference (`abuts_of_parse`).
-/

variable {text : String} {opened pos start k : Nat} {b : UInt8} {bs before : List UInt8}

/-! ### Where no trivia come next -/

/-- The bytes do not begin with trivia: there are none, or the first one is no space and begins no
    comment. -/
def NoTrivia (bs : List UInt8) : Prop :=
  ∀ b rest, bs = b :: rest → isSpaceByte b = false
    ∧ (b = slash → rest.head? ≠ some slash ∧ rest.head? ≠ some star)

theorem noTrivia_nil : NoTrivia [] :=
  nofun

/-- A line break is trivia. -/
theorem NoTrivia.startsWithBreak (h : NoTrivia bs) : startsWithBreak bs = false := by
  cases bs with
  | nil => rfl
  | cons b rest =>
    refine Bool.eq_false_iff.mpr fun hbreak => ?_
    have hspace := isSpaceByte_of_isBreakByte hbreak
    rw [(h b rest rfl).1] at hspace
    cases hspace

/-- A scan finds nothing there. -/
theorem NoTrivia.inText (h : NoTrivia bs) : inText false pos pos bs = [] := by
  have hnone : plainText pos pos = [] := if_neg (Nat.lt_irrefl pos)
  cases bs with
  | nil => rw [Trivia.inText, hnone]
  | cons b rest =>
    obtain ⟨hspace, hopen⟩ := h b rest rfl
    rw [inText_stop hspace (fun hb => (hopen hb).1) (fun hb => (hopen hb).2), hnone]

/-- Either the text is over, or there is a byte that is neither a space nor the beginning of a
    comment. -/
theorem NoTrivia.cases {all : List UInt8} (h : NoTrivia (all.drop pos)) (hpos : pos ≤ all.length) :
    pos = all.length ∨ ∃ b, all[pos]? = some b ∧ isSpaceByte b = false ∧ ¬ OpensAt all pos := by
  cases hdrop : all.drop pos with
  | nil => exact .inl (eq_length_of_drop hdrop hpos)
  | cons b rest =>
    obtain ⟨hspace, hopen⟩ := h b rest hdrop
    refine .inr ⟨b, getElem?_of_drop hdrop, hspace, ?_⟩
    rw [OpensAt, pairAt_iff hdrop, pairAt_iff hdrop]
    rintro (⟨hb, hhead⟩ | ⟨hb, hhead⟩)
    · exact (hopen hb).1 hhead
    · exact (hopen hb).2 hhead

/-! ### Scans that end -/

/-- The scan of some bytes ends after `k` of them.  It finds the same with the limit there, and no
    trivia come next. -/
structure EndsAfter (text : String) (opened pos : Nat) (bs : List UInt8) (k : Nat)
    (spans limited : List Span) : Prop where
  reach : endFrom text opened spans = pos + k
  same : limited = spans
  rest : NoTrivia (bs.drop k)

/-- Scans of the last `size` bytes of a text at most. -/
structure Halts (text : String) (size : Nat) : Prop where
  inText : ∀ {pos bs before}, bs.length ≤ size → bytes text = before ++ bs → before.length = pos →
    ∃ k ≤ bs.length, ∀ opened ≤ pos,
      EndsAfter text opened pos bs k (inText false opened pos bs)
        (Trivia.inText true opened pos (bs.take k))
  inLine : ∀ {pos start bs before}, bs.length ≤ size → bytes text = before ++ bs →
    before.length = pos → ∃ k ≤ bs.length, ∀ opened,
      EndsAfter text opened pos bs k (inLine false start pos bs)
        (Trivia.inLine true start pos (bs.take k))
  inBlock : ∀ {pos start bs before}, bs.length ≤ size → bytes text = before ++ bs →
    before.length = pos → ∃ k ≤ bs.length, ∀ opened,
      EndsAfter text opened pos bs k (inBlock false start pos bs)
        (Trivia.inBlock true start pos (bs.take k))

theorem head?_take_ne (h : bs.head? ≠ some b) : (bs.take k).head? ≠ some b := by
  cases k with
  | zero => exact nofun
  | succ k =>
    cases bs with
    | nil => exact h
    | cons b' bs => exact h

/-- The first bytes, up to where no trivia come next, begin with a line break if all of them do. -/
theorem startsWithBreak_take (h : NoTrivia (bs.drop k)) :
    startsWithBreak (bs.take k) = startsWithBreak bs := by
  cases k with
  | zero => exact h.startsWithBreak.symm
  | succ k => cases bs <;> rfl

/-- A line break is the first of the first bytes, if they go beyond it. -/
theorem take_break (hbreak : startsWithBreak bs = true) (k : Nat) :
    breakWidth (bs.take (breakWidth bs + k)) = breakWidth bs
      ∧ (bs.take (breakWidth bs + k)).drop (breakWidth bs) = (bs.drop (breakWidth bs)).take k := by
  refine ⟨?_, by rw [List.drop_take, Nat.add_sub_cancel_left]⟩
  obtain ⟨rest, rfl⟩ | ⟨b, rest, rfl, hb, hpair⟩ := break_cases hbreak
  · show breakWidth (List.take (2 + k) _) = 2
    rw [Nat.add_comm]
    rfl
  · rw [breakWidth_eq_one hb hpair, Nat.add_comm, List.take_succ_cons]
    refine breakWidth_eq_one hb fun rest' hreturn htake => ?_
    have hne : (rest.take k).head? ≠ some lineFeed := head?_take_ne fun hhead => by
      obtain ⟨rest'', hrest⟩ := List.head?_eq_some_iff.mp hhead
      exact hpair rest'' hreturn hrest
    rw [htake] at hne
    exact hne rfl

/-- Some text before the marker of a comment, and what a scan finds from there. -/
theorem EndsAfter.plainText {b' : UInt8} {spans limited : List Span} (hopened : opened ≤ pos)
    (h : EndsAfter text pos (pos + 2) bs k spans limited) :
    EndsAfter text opened pos (b :: b' :: bs) (k + 2) (plainText opened pos ++ spans)
      (Trivia.plainText opened pos ++ limited) := by
  refine ⟨?_, by rw [h.same], h.rest⟩
  rw [endFrom_append, endFrom_plainText hopened, h.reach]
  omega

theorem Halts.zero : Halts text 0 where
  inText hsize _ _ := by
    obtain rfl := List.eq_nil_of_length_eq_zero (Nat.le_zero.mp hsize)
    exact ⟨0, Nat.le_refl 0, fun opened hopened =>
      ⟨endFrom_plainText hopened, rfl, noTrivia_nil⟩⟩
  inLine hsize _ _ := by
    obtain rfl := List.eq_nil_of_length_eq_zero (Nat.le_zero.mp hsize)
    exact ⟨0, Nat.le_refl 0, fun opened => ⟨rfl, rfl, noTrivia_nil⟩⟩
  inBlock hsize _ _ := by
    obtain rfl := List.eq_nil_of_length_eq_zero (Nat.le_zero.mp hsize)
    exact ⟨0, Nat.le_refl 0, fun opened => ⟨rfl, rfl, noTrivia_nil⟩⟩

section

variable {size : Nat} (ih : Halts text size)
include ih

theorem Halts.inText_succ (hsize : bs.length ≤ size + 1) (hbytes : bytes text = before ++ bs)
    (hpos : before.length = pos) :
    ∃ k ≤ bs.length, ∀ opened ≤ pos,
      EndsAfter text opened pos bs k (Trivia.inText false opened pos bs)
        (Trivia.inText true opened pos (bs.take k)) := by
  cases bs with
  | nil => exact Halts.zero.inText (Nat.le_refl 0) hbytes hpos
  | cons b bs =>
    rw [List.length_cons] at hsize
    obtain ⟨rest, rfl, rfl⟩ | hline := pair_cases slash slash b bs
    · rw [List.length_cons] at hsize
      have hrest : bytes text = (before ++ [slash, slash]) ++ rest := by simp [hbytes]
      obtain ⟨k, hk, hends⟩ := @ih.inLine (pos + 2) pos _ _ (by omega) hrest (by simp [hpos])
      refine ⟨k + 2, Nat.add_le_add_right hk 2, fun opened hopened => ?_⟩
      rw [List.take_succ_cons, List.take_succ_cons, inText_line, inText_line]
      exact (hends pos).plainText hopened
    obtain ⟨rest, rfl, rfl⟩ | hblock := pair_cases slash star b bs
    · rw [List.length_cons] at hsize
      have hrest : bytes text = (before ++ [slash, star]) ++ rest := by simp [hbytes]
      obtain ⟨k, hk, hends⟩ := @ih.inBlock (pos + 2) pos _ _ (by omega) hrest (by simp [hpos])
      refine ⟨k + 2, Nat.add_le_add_right hk 2, fun opened hopened => ?_⟩
      rw [List.take_succ_cons, List.take_succ_cons, inText_block, inText_block]
      exact (hends pos).plainText hopened
    by_cases hspace : isSpaceByte b = true
    · have hrest : bytes text = (before ++ [b]) ++ bs := by simp [hbytes]
      obtain ⟨k, hk, hends⟩ := @ih.inText (pos + 1) _ _ (by omega) hrest (by simp [hpos])
      refine ⟨k + 1, Nat.succ_le_succ hk, fun opened hopened => ?_⟩
      obtain ⟨hreach, hsame, hnone⟩ := hends opened (by omega)
      rw [List.take_succ_cons, inText_space hspace, inText_space hspace]
      exact ⟨by rw [hreach]; omega, hsame, hnone⟩
    · have hplain := Bool.eq_false_iff.mpr hspace
      have hnone : NoTrivia (b :: bs) := by
        rintro _ _ ⟨⟩
        exact ⟨hplain, fun hb => ⟨hline hb, hblock hb⟩⟩
      refine ⟨0, Nat.zero_le _, fun opened hopened => ?_⟩
      rw [inText_stop hplain hline hblock]
      exact ⟨endFrom_plainText hopened, rfl, hnone⟩

theorem Halts.inLine_succ (hsize : bs.length ≤ size + 1) (hbytes : bytes text = before ++ bs)
    (hpos : before.length = pos) :
    ∃ k ≤ bs.length, ∀ opened, EndsAfter text opened pos bs k (Trivia.inLine false start pos bs)
      (Trivia.inLine true start pos (bs.take k)) := by
  by_cases hbreak : startsWithBreak bs = true
  · have hdrop : bytes text = (before ++ bs.take (breakWidth bs)) ++ bs.drop (breakWidth bs) := by
      rw [List.append_assoc, List.take_append_drop, hbytes]
    have hlength : (before ++ bs.take (breakWidth bs)).length = pos + breakWidth bs := by
      rw [List.length_append, List.length_take_of_le breakWidth_le, hpos]
    obtain ⟨k, hk, hends⟩ := ih.inText (length_drop_break hbreak hsize) hdrop hlength
    rw [List.length_drop] at hk
    have hwidth : breakWidth bs ≤ bs.length := breakWidth_le
    refine ⟨breakWidth bs + k, by omega, fun opened => ⟨?_, ?_, ?_⟩⟩
    · obtain ⟨hreach, -, -⟩ := hends pos (Nat.le_add_right _ _)
      rw [endFrom_inLine (.inr hbreak) hbytes hpos, inText_break hbreak, hreach]
      omega
    · obtain ⟨-, hsame, hnone⟩ := hends (pos + breakWidth bs) (Nat.le_refl _)
      obtain ⟨hsize', hdrop'⟩ := take_break hbreak k
      rw [List.drop_drop] at hnone
      have hbreak' : startsWithBreak (bs.take (breakWidth bs + k)) = true := by
        rw [startsWithBreak_take hnone, hbreak]
      rw [inLine_break hbreak, inLine_break hbreak', hsize', hdrop', hsame]
    · obtain ⟨-, -, hnone⟩ := hends (pos + breakWidth bs) (Nat.le_refl _)
      rwa [List.drop_drop] at hnone
  · cases bs with
    | nil => exact Halts.zero.inLine (Nat.le_refl 0) hbytes hpos
    | cons b bs =>
      have hb := Bool.eq_false_iff.mpr hbreak
      have hrest : bytes text = (before ++ [b]) ++ bs := by simp [hbytes]
      obtain ⟨k, hk, hends⟩ :=
        @ih.inLine (pos + 1) start _ _ (Nat.le_of_succ_le_succ hsize) hrest (by simp [hpos])
      refine ⟨k + 1, Nat.succ_le_succ hk, fun opened => ?_⟩
      obtain ⟨hreach, hsame, hnone⟩ := hends opened
      rw [List.take_succ_cons, inLine_cons hb, inLine_cons hb]
      exact ⟨by rw [hreach]; omega, hsame, hnone⟩

theorem Halts.inBlock_succ (hsize : bs.length ≤ size + 1) (hbytes : bytes text = before ++ bs)
    (hpos : before.length = pos) :
    ∃ k ≤ bs.length, ∀ opened, EndsAfter text opened pos bs k (Trivia.inBlock false start pos bs)
      (Trivia.inBlock true start pos (bs.take k)) := by
  cases bs with
  | nil => exact Halts.zero.inBlock (Nat.le_refl 0) hbytes hpos
  | cons b bs =>
    rw [List.length_cons] at hsize
    obtain ⟨rest, rfl, rfl⟩ | hopen := pair_cases star slash b bs
    · rw [List.length_cons] at hsize
      have hrest : bytes text = (before ++ [star, slash]) ++ rest := by simp [hbytes]
      obtain ⟨k, hk, hends⟩ := @ih.inText (pos + 2) _ _ (by omega) hrest (by simp [hpos])
      refine ⟨k + 2, Nat.add_le_add_right hk 2, fun opened => ?_⟩
      obtain ⟨hreach, hsame, hnone⟩ := hends (pos + 2) (Nat.le_refl _)
      rw [List.take_succ_cons, List.take_succ_cons, inBlock_close, inBlock_close,
        startsWithBreak_take hnone, hsame]
      refine ⟨?_, rfl, hnone⟩
      show endFrom text (pos + 2) _ = _
      rw [hreach]
      omega
    have hrest : bytes text = (before ++ [b]) ++ bs := by simp [hbytes]
    obtain ⟨k, hk, hends⟩ := @ih.inBlock (pos + 1) start _ _ (by omega) hrest (by simp [hpos])
    refine ⟨k + 1, Nat.succ_le_succ hk, fun opened => ?_⟩
    obtain ⟨hreach, hsame, hnone⟩ := hends opened
    rw [List.take_succ_cons, inBlock_cons hopen,
      inBlock_cons fun hb => head?_take_ne (hopen hb)]
    exact ⟨by rw [hreach]; omega, hsame, hnone⟩

end

theorem halts (text : String) (size : Nat) : Halts text size := by
  induction size with
  | zero => exact .zero
  | succ size ih =>
    exact ⟨fun hsize hbytes hpos => ih.inText_succ hsize hbytes hpos,
      fun hsize hbytes hpos => ih.inLine_succ hsize hbytes hpos,
      fun hsize hbytes hpos => ih.inBlock_succ hsize hbytes hpos⟩

/-! ### Whole scans -/

/-- Without a limit the rest of the text is scanned. -/
theorem scan_none (text : String) (start : Nat) :
    scan text start none = inText false (min start (bytes text).length)
      (min start (bytes text).length) ((bytes text).drop (min start (bytes text).length)) := by
  rw [scan]
  show inText false _ _ (List.take _ _) = _
  rw [Option.getD_none, Nat.min_self, List.take_of_length_le]
  rw [List.length_drop]

/-- The trivia end between their beginning and the end of the text, where no more of them come, and
    a scan with the limit there finds the same. -/
theorem exists_stop (text : String) (start : Nat) :
    ∃ stop, skipTrivia text start = stop ∧ min start (bytes text).length ≤ stop
      ∧ stop ≤ (bytes text).length ∧ NoTrivia ((bytes text).drop stop)
      ∧ scan text start (some stop) = scan text start none := by
  have hfirst : min start (bytes text).length ≤ (bytes text).length := Nat.min_le_right _ _
  obtain ⟨k, hk, hends⟩ := (halts text _).inText (Nat.le_refl _)
    (List.take_append_drop (min start (bytes text).length) (bytes text)).symm
    (List.length_take_of_le hfirst)
  obtain ⟨hreach, hsame, hnone⟩ := hends _ (Nat.le_refl _)
  rw [List.length_drop] at hk
  rw [List.drop_drop] at hnone
  have hle : min start (bytes text).length + k ≤ (bytes text).length := by omega
  refine ⟨_, ?_, Nat.le_add_right _ k, hle, hnone, ?_⟩
  · rw [skipTrivia_eq_endFrom, scan_none, hreach]
  · have hstart :
        min start (min start (bytes text).length + k) = min start (bytes text).length := by
      omega
    rw [scan, Option.getD_some, Nat.min_eq_left hle, hstart, Nat.add_sub_cancel_left, scan_none,
      ← hsame]
    rfl

/-- **A scan that ends by itself.**  It finds what a scan with a limit finds, if the limit is where
    it ends. -/
theorem scan_skipTrivia (text : String) (start : Nat) :
    scan text start (some (skipTrivia text start)) = scan text start none := by
  obtain ⟨stop, hstop, -, -, -, hscan⟩ := exists_stop text start
  rw [hstop, hscan]

/-- Any scan is one that has its limit within the text. -/
theorem exists_limit (text : String) (start : Nat) (limit? : Option Nat) :
    ∃ first stop, first ≤ stop ∧ stop ≤ text.utf8ByteSize
      ∧ scan text start limit? = scan text first (some stop) := by
  have hlimit : ∀ limit, ∃ first stop, first ≤ stop ∧ stop ≤ text.utf8ByteSize
      ∧ scan text start (some limit) = scan text first (some stop) := by
    intro limit
    have hlength := length_bytes text
    refine ⟨min start (min limit text.utf8ByteSize), min limit text.utf8ByteSize,
      Nat.min_le_right _ _, Nat.min_le_right _ _, ?_⟩
    simp only [scan, Option.getD_some, Option.isSome_some, hlength, Nat.min_assoc, Nat.min_self]
  cases limit? with
  | some limit => exact hlimit limit
  | none =>
    rw [← scan_skipTrivia]
    exact hlimit _

/-- Where no trivia come next, none are skipped. -/
theorem skipTrivia_of_noTrivia (hstart : start ≤ (bytes text).length)
    (h : NoTrivia ((bytes text).drop start)) : skipTrivia text start = start := by
  rw [skipTrivia_eq_endFrom, scan_none, Nat.min_eq_left hstart, h.inText]
  rfl

/-- **Where trivia end.**  The place lies between the beginning of the trivia and the end of the
    text.  It is the end of the text, or a byte stands there that is no space and with which neither
    `//` nor `/*` begins.  From there nothing more is skipped; and a scan with the limit there finds
    the same spans as the one without a limit, which line breaks come after comments included. -/
theorem skipTrivia_ends (text : String) (start : Nat) :
    let stop := skipTrivia text start
    min start text.utf8ByteSize ≤ stop ∧ stop ≤ text.utf8ByteSize
      ∧ (stop = text.utf8ByteSize
        ∨ ∃ b, (bytes text)[stop]? = some b ∧ isSpaceByte b = false ∧ ¬ OpensAt (bytes text) stop)
      ∧ skipTrivia text stop = stop
      ∧ scan text start none = scan text start (some stop) := by
  obtain ⟨stop, rfl, hstart, hlength, hnone, hscan⟩ := exists_stop text start
  rw [← length_bytes]
  exact ⟨hstart, hlength, hnone.cases hlength, skipTrivia_of_noTrivia hlength hnone, hscan.symm⟩

end Transcode.Trivia

namespace Transcode.Script

/-- The leading trivia of a node are what a scan finds between their beginning and the node. -/
def Abuts (source : String) (n : Ast) : Prop :=
  Trivia.scan source n.fullStart (some n.start) = Trivia.scan source n.fullStart none

/-- In a source that parses, this is so for all nodes. -/
theorem abuts_of_parse {source : String} {root : Ast} (h : parse source = .ok root) :
    ∀ n ∈ root.preorder, Abuts source n := by
  intro n hn
  have hskip : Trivia.skipTrivia source n.fullStart = n.start := by
    obtain ⟨before, dropped, after, hgap, hfirst, hstart, hends⟩ := exists_gap_of_parse h hn
    obtain ⟨-, hskip⟩ := hgap.scan hends
    rw [← hfirst, hskip, hstart]
  rw [Abuts, ← hskip]
  exact Trivia.scan_skipTrivia source n.fullStart

end Transcode.Script
