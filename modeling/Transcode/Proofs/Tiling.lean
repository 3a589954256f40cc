import Transcode.Proofs.Carrying
import Transcode.Proofs.Placement

namespace Transcode.Trivia

open Text

/-!
# Spans tile what is scanned

A scan up to a limit leaves nothing out.  Its spans follow each other from where the scan starts to
the limit, and the only bytes between two of them are those of a line break, which belongs to the
line comment before it (`Tiled`).  What the spans say of the bytes is true (`Span.Holds`): a line
comment reaches up to a line break, a block comment up to the first `*/` that can close it, and in
the text between them no comment begins.

Outside of comments the scanner has seen no comment begin since the current stretch of text was
opened, in a line comment no line break, and in a block comment nothing that closes it.  This is
what is carried from byte to byte (`tiled_inText`), with the bytes of the text before the limit as
the world: a pair of bytes that the limit cuts in two is none.
-/

/-! ### What spans say -/

/-- Two bytes one after the other, the first one at offset `i`. -/
def PairAt (bs : List UInt8) (a b : UInt8) (i : Nat) : Prop :=
  bs[i]? = some a ∧ bs[i + 1]? = some b

/-- A comment begins at offset `i`, if none has begun before it. -/
def OpensAt (bs : List UInt8) (i : Nat) : Prop :=
  PairAt bs slash slash i ∨ PairAt bs slash star i

/-- There is a line break at offset `i`. -/
def BreakAt (bs : List UInt8) (i : Nat) : Prop :=
  ∃ b, bs[i]? = some b ∧ isBreakByte b = true

/-- A span says what is so. -/
structure Span.Holds (bs : List UInt8) (s : Span) : Prop where
  /-- No comment begins in a span of text. -/
  text : s.kind = .text → ∀ i, s.start ≤ i → i + 2 ≤ s.stop → ¬ OpensAt bs i
  /-- A line comment has no line break in it, and goes up to one or to the end. -/
  line : s.kind = .lineComment → PairAt bs slash slash s.start
    ∧ (∀ i, s.start ≤ i → i < s.stop → ¬ BreakAt bs i)
    ∧ (BreakAt bs s.stop ∨ s.stop = bs.length)
  /-- A block comment goes up to the first `*/` after its marker, or to the end if there is none. -/
  block : s.kind = .blockComment → PairAt bs slash star s.start
    ∧ ∃ i, s.start + 2 ≤ i ∧ (∀ j, s.start + 2 ≤ j → j < i → ¬ PairAt bs star slash j)
      ∧ (PairAt bs star slash i ∧ s.stop = i + 2 ∨ i = bs.length ∧ s.stop = bs.length)
  /-- It is noted of comments, and of nothing else, whether a line break comes next. -/
  endsLine : s.endsLine = true ↔ s.isComment = true ∧ BreakAt bs s.stop

/-- Where the next span begins: the line break after a line comment belongs to the comment. -/
def Span.next (bs : List UInt8) (s : Span) : Nat :=
  if s.kind = .lineComment ∧ s.endsLine = true then s.stop + breakWidth (bs.drop s.stop)
  else s.stop

/-- Some spans, none of them empty, reach from an offset to the end, one after the other and never
    two of text in a row. -/
inductive Tiled (bs : List UInt8) : Nat → List Span → Prop
  | done : Tiled bs bs.length []
  | span {pos : Nat} {s : Span} {rest : List Span} : s.start = pos → pos < s.stop → s.Holds bs →
      (∀ t ∈ rest.head?, s.isComment = true ∨ t.isComment = true) →
      Tiled bs (s.next bs) rest → Tiled bs pos (s :: rest)

variable {all bs rest : List UInt8} {a b : UInt8} {start opened pos i : Nat} {spans : List Span}

/-- The first byte that is left is the one at the offset. -/
theorem getElem?_of_drop {α : Type} {all rest : List α} {b : α} (h : all.drop pos = b :: rest) :
    all[pos]? = some b := by
  rw [← List.head?_drop, h, List.head?_cons]

/-- One byte further on, the rest is left. -/
theorem drop_of_drop {α : Type} {all rest : List α} {b : α} (h : all.drop pos = b :: rest) :
    all.drop (pos + 1) = rest := by
  rw [← List.tail_drop, h, List.tail_cons]

/-- Nothing is left at the end only, -/
theorem eq_length_of_drop (h : all.drop pos = []) (hpos : pos ≤ all.length) : pos = all.length :=
  Nat.le_antisymm hpos (List.drop_eq_nil_iff.mp h)

/-- and something before it. -/
theorem lt_length_of_drop (h : all.drop pos = b :: rest) : pos < all.length :=
  (List.getElem?_eq_some_iff.mp (getElem?_of_drop h)).1

/-- A pair of bytes stands where what is left begins with it, -/
theorem pairAt_iff {c : UInt8} (h : all.drop pos = c :: rest) :
    PairAt all a b pos ↔ c = a ∧ rest.head? = some b := by
  rw [PairAt, getElem?_of_drop h, ← List.head?_drop, drop_of_drop h, Option.some.injEq]

/-- and so does a line break. -/
theorem breakAt_iff : BreakAt all pos ↔ startsWithBreak (all.drop pos) = true := by
  rw [startsWithBreak, List.head?_drop, Option.any_eq_true]
  rfl

/-- Any byte that is no line break begins none. -/
theorem not_breakAt (h : all.drop pos = b :: rest) (hb : isBreakByte b = false) :
    ¬ BreakAt all pos := by
  rw [breakAt_iff, h]
  exact Bool.eq_false_iff.mp hb

/-- There is nothing between an offset and itself. -/
theorem forall_lt_self {p : Nat → Prop} (pos : Nat) : ∀ i, pos ≤ i → i < pos → p i :=
  fun _ hi hlt => absurd hlt (Nat.not_lt.mpr hi)

/-- What holds before an offset and at it holds before the next one. -/
theorem forall_lt_succ {p : Nat → Prop} (h : ∀ i, start ≤ i → i < pos → p i) (hpos : p pos) :
    ∀ i, start ≤ i → i < pos + 1 → p i := by
  intro i hi hlt
  rcases Nat.lt_succ_iff_lt_or_eq.mp hlt with hlt | rfl
  · exact h i hi hlt
  · exact hpos

/-! ### Mode by mode -/

/-- A span of plain text holds if no comment opens in it. -/
theorem holds_text {stop : Nat} (h : ∀ i, start ≤ i → i < stop → ¬ OpensAt all i) :
    Span.Holds all ⟨.text, start, stop, false⟩ where
  text _ i hi hi' := h i hi (Nat.lt_of_succ_lt hi')
  line := nofun
  block := nofun
  endsLine := ⟨nofun, fun h => nomatch h.1⟩

/-- A line comment holds if it opens where it starts and breaks where it stops. -/
theorem holds_line {stop : Nat} {endsLine : Bool} (hopen : PairAt all slash slash start)
    (h : ∀ i, start ≤ i → i < stop → ¬ BreakAt all i) (hstop : BreakAt all stop ∨ stop = all.length)
    (hends : endsLine = true ↔ BreakAt all stop) :
    Span.Holds all ⟨.lineComment, start, stop, endsLine⟩ where
  text := nofun
  line _ := ⟨hopen, h, hstop⟩
  block := nofun
  endsLine := hends.trans (and_iff_right rfl).symm

/-- A block comment holds if it opens where it starts and closes where it stops. -/
theorem holds_block {stop : Nat} {endsLine : Bool} (hopen : PairAt all slash star start)
    (hle : start + 2 ≤ i) (h : ∀ j, start + 2 ≤ j → j < i → ¬ PairAt all star slash j)
    (hstop : PairAt all star slash i ∧ stop = i + 2 ∨ i = all.length ∧ stop = all.length)
    (hends : endsLine = true ↔ BreakAt all stop) :
    Span.Holds all ⟨.blockComment, start, stop, endsLine⟩ where
  text := nofun
  line := nofun
  block _ := ⟨hopen, i, hle, h, hstop⟩
  endsLine := hends.trans (and_iff_right rfl).symm

/-- The text before a comment, if there is any. -/
theorem tiled_plainText (hle : opened ≤ pos)
    (hplain : ∀ i, opened ≤ i → i < pos → ¬ OpensAt all i) (hspans : Tiled all pos spans)
    (hcomment : ∀ t ∈ spans.head?, t.isComment = true) :
    Tiled all opened (plainText opened pos ++ spans) := by
  rw [plainText]
  split
  · rename_i hlt
    exact .span rfl hlt (holds_text hplain) (fun t ht => .inr (hcomment t ht)) hspans
  · obtain rfl : opened = pos := Nat.le_antisymm hle (Nat.le_of_not_lt ‹_›)
    exact hspans

/-- A line comment that goes on shows as a comment. -/
theorem isComment_of_head?_inLine {bounded : Bool} {start pos : Nat} (bs : List UInt8) :
    ∀ t ∈ (inLine bounded start pos bs).head?, t.isComment = true := by
  by_cases hbreak : startsWithBreak bs = true
  · rw [inLine_break hbreak]
    exact fun t ht => Option.some.inj ht ▸ rfl
  · cases bs with
    | nil => exact fun t ht => Option.some.inj ht ▸ rfl
    | cons b rest =>
      rw [inLine_cons (Bool.eq_false_iff.mpr hbreak)]
      exact isComment_of_head?_inLine rest

/-- So does a block comment. -/
theorem isComment_of_head?_inBlock {bounded : Bool} {start pos : Nat} (bs : List UInt8) :
    ∀ t ∈ (inBlock bounded start pos bs).head?, t.isComment = true := by
  cases bs with
  | nil => exact fun t ht => Option.some.inj ht ▸ rfl
  | cons b rest =>
    obtain ⟨rest, rfl, rfl⟩ | hopen := pair_cases star slash b rest
    · rw [inBlock_close]
      exact fun t ht => Option.some.inj ht ▸ rfl
    · rw [inBlock_cons hopen]
      exact isComment_of_head?_inBlock rest

mutual

/-- Outside of comments, no comment has begun since `opened`. -/
theorem tiled_inText {opened pos : Nat} (bs : List UInt8) (hbs : all.drop pos = bs)
    (hpos : pos ≤ all.length) (hle : opened ≤ pos)
    (hplain : ∀ i, opened ≤ i → i < pos → ¬ OpensAt all i) :
    Tiled all opened (inText true opened pos bs) := by
  match bs with
  | [] =>
    obtain rfl := eq_length_of_drop hbs hpos
    rw [inText, ← List.append_nil (plainText opened all.length)]
    exact tiled_plainText hle hplain .done nofun
  | b :: rest =>
    have hlt := lt_length_of_drop hbs
    have hrest := drop_of_drop hbs
    obtain ⟨rest, rfl, rfl⟩ | hline := pair_cases slash slash b rest
    · have hopen : PairAt all slash slash pos := (pairAt_iff hbs).mpr ⟨rfl, rfl⟩
      have hnone : ∀ i, pos ≤ i → i < pos + 2 → ¬ BreakAt all i :=
        forall_lt_succ (forall_lt_succ (forall_lt_self pos) (not_breakAt hbs (by decide)))
          (not_breakAt hrest (by decide))
      rw [inText_line]
      exact tiled_plainText hle hplain
        (tiled_inLine rest (drop_of_drop hrest) (lt_length_of_drop hrest) hopen (by omega) hnone)
        (isComment_of_head?_inLine rest)
    obtain ⟨rest, rfl, rfl⟩ | hblock := pair_cases slash star b rest
    · have hopen : PairAt all slash star pos := (pairAt_iff hbs).mpr ⟨rfl, rfl⟩
      rw [inText_block]
      exact tiled_plainText hle hplain
        (tiled_inBlock rest (drop_of_drop hrest) (lt_length_of_drop hrest) hopen (Nat.le_refl _)
          (forall_lt_self _))
        (isComment_of_head?_inBlock rest)
    · have hnone : ¬ OpensAt all pos := by
        rw [OpensAt, pairAt_iff hbs, pairAt_iff hbs]
        exact fun h => h.elim (not_and.mpr hline) (not_and.mpr hblock)
      rw [inText_cons hline hblock, Bool.or_true, if_pos rfl]
      exact tiled_inText rest hrest hlt (by omega) (forall_lt_succ hplain hnone)
termination_by all.length - pos
decreasing_by all_goals omega

/-- In a line comment, no line break has come since its beginning. -/
theorem tiled_inLine {start pos : Nat} (bs : List UInt8) (hbs : all.drop pos = bs)
    (hpos : pos ≤ all.length) (hopen : PairAt all slash slash start) (hlt : start < pos)
    (hplain : ∀ i, start ≤ i → i < pos → ¬ BreakAt all i) :
    Tiled all start (inLine true start pos bs) := by
  by_cases hbreak : startsWithBreak bs = true
  · have hat : BreakAt all pos := by rwa [breakAt_iff, hbs]
    have hwidth := breakWidth_pos hbreak
    have hwidth' : breakWidth bs ≤ bs.length := breakWidth_le
    have hlength : bs.length = all.length - pos := by rw [← hbs, List.length_drop]
    have hdrop : all.drop (pos + breakWidth bs) = bs.drop (breakWidth bs) := by
      rw [← hbs, List.drop_drop]
    rw [inLine_break hbreak]
    refine .span rfl hlt (holds_line hopen hplain (.inl hat) (iff_of_true rfl hat))
      (fun _ _ => .inl rfl) ?_
    show Tiled all (pos + breakWidth (all.drop pos)) _
    rw [hbs]
    exact tiled_inText _ hdrop (by omega) (Nat.le_refl _) (forall_lt_self _)
  · have hnot : ¬ BreakAt all pos := by rwa [breakAt_iff, hbs]
    match bs with
    | [] =>
      obtain rfl := eq_length_of_drop hbs hpos
      exact .span rfl hlt
        (holds_line hopen hplain (.inr rfl) (iff_of_false Bool.false_ne_true hnot)) nofun .done
    | b :: rest =>
      have hless := lt_length_of_drop hbs
      rw [inLine_cons (Bool.eq_false_iff.mpr hbreak)]
      exact tiled_inLine rest (drop_of_drop hbs) hless hopen (by omega)
        (forall_lt_succ hplain hnot)
termination_by all.length - pos
decreasing_by all_goals omega

/-- In a block comment, nothing has closed it since its marker. -/
theorem tiled_inBlock {start pos : Nat} (bs : List UInt8) (hbs : all.drop pos = bs)
    (hpos : pos ≤ all.length) (hopen : PairAt all slash star start) (hle : start + 2 ≤ pos)
    (hplain : ∀ i, start + 2 ≤ i → i < pos → ¬ PairAt all star slash i) :
    Tiled all start (inBlock true start pos bs) := by
  match bs with
  | [] =>
    obtain rfl := eq_length_of_drop hbs hpos
    have hnot : ¬ BreakAt all all.length := by
      rw [breakAt_iff, hbs]
      exact Bool.false_ne_true
    exact .span rfl (Nat.lt_of_succ_lt hle)
      (holds_block hopen hle hplain (.inr ⟨rfl, rfl⟩) (iff_of_false Bool.false_ne_true hnot))
      nofun .done
  | b :: rest =>
    have hlt := lt_length_of_drop hbs
    have hrest := drop_of_drop hbs
    obtain ⟨rest, rfl, rfl⟩ | hnone := pair_cases star slash b rest
    · have hat : PairAt all star slash pos := (pairAt_iff hbs).mpr ⟨rfl, rfl⟩
      have hrest' : all.drop (pos + 2) = rest := drop_of_drop hrest
      have hends : BreakAt all (pos + 2) ↔ startsWithBreak rest = true := by
        rw [breakAt_iff, hrest']
      rw [inBlock_close]
      refine .span rfl (Nat.lt_of_succ_lt (Nat.le_add_right_of_le hle))
        (holds_block hopen hle hplain (.inl ⟨hat, rfl⟩) hends.symm) (fun _ _ => .inl rfl) ?_
      exact tiled_inText rest hrest' (lt_length_of_drop hrest) (Nat.le_refl _) (forall_lt_self _)
    · have hnot : ¬ PairAt all star slash pos := by
        rw [pairAt_iff hbs]
        exact not_and.mpr hnone
      rw [inBlock_cons hnone]
      exact tiled_inBlock rest hrest hlt hopen (by omega) (forall_lt_succ hplain hnot)
termination_by all.length - pos
decreasing_by all_goals omega

end

/-! ### Boundaries -/

section

variable {text : String} {stop : Nat} {s : Span}

/-- A byte of ASCII is a character. -/
theorem exists_char_of_getElem? {cs : List Char} (h : (encode cs)[i]? = some b) (hb : b < 0x80) :
    ∃ front c back, cs = front ++ c :: back ∧ byteLength front = i ∧ c.utf8Size = 1 := by
  induction cs generalizing i with
  | nil => cases h
  | cons c cs ih =>
    rw [encode_cons] at h
    by_cases hlt : i < (String.utf8EncodeChar c).length
    · rw [List.getElem?_append_left hlt] at h
      have hc := eq_of_mem_utf8EncodeChar (List.mem_of_getElem? h) hb
      have hsize : c.utf8Size = 1 := by
        rw [UInt8.lt_iff_toNat_lt] at hb
        have h128 : (0x80 : UInt8).toNat = 128 := rfl
        rw [Char.utf8Size_eq_one_iff, UInt32.le_iff_toNat_le]
        show c.toNat ≤ 127
        omega
      rw [String.length_utf8EncodeChar] at hlt
      exact ⟨[], c, cs, rfl, by rw [byteLength_nil]; omega, hsize⟩
    · rw [List.getElem?_append_right (Nat.le_of_not_lt hlt)] at h
      obtain ⟨front, c', back, rfl, hfront, hsize⟩ := ih h
      refine ⟨c :: front, c', back, rfl, ?_, hsize⟩
      rw [String.length_utf8EncodeChar] at hlt hfront
      rw [byteLength_cons, hfront]
      omega

/-- There are boundaries before and after it. -/
theorem isBoundary_of_ascii (h : ((bytes text).take stop)[i]? = some b) (hb : b < 0x80) :
    Script.IsBoundary text i ∧ Script.IsBoundary text (i + 1) := by
  rw [List.getElem?_take] at h
  split at h
  · have hbyte : (encode text.toList)[i]? = some b := h
    obtain ⟨front, c, back, htext, rfl, hsize⟩ := exists_char_of_getElem? hbyte hb
    refine ⟨⟨front, c :: back, htext, rfl⟩, front ++ [c], back, by simp [htext], ?_⟩
    rw [byteLength_append, byteLength_cons, hsize, byteLength_nil]
  · cases h

/-- Line breaks are single bytes of their characters, -/
theorem lt_of_isBreakByte (hb : isBreakByte b = true) : b < 0x80 := by
  simp only [isBreakByte, Bool.or_eq_true, beq_iff_eq] at hb
  rcases hb with rfl | rfl <;> decide

/-- so that a line break is at a boundary. -/
theorem BreakAt.isBoundary (h : BreakAt ((bytes text).take stop) i) :
    Script.IsBoundary text i := by
  obtain ⟨b, hbyte, hb⟩ := h
  exact (isBoundary_of_ascii hbyte (lt_of_isBreakByte hb)).1

/-- After a line break there is a boundary. -/
theorem BreakAt.isBoundary_next (h : BreakAt ((bytes text).take stop) i) :
    Script.IsBoundary text (i + breakWidth (((bytes text).take stop).drop i)) := by
  obtain ⟨rest, hrest⟩ | ⟨b, rest, hrest, hb, hpair⟩ := break_cases (breakAt_iff.mp h)
  · rw [hrest]
    exact (isBoundary_of_ascii (getElem?_of_drop (drop_of_drop hrest)) (by decide)).2
  · rw [hrest, breakWidth_eq_one hb hpair]
    exact (isBoundary_of_ascii (getElem?_of_drop hrest) (lt_of_isBreakByte hb)).2

/-- A comment begins at a boundary. -/
theorem Span.Holds.isBoundary_start (h : s.Holds ((bytes text).take stop))
    (hcomment : s.isComment = true) : Script.IsBoundary text s.start := by
  cases hkind : s.kind with
  | text => simp [Span.isComment, hkind] at hcomment
  | lineComment => exact (isBoundary_of_ascii (h.line hkind).1.1 (by decide)).1
  | blockComment => exact (isBoundary_of_ascii (h.block hkind).1.1 (by decide)).1

/-- It ends at one, if the text before the limit does. -/
theorem Span.Holds.isBoundary_stop (h : s.Holds ((bytes text).take stop))
    (hcomment : s.isComment = true)
    (hlast : Script.IsBoundary text ((bytes text).take stop).length) :
    Script.IsBoundary text s.stop := by
  cases hkind : s.kind with
  | text => simp [Span.isComment, hkind] at hcomment
  | lineComment =>
    rcases (h.line hkind).2.2 with hbreak | hend
    · exact hbreak.isBoundary
    · exact hend ▸ hlast
  | blockComment =>
    obtain ⟨-, i, -, -, ⟨hclose, hend⟩ | ⟨-, hend⟩⟩ := h.block hkind
    · exact hend ▸ (isBoundary_of_ascii hclose.2 (by decide)).2
    · exact hend ▸ hlast

/-- Spans begin and end at boundaries, if what they tile does. -/
theorem Tiled.isBoundary (h : Tiled ((bytes text).take stop) pos spans)
    (hfirst : Script.IsBoundary text pos)
    (hlast : Script.IsBoundary text ((bytes text).take stop).length) :
    ∀ s ∈ spans, Script.IsBoundary text s.start ∧ Script.IsBoundary text s.stop := by
  induction h with
  | done => exact List.forall_mem_nil _
  | @span pos s rest hstart _ hholds happart hrest ih =>
    -- A stretch of text ends where the next comment begins.
    have hstop : Script.IsBoundary text s.stop := by
      cases hcomment : s.isComment with
      | true => exact hholds.isBoundary_stop hcomment hlast
      | false =>
        have hnext : s.next ((bytes text).take stop) = s.stop := by
          rw [Span.next, if_neg]
          rintro ⟨hkind, -⟩
          simp [Span.isComment, hkind] at hcomment
        rw [hnext] at hrest
        generalize s.stop = next at hrest
        cases hrest with
        | done => exact hlast
        | @span _ t _ hstart _ hholds =>
          have ht := (happart t rfl).resolve_left (by rw [hcomment]; exact Bool.false_ne_true)
          exact hstart ▸ hholds.isBoundary_start ht
    refine List.forall_mem_cons.mpr ⟨⟨hstart ▸ hfirst, hstop⟩, ih ?_⟩
    rw [Span.next]
    split
    · rename_i hline
      exact (hholds.endsLine.mp hline.2).2.isBoundary_next
    · exact hstop

/-- There are as many bytes up to an offset as it says. -/
theorem length_take_bytes {text : String} {stop : Nat} (h : stop ≤ text.utf8ByteSize) :
    ((bytes text).take stop).length = stop :=
  List.length_take_of_le (length_bytes text ▸ h)

/-- A scan tiles the text up to its end. -/
theorem tiled_scan {start : Nat} (h : start ≤ stop) (h' : stop ≤ text.utf8ByteSize) :
    Tiled ((bytes text).take stop) start (scan text start (some stop)) := by
  have hwindow : ((bytes text).take stop).drop start = window text start stop := List.drop_take
  have hlength := length_take_bytes h'
  rw [scan_eq_window (length_bytes text ▸ h'), Nat.min_eq_left h]
  exact tiled_inText _ hwindow (hlength.symm ▸ h) (Nat.le_refl _) (forall_lt_self _)

/-- Spans begin and end at boundaries if the scan does. -/
theorem isBoundary_of_mem_scan {start : Nat} (h : start ≤ stop)
    (hstart : Script.IsBoundary text start) (hstop : Script.IsBoundary text stop) :
    ∀ s ∈ scan text start (some stop),
      Script.IsBoundary text s.start ∧ Script.IsBoundary text s.stop :=
  (tiled_scan h hstop.le).isBoundary hstart ((length_take_bytes hstop.le).symm ▸ hstop)

/-- **A scan tiles its range.**  From any offset to a later one, the spans of a scan come one after
    the other and leave nothing out but the line breaks that belong to line comments, and what they
    say of the bytes in the range is so.  They begin and end between characters if the range
    does. -/
theorem scan_tiles {start : Nat} (text : String) (h : start ≤ stop)
    (h' : stop ≤ text.utf8ByteSize) :
    Tiled ((bytes text).take stop) start (scan text start (some stop))
      ∧ ((bytes text).take stop).length = stop
      ∧ (Script.IsBoundary text start → Script.IsBoundary text stop →
        ∀ s ∈ scan text start (some stop),
          Script.IsBoundary text s.start ∧ Script.IsBoundary text s.stop) := by
  refine ⟨tiled_scan h h', length_take_bytes h', fun hstart hstop => ?_⟩
  exact isBoundary_of_mem_scan h hstart hstop

/-- A slash that begins nothing, a line comment with its break, a block comment whose marker cannot
    close it, and one that the limit leaves open after it has cut the break in two. -/
theorem scan_tiles_open :
    let text := "é/ //a\r\n/*/ */\n/*b\r\n"
    let spans := [⟨.text, 0, 4, false⟩, ⟨.lineComment, 4, 7, true⟩, ⟨.blockComment, 9, 15, true⟩,
      ⟨.text, 15, 16, false⟩, ⟨.blockComment, 16, 20, false⟩]
    0 ≤ 20 ∧ 20 ≤ text.utf8ByteSize ∧ Script.IsBoundary text 0 ∧ Script.IsBoundary text 20
      ∧ scan text 0 (some 20) = spans
      ∧ Tiled ((bytes text).take 20) 0 spans
      ∧ ∀ s ∈ spans, Script.IsBoundary text s.start ∧ Script.IsBoundary text s.stop := by
  intro text spans
  have hsize : 20 ≤ text.utf8ByteSize := by decide +kernel
  have hstop : Script.IsBoundary text 20 :=
    ⟨"é/ //a\r\n/*/ */\n/*b\r".toList, ['\n'], by decide +kernel, by decide +kernel⟩
  have hscan : scan text 0 (some 20) = spans := by decide +kernel
  obtain ⟨htiled, -, hbounds⟩ := scan_tiles text (Nat.zero_le 20) hsize
  rw [hscan] at htiled hbounds
  exact ⟨Nat.zero_le 20, hsize, Script.isBoundary_zero text, hstop, hscan, htiled,
    hbounds (Script.isBoundary_zero text) hstop⟩

end

end Transcode.Trivia
