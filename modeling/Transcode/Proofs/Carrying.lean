import Mathlib.Order.MinMax
import Transcode.Proofs.Scanner

namespace Transcode.Trivia

open Text

/-!
# Scans of moved texts

A text is *carried* to another place by a function `φ` from offsets to offsets: what stands at `p`
there stands at `φ p` here.  On the way a line feed may get a carriage return before it
(`Carries`).  The scanner does not mind: a scan of what was carried finds the spans that were
there, carried likewise (`Carries.inText`), and no line comment gets any longer.
-/

/-- The bytes `bs` that begin at `pos` are carried by `φ` to the bytes `bs'`: all of them are the
    same, but for carriage returns that some line feeds get before them. -/
inductive Carries (φ : Nat → Nat) : Nat → List UInt8 → List UInt8 → Prop
  | nil {pos} : Carries φ pos [] []
  | same {pos b bs bs'} : φ (pos + 1) = φ pos + 1 →
      (b = carriageReturn → bs'.head? = bs.head?) → Carries φ (pos + 1) bs bs' →
      Carries φ pos (b :: bs) (b :: bs')
  | paired {pos bs bs'} : φ (pos + 1) = φ pos + 2 → Carries φ (pos + 1) bs bs' →
      Carries φ pos (lineFeed :: bs) (carriageReturn :: lineFeed :: bs')

/-- A span carried elsewhere. -/
def Span.relocate (φ : Nat → Nat) (s : Span) : Span :=
  { s with start := φ s.start, stop := φ s.stop }

/-- A span can be carried: it lies before `last`, and as a line comment it gets no longer. -/
structure Span.Fits (φ : Nat → Nat) (last : Nat) (s : Span) : Prop where
  start_le : s.start ≤ last
  stop_le : s.stop ≤ last
  tight : s.kind = .lineComment → φ s.stop + s.start = φ s.start + s.stop

/-- Spans up to `last` are carried elsewhere. -/
structure Copied (φ : Nat → Nat) (last : Nat) (spans spans' : List Span) : Prop where
  eq : spans' = spans.map (Span.relocate φ)
  fits : ∀ s ∈ spans, s.Fits φ last

variable {φ : Nat → Nat} {last pos opened start : Nat} {b : UInt8} {bs bs' : List UInt8}
  {spans spans' more more' : List Span} {bounded : Bool}

/-- No spans are carried to none. -/
theorem Copied.nil : Copied φ last [] [] :=
  ⟨rfl, nofun⟩

/-- Spans are carried in two parts. -/
theorem Copied.append (h : Copied φ last spans spans') (h' : Copied φ last more more') :
    Copied φ last (spans ++ more) (spans' ++ more') := by
  refine ⟨?_, List.forall_mem_append.mpr ⟨h.fits, h'.fits⟩⟩
  rw [h.eq, h'.eq, List.map_append]

/-- A span that fits is carried before others. -/
theorem Copied.cons {s : Span} (hs : s.Fits φ last) (h : Copied φ last spans spans') :
    Copied φ last (s :: spans) (s.relocate φ :: spans') :=
  have hfirst : Copied φ last [s] [s.relocate φ] := ⟨rfl, List.forall_mem_singleton.mpr hs⟩
  hfirst.append h

/-- The span of plain text so far is carried, unless there is none on both sides. -/
theorem copied_plainText (hφ : StrictMono φ) (hpos : pos ≤ last) :
    Copied φ last (plainText opened pos) (plainText (φ opened) (φ pos)) := by
  unfold plainText
  by_cases h : opened < pos
  · rw [if_pos h, if_pos (hφ h)]
    exact Copied.cons ⟨(Nat.le_of_lt h).trans hpos, hpos, nofun⟩ .nil
  · rw [if_neg h, if_neg (mt hφ.lt_iff_lt.mp h)]
    exact .nil

namespace Carries

/-- What is carried begins as it did, or a carriage return comes first. -/
theorem head? (h : Carries φ pos bs bs') :
    bs'.head? = bs.head? ∨ bs.head? = some lineFeed ∧ bs'.head? = some carriageReturn := by
  cases h with
  | nil => exact .inl rfl
  | same => exact .inl rfl
  | paired => exact .inr ⟨rfl, rfl⟩

/-- No byte but a line feed or a carriage return comes first unless it did. -/
theorem head?_ne (h : Carries φ pos bs bs') (hb : b ≠ carriageReturn) (hne : bs.head? ≠ some b) :
    bs'.head? ≠ some b := by
  rcases h.head? with hhead | ⟨-, hhead⟩
  · rwa [hhead]
  · rw [hhead]
    exact fun heq => hb (Option.some.inj heq).symm

/-- The same bytes elsewhere. -/
theorem refl (h : ∀ k < bs.length, φ (pos + k + 1) = φ (pos + k) + 1) : Carries φ pos bs bs := by
  induction bs generalizing pos with
  | nil => exact .nil
  | cons b bs ih =>
    refine .same (h 0 (Nat.succ_pos _)) (fun _ => rfl) (ih fun k hk => ?_)
    have hstep := h (k + 1) (Nat.succ_lt_succ hk)
    rwa [← Nat.add_assoc, Nat.add_right_comm pos k 1] at hstep

/-- Bytes carried begin with a line break if they did before. -/
theorem startsWithBreak_eq (h : Carries φ pos bs bs') :
    startsWithBreak bs' = startsWithBreak bs := by
  cases h with
  | nil => rfl
  | same => rfl
  | paired => rfl

/-- What comes after a line break is carried to what comes after one. -/
theorem drop_break (h : Carries φ pos bs bs') (hbreak : startsWithBreak bs = true) :
    φ (pos + breakWidth bs) = φ pos + breakWidth bs'
      ∧ Carries φ (pos + breakWidth bs) (bs.drop (breakWidth bs))
        (bs'.drop (breakWidth bs')) := by
  obtain ⟨rest, rfl⟩ | ⟨b, rest, rfl, hb, hpair⟩ := break_cases hbreak
  · -- A carriage return keeps the line feed after it as it is.
    cases h with
    | same hpos hhead h =>
      cases h with
      | same hpos' _ h =>
        refine ⟨?_, h⟩
        show φ (pos + 1 + 1) = _
        rw [hpos', hpos]
        rfl
      | paired => exact absurd (Option.some.inj (hhead rfl)) (by decide)
  · rw [breakWidth_eq_one hb hpair]
    cases h with
    | @same _ _ _ rest' hpos hhead h =>
      have hpair' : ∀ rest'', b = carriageReturn → rest' = lineFeed :: rest'' → False := by
        rintro rest'' rfl rfl
        have hrest := hhead rfl
        cases rest with
        | nil => cases hrest
        | cons b' rest => exact hpair rest rfl (by rw [← Option.some.inj hrest])
      rw [breakWidth_eq_one hb hpair']
      exact ⟨hpos, h⟩
    | paired hpos h => exact ⟨hpos, h⟩

/-- Two bytes that are neither of them a line feed or a carriage return are the same. -/
theorem pair {a b : UInt8} (h : Carries φ pos (a :: b :: bs) bs') (ha : a ≠ lineFeed)
    (hb : b ≠ lineFeed) :
    φ (pos + 2) = φ pos + 2
      ∧ ∃ rest', bs' = a :: b :: rest' ∧ Carries φ (pos + 2) bs rest' := by
  cases h with
  | paired => exact absurd rfl ha
  | same hpos _ h =>
    cases h with
    | paired => exact absurd rfl hb
    | same hpos' _ h =>
      refine ⟨?_, _, rfl, h⟩
      show φ (pos + 1 + 1) = _
      rw [hpos', hpos]

end Carries

/-! ### The scanner -/

/-- A line comment goes on with a byte that ends no line. -/
theorem inLine_cons (hb : isBreakByte b = false) :
    inLine bounded start pos (b :: bs) = inLine bounded start (pos + 1) bs :=
  inLine_append (List.forall_mem_singleton.mpr hb)

/-- A block comment goes on with a byte that does not end it, -/
theorem inBlock_cons (h : b = star → bs.head? ≠ some slash) :
    inBlock bounded start pos (b :: bs) = inBlock bounded start (pos + 1) bs := by
  rw [inBlock]
  rintro rest hb rfl
  exact h hb rfl

/-- and is over at a star and a slash. -/
theorem inBlock_close :
    inBlock bounded start pos (star :: slash :: bs)
      = ⟨.blockComment, start, pos + 2, startsWithBreak bs⟩ ::
        inText bounded (pos + 2) (pos + 2) bs :=
  inBlock.eq_1 bounded start pos bs

/-- To step over a line break leaves fewer bytes. -/
theorem length_drop_break {size : Nat} (hbreak : startsWithBreak bs = true)
    (hsize : bs.length ≤ size + 1) : (bs.drop (breakWidth bs)).length ≤ size := by
  rw [List.length_drop]
  obtain ⟨rest, rfl⟩ | ⟨b, rest, rfl, hb, hpair⟩ := break_cases hbreak
  · show _ - 2 ≤ _
    omega
  · rw [breakWidth_eq_one hb hpair]
    omega

/-- There is no width where no line break is. -/
theorem breakWidth_eq_zero (h : startsWithBreak bs = false) : breakWidth bs = 0 := by
  cases bs with
  | nil => rfl
  | cons b rest =>
    have hb : isBreakByte b = false := h
    rw [breakWidth.eq_2, hb]
    · rfl
    · rintro _ rfl _
      exact absurd hb (by decide)

/-- A line break has one -/
theorem breakWidth_pos (h : startsWithBreak bs = true) : 0 < breakWidth bs := by
  obtain ⟨rest, rfl⟩ | ⟨b, rest, rfl, hb, hpair⟩ := break_cases h
  · exact Nat.succ_pos 1
  · rw [breakWidth_eq_one hb hpair]
    exact Nat.succ_pos 0

/-- that is within the bytes there are. -/
theorem breakWidth_le : breakWidth bs ≤ bs.length := by
  unfold breakWidth
  split
  · simp
  · split <;> simp
  · simp

/-- What scans of at most `size` bytes before `last` find of what was carried. -/
structure Scanned (φ : Nat → Nat) (bounded : Bool) (last size : Nat) : Prop where
  inText : ∀ {pos opened bs bs'}, bs.length ≤ size → pos + bs.length ≤ last →
    Carries φ pos bs bs' →
    Copied φ last (inText bounded opened pos bs) (Trivia.inText bounded (φ opened) (φ pos) bs')
  /-- Up to `pos` the line comment has got no longer. -/
  inLine : ∀ {pos start bs bs'}, bs.length ≤ size → pos + bs.length ≤ last →
    Carries φ pos bs bs' → start ≤ last → φ pos + start = φ start + pos →
    Copied φ last (inLine bounded start pos bs) (Trivia.inLine bounded (φ start) (φ pos) bs')
  inBlock : ∀ {pos start bs bs'}, bs.length ≤ size → pos + bs.length ≤ last →
    Carries φ pos bs bs' → start ≤ last →
    Copied φ last (inBlock bounded start pos bs) (Trivia.inBlock bounded (φ start) (φ pos) bs')

section

variable {size : Nat} (hφ : StrictMono φ)
include hφ

/-- Without bytes nothing is found anywhere. -/
theorem Scanned.zero : Scanned φ bounded last 0 where
  inText hsize hlast h := by
    obtain rfl := List.eq_nil_of_length_eq_zero (Nat.le_zero.mp hsize)
    cases h
    exact copied_plainText hφ hlast
  inLine hsize hlast h hstart htight := by
    obtain rfl := List.eq_nil_of_length_eq_zero (Nat.le_zero.mp hsize)
    cases h
    exact Copied.cons ⟨hstart, hlast, fun _ => htight⟩ .nil
  inBlock hsize hlast h hstart := by
    obtain rfl := List.eq_nil_of_length_eq_zero (Nat.le_zero.mp hsize)
    cases h
    exact Copied.cons ⟨hstart, hlast, nofun⟩ .nil

/-- One byte more of plain text: it is blank, begins a comment or ends the scan, on both sides. -/
theorem Scanned.inText_succ (ih : Scanned φ bounded last size) (hsize : bs.length ≤ size + 1)
    (hlast : pos + bs.length ≤ last) (h : Carries φ pos bs bs') :
    Copied φ last (Trivia.inText bounded opened pos bs)
      (Trivia.inText bounded (φ opened) (φ pos) bs') := by
  have hplain : Copied φ last (plainText opened pos) (plainText (φ opened) (φ pos)) :=
    copied_plainText hφ (Nat.le_of_add_right_le hlast)
  cases bs with
  | nil => exact (Scanned.zero hφ).inText (Nat.le_refl 0) hlast h
  | cons b bs =>
    rw [List.length_cons] at hsize hlast
    obtain ⟨rest, rfl, rfl⟩ | hline := pair_cases slash slash b bs
    · obtain ⟨hpos, rest', rfl, h'⟩ := h.pair (by decide) (by decide)
      rw [List.length_cons] at hsize hlast
      rw [inText_line, inText_line, ← hpos]
      exact hplain.append (ih.inLine (by omega) (by omega) h' (by omega) (by omega))
    obtain ⟨rest, rfl, rfl⟩ | hblock := pair_cases slash star b bs
    · obtain ⟨hpos, rest', rfl, h'⟩ := h.pair (by decide) (by decide)
      rw [List.length_cons] at hsize hlast
      rw [inText_block, inText_block, ← hpos]
      exact hplain.append (ih.inBlock (by omega) (by omega) h' (by omega))
    cases h with
    | same hpos _ h =>
      rw [inText_cons hline hblock,
        inText_cons (fun hb => h.head?_ne (by decide) (hline hb))
          (fun hb => h.head?_ne (by decide) (hblock hb)), ← hpos]
      split
      · exact ih.inText (by omega) (by omega) h
      · exact hplain
    | paired hpos h =>
      rw [inText_space (by decide), inText_space (by decide), inText_space (by decide)]
      have hcopied := @ih.inText _ opened _ _ (by omega) (by omega) h
      rwa [hpos] at hcopied

/-- One byte more of a line comment, whose length has not changed so far. -/
theorem Scanned.inLine_succ (ih : Scanned φ bounded last size) (hsize : bs.length ≤ size + 1)
    (hlast : pos + bs.length ≤ last) (h : Carries φ pos bs bs') (hstart : start ≤ last)
    (htight : φ pos + start = φ start + pos) :
    Copied φ last (Trivia.inLine bounded start pos bs)
      (Trivia.inLine bounded (φ start) (φ pos) bs') := by
  have hfits : Span.Fits φ last ⟨.lineComment, start, pos, true⟩ :=
    ⟨hstart, Nat.le_of_add_right_le hlast, fun _ => htight⟩
  by_cases hbreak : startsWithBreak bs = true
  · obtain ⟨hpos, hdrop⟩ := h.drop_break hbreak
    have hwidth : breakWidth bs ≤ bs.length := breakWidth_le
    rw [inLine_break hbreak, inLine_break (h.startsWithBreak_eq.trans hbreak), ← hpos]
    refine Copied.cons hfits (ih.inText (length_drop_break hbreak hsize) ?_ hdrop)
    rw [List.length_drop]
    omega
  · cases h with
    | nil => exact (Scanned.zero hφ).inLine (Nat.le_refl 0) hlast .nil hstart htight
    | same hpos _ h =>
      have hb := Bool.eq_false_iff.mpr hbreak
      rw [List.length_cons] at hsize hlast
      rw [inLine_cons hb, inLine_cons hb, ← hpos]
      exact ih.inLine (by omega) (by omega) h hstart (by omega)
    | paired => exact absurd rfl hbreak

/-- One byte more of a block comment. -/
theorem Scanned.inBlock_succ (ih : Scanned φ bounded last size) (hsize : bs.length ≤ size + 1)
    (hlast : pos + bs.length ≤ last) (h : Carries φ pos bs bs') (hstart : start ≤ last) :
    Copied φ last (Trivia.inBlock bounded start pos bs)
      (Trivia.inBlock bounded (φ start) (φ pos) bs') := by
  cases bs with
  | nil => exact (Scanned.zero hφ).inBlock (Nat.le_refl 0) hlast h hstart
  | cons b bs =>
    rw [List.length_cons] at hsize hlast
    obtain ⟨rest, rfl, rfl⟩ | hopen := pair_cases star slash b bs
    · obtain ⟨hpos, rest', rfl, h'⟩ := h.pair (by decide) (by decide)
      rw [List.length_cons] at hsize hlast
      rw [inBlock_close, inBlock_close, ← hpos, h'.startsWithBreak_eq]
      refine Copied.cons ⟨hstart, ?_, nofun⟩ (ih.inText (by omega) (by omega) h')
      show pos + 2 ≤ last
      omega
    cases h with
    | same hpos _ h =>
      rw [inBlock_cons hopen, inBlock_cons fun hb => h.head?_ne (by decide) (hopen hb), ← hpos]
      exact ih.inBlock (by omega) (by omega) h hstart
    | paired hpos h =>
      rw [inBlock_cons hopen, inBlock_cons (absurd · (by decide)),
        inBlock_cons (absurd · (by decide))]
      have hcopied := ih.inBlock (by omega) (by omega) h hstart
      rwa [hpos] at hcopied

/-- Scans find what was carried, by induction on the number of bytes. -/
theorem scanned (size : Nat) : Scanned φ bounded last size := by
  induction size with
  | zero => exact .zero hφ
  | succ size ih =>
    exact ⟨ih.inText_succ hφ, ih.inLine_succ hφ, ih.inBlock_succ hφ⟩

end

/-! ### Texts -/

/-- The bytes of a text between two offsets. -/
def window (text : String) (start stop : Nat) : List UInt8 :=
  ((bytes text).drop start).take (stop - start)

/-- What stands in a text before `last` is carried to another one by `φ`. -/
structure Moves (φ : Nat → Nat) (text text' : String) (last : Nat) : Prop where
  strictMono : StrictMono φ
  le : last ≤ (bytes text).length
  le' : φ last ≤ (bytes text').length
  carries : ∀ {p q}, p ≤ q → q ≤ last → Carries φ p (window text p q) (window text' (φ p) (φ q))

/-- There are no more bytes between two offsets than their difference. -/
theorem length_window_le (text : String) (p q : Nat) : (window text p q).length ≤ q - p :=
  (List.length_take_le _ _)

/-- There are none between offsets the wrong way round. -/
theorem window_of_le (text : String) {p q : Nat} (h : q ≤ p) : window text p q = [] := by
  rw [window, Nat.sub_eq_zero_of_le h, List.take_zero]

/-- A scan up to an offset is one of the bytes before it. -/
theorem scan_eq_window {text : String} {p q : Nat} (hq : q ≤ (bytes text).length) :
    scan text p (some q) = inText true (min p q) (min p q) (window text (min p q) q) := by
  rw [scan, Option.getD_some, Nat.min_eq_left hq]
  rfl

namespace Moves

variable {text text' : String} {p q : Nat} (h : Moves φ text text' last)
include h

/-- A scan of what was moved. -/
theorem scan (hq : q ≤ last) :
    Copied φ last (scan text p (some q)) (Trivia.scan text' (φ p) (some (φ q))) := by
  have hq' : φ q ≤ (bytes text').length := (h.strictMono.monotone hq).trans h.le'
  rw [scan_eq_window (hq.trans h.le), scan_eq_window hq', ← h.strictMono.monotone.map_min]
  have hlength := length_window_le text (min p q) q
  have hmin := Nat.min_le_right p q
  exact (scanned h.strictMono _).inText (Nat.le_refl _) (by omega)
    (h.carries hmin hq)

/-- Where the line after a break begins. -/
theorem afterBreak (hq : q ≤ last) :
    afterBreak text' (φ q) (φ p) = φ (afterBreak text q p) := by
  show φ p + breakWidth (window text' (φ p) (φ q)) = φ (p + breakWidth (window text p q))
  by_cases hpq : p ≤ q
  · have hcarries := h.carries hpq hq
    by_cases hbreak : startsWithBreak (window text p q) = true
    · exact (hcarries.drop_break hbreak).1.symm
    · have hplain := Bool.eq_false_iff.mpr hbreak
      rw [breakWidth_eq_zero hplain, breakWidth_eq_zero (hcarries.startsWithBreak_eq.trans hplain)]
      rfl
  · rw [window_of_le text (by omega),
      window_of_le text' (h.strictMono.monotone (Nat.le_of_not_le hpq))]
    rfl

end Moves

end Transcode.Trivia
