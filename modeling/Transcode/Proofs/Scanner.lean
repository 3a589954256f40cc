import Mathlib.Tactic.ByContra
import Transcode.Proofs.Lexing
import Transcode.Trivia.Scan

namespace Transcode.Trivia

open Text

/-!
# What the trivia scanner reads

The scanner works on bytes and the lexer on characters.  The markers of comments and line breaks
are ASCII, and an ASCII byte is never a part of a longer character (`eq_of_mem_utf8EncodeChar`),
so that both see the same markers.  From there on the lemmas say for each mode of the scanner
how it gets over what the lexer reads in one go: layout, the body of a comment, and the end of a
comment.

Of the spans that a scan finds only two things matter here: the places of the comments among
them (`comments`), and where the last of them ends (`endFrom`).
-/

/-! ### Characters as bytes -/

/-- The UTF-8 form of some characters. -/
def encode (cs : List Char) : List UInt8 :=
  cs.flatMap String.utf8EncodeChar

variable {c : Char} {cs rest : List Char} {b : UInt8} {bs more : List UInt8}

/-- Text is encoded part by part -/
theorem encode_append (a b : List Char) : encode (a ++ b) = encode a ++ encode b :=
  List.flatMap_append

/-- and character by character. -/
theorem encode_cons (c : Char) (cs : List Char) :
    encode (c :: cs) = String.utf8EncodeChar c ++ encode cs :=
  List.flatMap_cons

/-- The bytes of a text are counted character by character. -/
theorem length_encode (cs : List Char) : (encode cs).length = byteLength cs := by
  induction cs with
  | nil => rfl
  | cons c cs ih => rw [encode_cons, List.length_append, String.length_utf8EncodeChar, ih,
      byteLength_cons]

/-- A byte of ASCII stands for itself only. -/
theorem eq_of_mem_utf8EncodeChar (h : b ∈ String.utf8EncodeChar c) (hb : b < 0x80) :
    c.toNat = b.toNat := by
  rw [UInt8.lt_iff_toNat_lt] at hb
  -- The bytes of longer forms are all large.
  have hlarge : ∀ n m : Nat, 0x80 ≤ m → n + m < 256 → b ≠ UInt8.ofNat (n + m) := by
    rintro n m hm hlt rfl
    rw [UInt8.toNat_ofNat', Nat.mod_eq_of_lt hlt] at hb
    have h128 : (0x80 : UInt8).toNat = 128 := rfl
    omega
  unfold String.utf8EncodeChar at h
  dsimp only at h
  split at h
  · rename_i hv
    rw [List.mem_singleton.mp h, UInt8.toNat_ofNat', Nat.mod_eq_of_lt (by omega)]
    rfl
  · split at h
    · simp only [List.mem_cons, List.not_mem_nil, or_false] at h
      rcases h with h | h
      all_goals exact absurd h (hlarge _ _ (by decide) (by omega))
    · split at h
      · simp only [List.mem_cons, List.not_mem_nil, or_false] at h
        rcases h with h | h | h
        all_goals exact absurd h (hlarge _ _ (by decide) (by omega))
      · simp only [List.mem_cons, List.not_mem_nil, or_false] at h
        rcases h with h | h | h | h
        all_goals exact absurd h (hlarge _ _ (by decide) (by omega))

/-- If the bytes begin with one of ASCII, the characters begin with that one. -/
theorem head?_of_head?_encode {d : Char} (h : (encode cs).head? = some b) (hb : b < 0x80)
    (hd : d.toNat = b.toNat) : cs.head? = some d := by
  cases cs with
  | nil => cases h
  | cons c cs =>
    obtain ⟨b', bs, hbytes⟩ := List.exists_cons_of_ne_nil (String.utf8EncodeChar_ne_nil (c := c))
    rw [encode_cons, hbytes, List.cons_append, List.head?_cons] at h
    cases h
    have hmem : b ∈ String.utf8EncodeChar c := by
      rw [hbytes]
      exact List.mem_cons_self
    have hc := eq_of_mem_utf8EncodeChar hmem hb
    rw [List.head?_cons, Char.toNat_inj.mp (hc.trans hd.symm)]

/-! ### What matters of spans -/

/-- What kind of comment a span is, and where it begins and ends. -/
def Span.place (s : Span) : Kind × Nat × Nat :=
  (s.kind, s.start, s.stop)

/-- The comments among some spans. -/
def comments (spans : List Span) : List (Kind × Nat × Nat) :=
  (spans.filter Span.isComment).map Span.place

/-- Where a span ends, with the line break that belongs to it. -/
def Span.reach (text : String) (s : Span) : Nat :=
  if s.kind = .lineComment ∧ s.endsLine = true then
    afterBreak text (bytes text).length s.stop
  else s.stop

/-- Where the last of some spans ends, or else `start`. -/
def endFrom (text : String) (start : Nat) (spans : List Span) : Nat :=
  spans.foldl (fun _ s => s.reach text) start

variable {text : String} {opened opened' start pos : Nat} {spans spans' : List Span}

/-- Spans end where the last part of them does. -/
theorem endFrom_append :
    endFrom text start (spans ++ spans') = endFrom text (endFrom text start spans) spans' :=
  List.foldl_append

/-- The trivia end where the spans do. -/
theorem skipTrivia_eq_endFrom :
    skipTrivia text start
      = endFrom text (min start (bytes text).length) (scan text start none) := by
  unfold skipTrivia
  rcases List.eq_nil_or_concat (scan text start none) with hnil | ⟨spans, span, hspans⟩
  · rw [hnil]
    rfl
  · rw [hspans, List.concat_eq_append, List.getLast?_concat, endFrom_append]
    obtain ⟨kind, start, stop, endsLine⟩ := span
    cases kind <;> cases endsLine <;> rfl

/-- Comments are picked part by part. -/
theorem comments_append : comments (spans ++ spans') = comments spans ++ comments spans' := by
  rw [comments, List.filter_append, List.map_append]
  rfl

/-- There are no comments in plain text. -/
theorem comments_plainText : comments (plainText opened pos) = [] := by
  unfold plainText
  split <;> rfl

/-- Plain text ends where it is closed. -/
theorem endFrom_plainText (h : opened ≤ pos) :
    endFrom text opened (plainText opened pos) = pos := by
  unfold plainText
  split
  · rfl
  · exact Nat.le_antisymm h (Nat.le_of_not_lt ‹_›)

/-! ### Outside comments -/

/-- Either the two bytes `x` and `y` come next, or they do not. -/
theorem pair_cases (x y b : UInt8) (bs : List UInt8) :
    (∃ rest, b = x ∧ bs = y :: rest) ∨ (b = x → bs.head? ≠ some y) := by
  by_cases hpair : b = x ∧ bs.head? = some y
  · obtain ⟨rest, hrest⟩ := List.head?_eq_some_iff.mp hpair.2
    exact .inl ⟨rest, hpair.1, hrest⟩
  · exact .inr fun hb hhead => hpair ⟨hb, hhead⟩

/-- Line breaks are blank. -/
theorem isSpaceByte_of_isBreakByte (hb : isBreakByte b = true) : isSpaceByte b = true := by
  simp only [isBreakByte, Bool.or_eq_true, beq_iff_eq] at hb
  rcases hb with rfl | rfl <;> decide

/-- Two slashes close the plain text and begin a line comment, -/
theorem inText_line {bounded : Bool} :
    inText bounded opened pos (slash :: slash :: bs)
      = plainText opened pos ++ inLine bounded pos (pos + 2) bs :=
  inText.eq_1 bounded opened pos bs

/-- a slash and a star begin a block comment, -/
theorem inText_block {bounded : Bool} :
    inText bounded opened pos (slash :: star :: bs)
      = plainText opened pos ++ inBlock bounded pos (pos + 2) bs :=
  inText.eq_2 bounded opened pos bs

/-- Where no comment begins. -/
theorem inText_cons {bounded : Bool} (hline : b = slash → bs.head? ≠ some slash)
    (hblock : b = slash → bs.head? ≠ some star) :
    inText bounded opened pos (b :: bs)
      = if isSpaceByte b || bounded then inText bounded opened (pos + 1) bs
        else plainText opened pos := by
  rw [inText]
  · rintro rest hb rfl
    exact hline hb rfl
  · rintro rest hb rfl
    exact hblock hb rfl

/-- plain text goes on with a blank, -/
theorem inText_space {bounded : Bool} (hb : isSpaceByte b = true) :
    inText bounded opened pos (b :: bs) = inText bounded opened (pos + 1) bs := by
  have hslash : b ≠ slash := by
    rintro rfl
    exact absurd hb (by decide)
  rw [inText_cons (absurd · hslash) (absurd · hslash), hb]
  rfl

/-- and ends at anything else. -/
theorem inText_stop (hb : isSpaceByte b = false) (hline : b = slash → bs.head? ≠ some slash)
    (hblock : b = slash → bs.head? ≠ some star) :
    inText false opened pos (b :: bs) = plainText opened pos := by
  rw [inText_cons hline hblock, hb]
  rfl

/-- Where the current stretch of text began makes no difference to what comes after it. -/
theorem inText_eq_append (bounded : Bool) (pos : Nat) (bs : List UInt8) :
    ∃ pos' spans, pos ≤ pos' ∧ ∀ opened,
      inText bounded opened pos bs = plainText opened pos' ++ spans := by
  induction bs generalizing pos with
  | nil => exact ⟨pos, [], Nat.le_refl _, fun opened => by rw [inText, List.append_nil]⟩
  | cons b bs ih =>
    obtain ⟨rest, rfl, rfl⟩ | hline := pair_cases slash slash b bs
    · exact ⟨pos, inLine bounded pos (pos + 2) rest, Nat.le_refl _, fun _ => inText_line⟩
    obtain ⟨rest, rfl, rfl⟩ | hblock := pair_cases slash star b bs
    · exact ⟨pos, inBlock bounded pos (pos + 2) rest, Nat.le_refl _, fun _ => inText_block⟩
    have hcons : ∀ opened, inText bounded opened pos (b :: bs)
        = if isSpaceByte b || bounded then inText bounded opened (pos + 1) bs
          else plainText opened pos :=
      fun _ => inText_cons hline hblock
    by_cases hspace : (isSpaceByte b || bounded) = true
    · obtain ⟨pos', spans, hle, hspans⟩ := ih (pos + 1)
      refine ⟨pos', spans, Nat.le_of_succ_le hle, fun opened => ?_⟩
      rw [hcons, if_pos hspace, hspans]
    · refine ⟨pos, [], Nat.le_refl _, fun opened => ?_⟩
      rw [hcons, if_neg hspace, List.append_nil]

/-- The comments found do not depend on where plain text began, -/
theorem comments_inText {bounded : Bool} (opened opened' : Nat) :
    comments (inText bounded opened pos bs) = comments (inText bounded opened' pos bs) := by
  obtain ⟨pos', spans, -, hspans⟩ := inText_eq_append bounded pos bs
  rw [hspans, hspans, comments_append, comments_append, comments_plainText, comments_plainText]

/-- and neither does the end of the scan. -/
theorem endFrom_inText {bounded : Bool} (h : opened ≤ pos) (h' : opened' ≤ pos) :
    endFrom text opened (inText bounded opened pos bs)
      = endFrom text opened' (inText bounded opened' pos bs) := by
  obtain ⟨pos', spans, hle, hspans⟩ := inText_eq_append bounded pos bs
  rw [hspans, hspans, endFrom_append, endFrom_append, endFrom_plainText (Nat.le_trans h hle),
    endFrom_plainText (Nat.le_trans h' hle)]

/-! ### Inside comments -/

/-- A line comment gets over bytes that break no line. -/
theorem inLine_append {bounded : Bool} (h : ∀ b ∈ bs, isBreakByte b = false) :
    inLine bounded start pos (bs ++ more) = inLine bounded start (pos + bs.length) more := by
  induction bs generalizing pos with
  | nil => rfl
  | cons b bs ih =>
    have hb := h b List.mem_cons_self
    rw [List.cons_append, inLine, hb, if_neg Bool.false_ne_true,
      ih fun b' hb' => h b' (List.mem_cons_of_mem _ hb'), List.length_cons, Nat.add_right_comm,
      Nat.add_assoc]
    rintro rest rfl -
    exact absurd hb (by decide)

/-- A block comment gets over bytes that are no star. -/
theorem inBlock_append {bounded : Bool} (h : ∀ b ∈ bs, b ≠ star) :
    inBlock bounded start pos (bs ++ more) = inBlock bounded start (pos + bs.length) more := by
  induction bs generalizing pos with
  | nil => rfl
  | cons b bs ih =>
    rw [List.cons_append, inBlock, ih fun b' hb' => h b' (List.mem_cons_of_mem _ hb'),
      List.length_cons, Nat.add_right_comm, Nat.add_assoc]
    rintro rest hb -
    exact h b List.mem_cons_self hb

/-- A line break is a carriage return with a line feed, or one byte of either kind. -/
theorem break_cases (h : startsWithBreak bs = true) :
    (∃ rest, bs = carriageReturn :: lineFeed :: rest)
      ∨ ∃ b rest, bs = b :: rest ∧ isBreakByte b = true
        ∧ ∀ rest', b = carriageReturn → rest = lineFeed :: rest' → False := by
  cases bs with
  | nil => cases h
  | cons b rest =>
    obtain ⟨rest, rfl, rfl⟩ | hpair := pair_cases carriageReturn lineFeed b rest
    · exact .inl ⟨rest, rfl⟩
    · refine .inr ⟨b, rest, rfl, h, ?_⟩
      rintro rest' hb rfl
      exact hpair hb rfl

/-- A line break has one byte, unless it is a carriage return before a line feed. -/
theorem breakWidth_eq_one (hb : isBreakByte b = true)
    (hpair : ∀ rest', b = carriageReturn → bs = lineFeed :: rest' → False) :
    breakWidth (b :: bs) = 1 := by
  rw [breakWidth.eq_2 b bs hpair, if_pos hb]

/-- The line break at the beginning of some bytes ends a line comment. -/
theorem inLine_break {bounded : Bool} (h : startsWithBreak bs = true) :
    inLine bounded start pos bs = ⟨.lineComment, start, pos, true⟩ ::
      inText bounded (pos + breakWidth bs) (pos + breakWidth bs) (bs.drop (breakWidth bs)) := by
  obtain ⟨rest, rfl⟩ | ⟨b, rest, rfl, hb, hpair⟩ := break_cases h
  · exact inLine.eq_1 bounded start pos rest
  · rw [inLine.eq_2 bounded start pos b rest hpair, if_pos hb, breakWidth_eq_one hb hpair]
    rfl

/-- Outside comments it is skipped. -/
theorem inText_break {bounded : Bool} (h : startsWithBreak bs = true) :
    inText bounded opened pos bs
      = inText bounded opened (pos + breakWidth bs) (bs.drop (breakWidth bs)) := by
  obtain ⟨rest, rfl⟩ | ⟨b, rest, rfl, hb, hpair⟩ := break_cases h
  · rw [inText_space (by decide), inText_space (by decide)]
    rfl
  · rw [inText_space (isSpaceByte_of_isBreakByte hb), breakWidth_eq_one hb hpair]
    rfl

/-- The line break at an offset ends as far behind it as it is wide. -/
theorem afterBreak_eq {before : List UInt8} (h : bytes text = before ++ bs)
    (hpos : before.length = pos) :
    afterBreak text (bytes text).length pos = pos + breakWidth bs := by
  rw [afterBreak, h, ← hpos, List.drop_left, List.length_append, Nat.add_sub_cancel_left,
    List.take_length]

/-- Where a line comment ends, the scan goes on as if it began there. -/
theorem comments_inLine (h : bs = [] ∨ startsWithBreak bs = true) :
    comments (inLine false start pos bs)
      = (.lineComment, start, pos) :: comments (inText false pos pos bs) := by
  rcases h with rfl | h
  · simp only [inLine, inText]
    rw [comments_plainText]
    rfl
  · rw [inLine_break h, inText_break h, comments_inText pos (pos + breakWidth bs)]
    rfl

/-- A line comment that ends reaches over the line break at its end. -/
theorem endFrom_inLine {before : List UInt8} (h : bs = [] ∨ startsWithBreak bs = true)
    (hbytes : bytes text = before ++ bs) (hpos : before.length = pos) :
    endFrom text opened (inLine false start pos bs)
      = endFrom text pos (inText false pos pos bs) := by
  rcases h with rfl | h
  · simp only [inLine, inText]
    rw [endFrom_plainText (Nat.le_refl _)]
    rfl
  · rw [inLine_break h, inText_break h,
      endFrom_inText (Nat.le_add_right _ _) (Nat.le_refl (pos + breakWidth bs)),
      ← afterBreak_eq hbytes hpos]
    rfl

/-! ### Markers as characters -/

/-- A byte of a line break belongs to a character that is one. -/
theorem isLineBreak_of_mem (h : b ∈ String.utf8EncodeChar c) (hb : isBreakByte b = true) :
    Script.isLineBreak c = true := by
  simp only [isBreakByte, Bool.or_eq_true, beq_iff_eq] at hb
  rcases hb with rfl | rfl
  · have hc : c = '\n' := Char.toNat_inj.mp (eq_of_mem_utf8EncodeChar h (by decide))
    rw [hc]
    rfl
  · have hc : c = '\r' := Char.toNat_inj.mp (eq_of_mem_utf8EncodeChar h (by decide))
    rw [hc]
    rfl

/-- A line comment gets over characters that break no line. -/
theorem inLine_encode {bounded : Bool} (h : ∀ c ∈ cs, Script.isLineBreak c = false) :
    inLine bounded start pos (encode cs ++ more)
      = inLine bounded start (pos + byteLength cs) more := by
  rw [← length_encode]
  apply inLine_append
  intro b hb
  obtain ⟨c, hc, hbc⟩ := List.mem_flatMap.mp hb
  by_contra hbreak
  have hc' := isLineBreak_of_mem hbc (by simpa using hbreak)
  rw [h c hc] at hc'
  cases hc'

/-- A line comment ends where the lexer says. -/
theorem startsWithBreak_encode (h : ∀ c ∈ cs.head?, Script.isLineBreak c = true) :
    encode cs = [] ∨ startsWithBreak (encode cs) = true := by
  cases cs with
  | nil => exact .inl rfl
  | cons c cs =>
    have hc := h c rfl
    simp only [Script.isLineBreak, Bool.or_eq_true, beq_iff_eq] at hc
    rcases hc with rfl | rfl <;> exact .inr rfl

/-- A block comment ends where the lexer says. -/
theorem inBlock_encode {bounded : Bool} {n : Nat} (h : Script.blockWidth? cs = some n) :
    inBlock bounded start pos (encode cs) =
      ⟨.blockComment, start, pos + byteLength (cs.take n), startsWithBreak (encode (cs.drop n))⟩ ::
        inText bounded (pos + byteLength (cs.take n)) (pos + byteLength (cs.take n))
          (encode (cs.drop n)) := by
  fun_induction Script.blockWidth? cs generalizing pos n with
  | case1 => cases h
  | case2 rest =>
    cases h
    exact inBlock.eq_1 bounded start pos (encode rest)
  | case3 c rest hclose ih =>
    obtain ⟨m, hm, rfl⟩ := Option.map_eq_some_iff.mp h
    have hstep : inBlock bounded start pos (encode (c :: rest))
        = inBlock bounded start (pos + c.utf8Size) (encode rest) := by
      by_cases hc : c = '*'
      · subst hc
        refine inBlock.eq_2 bounded start pos star (encode rest) ?_
        rintro bs - hbs
        have hhead : (encode rest).head? = some slash := by rw [hbs]; rfl
        obtain ⟨tail, htail⟩ := List.head?_eq_some_iff.mp
          (head?_of_head?_encode (d := '/') hhead (by decide) rfl)
        exact hclose tail rfl htail
      · rw [encode_cons, inBlock_append, String.length_utf8EncodeChar]
        rintro b hb rfl
        exact hc (Char.toNat_inj.mp (eq_of_mem_utf8EncodeChar hb (by decide)))
    rw [hstep, ih hm, List.take_succ_cons, List.drop_succ_cons, byteLength_cons, Nat.add_assoc]

/-! ### Whole comments -/

/-- After a line comment the scan goes on as if it began there. -/
theorem scan_lineComment {body : List Char} {before : List UInt8}
    (hbody : ∀ c ∈ body, Script.isLineBreak c = false)
    (hbreak : ∀ c ∈ cs.head?, Script.isLineBreak c = true)
    (hbytes : bytes text = before ++ encode ('/' :: '/' :: body ++ cs))
    (hbefore : before.length = pos) (hopened : opened ≤ pos) :
    let stop := pos + byteLength ('/' :: '/' :: body)
    comments (inText false opened pos (encode ('/' :: '/' :: body ++ cs)))
        = (.lineComment, pos, stop) :: comments (inText false stop stop (encode cs))
      ∧ endFrom text opened (inText false opened pos (encode ('/' :: '/' :: body ++ cs)))
        = endFrom text stop (inText false stop stop (encode cs)) := by
  intro stop
  have hencode : encode ('/' :: '/' :: body ++ cs)
      = slash :: slash :: (encode body ++ encode cs) := by
    rw [← encode_append]
    rfl
  have hstop : pos + 2 + byteLength body = stop := by
    show _ = pos + (1 + (1 + byteLength body))
    omega
  have hscan : inText false opened pos (encode ('/' :: '/' :: body ++ cs))
      = plainText opened pos ++ inLine false pos stop (encode cs) := by
    rw [hencode, inText_line, inLine_encode hbody, hstop]
  have hend := startsWithBreak_encode hbreak
  rw [hscan, comments_append, comments_plainText, endFrom_append, endFrom_plainText hopened,
    comments_inLine hend]
  have hbytes' : bytes text = before ++ encode ('/' :: '/' :: body) ++ encode cs := by
    rw [hbytes, List.append_assoc, ← encode_append]
  have hbefore' : (before ++ encode ('/' :: '/' :: body)).length = stop := by
    rw [List.length_append, length_encode, hbefore]
  exact ⟨rfl, endFrom_inLine hend hbytes' hbefore'⟩

/-- After a block comment too. -/
theorem scan_blockComment {body : List Char}
    (hclose : Script.blockWidth? (body ++ cs) = some body.length) (hopened : opened ≤ pos) :
    let stop := pos + byteLength ('/' :: '*' :: body)
    comments (inText false opened pos (encode ('/' :: '*' :: body ++ cs)))
        = (.blockComment, pos, stop) :: comments (inText false stop stop (encode cs))
      ∧ endFrom text opened (inText false opened pos (encode ('/' :: '*' :: body ++ cs)))
        = endFrom text stop (inText false stop stop (encode cs)) := by
  intro stop
  have hencode : encode ('/' :: '*' :: body ++ cs) = slash :: star :: encode (body ++ cs) := rfl
  have hstop : pos + 2 + byteLength body = stop := by
    show _ = pos + (1 + (1 + byteLength body))
    omega
  have hscan : inText false opened pos (encode ('/' :: '*' :: body ++ cs))
      = plainText opened pos ++ ⟨.blockComment, pos, stop, startsWithBreak (encode cs)⟩ ::
        inText false stop stop (encode cs) := by
    rw [hencode, inText_block, inBlock_encode hclose, List.take_left, List.drop_left, hstop]
  rw [hscan, comments_append, comments_plainText, endFrom_append, endFrom_plainText hopened]
  exact ⟨rfl, rfl⟩

end Transcode.Trivia
