import Transcode.Proofs.Boundaries
import Transcode.Proofs.Scanner

namespace Transcode.Script

open Text

/-!
# Gaps between tokens

The lexer drops the comments between two tokens, and the trivia scanner, which never saw the
tokens, finds them again: in a source that parses, a scan from where a node's leading trivia begin
ends where its first token begins, and reports exactly the comments dropped in between
(`scan_leadingTrivia`).

The two do not read alike.  A `/` and a `*` that open no comment are two operators for the lexer,
while the scanner takes them for a comment without an end; and that is the only place where they
part (`scan_gap`).  The grammar allows no `*` right after a `/`, so that no source that parses has
such a place.
-/

/-- What kind of comment a token is, and where it begins and ends. -/
def Lexeme.place (l : Lexeme) : Trivia.Kind × Nat × Nat :=
  (if l.token = .lineComment then .lineComment else .blockComment, l.start, l.stop)

/-- The scanner sees that a gap is over: what comes next is no comment, nor a `/` and a `*` that
    it takes for one. -/
def EndsGap (lexemes : List Lexeme) : Prop :=
  ∀ l rest, lexemes = l :: rest → l.token.isComment = false
    ∧ (l.token = .slash → ∀ l' ∈ rest.head?, l'.token ≠ .star)

variable {source : String} {o opened : Nat} {cs : List Char} {dropped after : List Lexeme}
  {front : List UInt8}

theorem encode_layout {c : Char} (h : isLayout c = true) :
    ∃ b, Trivia.isSpaceByte b = true ∧ c.utf8Size = 1
      ∧ ∀ cs, Trivia.encode (c :: cs) = b :: Trivia.encode cs := by
  simp only [isLayout, Bool.or_eq_true, beq_iff_eq] at h
  rcases h with (((rfl | rfl) | rfl) | rfl) | rfl
  all_goals exact ⟨_, rfl, rfl, fun cs => rfl⟩

theorem encode_graphic {c : Char} (h : IsGraphic c) :
    ∃ b, Trivia.isSpaceByte b = false ∧ b.toNat = c.toNat
      ∧ ∀ cs, Trivia.encode (c :: cs) = b :: Trivia.encode cs := by
  obtain ⟨hlow, hhigh⟩ := h
  have hnat : (UInt8.ofNat c.toNat).toNat = c.toNat := by
    rw [UInt8.toNat_ofNat', Nat.mod_eq_of_lt (by omega)]
  refine ⟨UInt8.ofNat c.toNat, ?_, hnat, fun cs => ?_⟩
  · rw [Trivia.isSpaceByte, Bool.or_eq_false_iff, beq_eq_false_iff_ne, Bool.and_eq_false_iff,
      decide_eq_false_iff_not, decide_eq_false_iff_not, UInt8.le_iff_toNat_le,
      UInt8.le_iff_toNat_le, hnat]
    refine ⟨?_, .inr ?_⟩
    · intro heq
      rw [heq] at hnat
      have h32 : (0x20 : UInt8).toNat = 32 := rfl
      omega
    · have h13 : (0x0D : UInt8).toNat = 13 := rfl
      omega
  · rw [Trivia.encode_cons, String.utf8EncodeChar]
    have hval : c.val.toNat ≤ 0x7f := Nat.le_of_lt_succ (Nat.lt_of_lt_of_le hhigh (by decide))
    rw [if_pos hval]
    rfl

/-- What is read of a comment after its slash begins with the character there, and the rest of it
    begins what comes after that. -/
theorem exists_body {more rest : List Char} {a : Char} {n : Nat} (hmore : more ++ cs = a :: rest)
    (hlength : more.length = 1 + n) :
    ∃ body, more = a :: body ∧ body ++ cs = rest ∧ body.length = n := by
  cases more with
  | nil =>
    rw [List.length_nil] at hlength
    omega
  | cons m body =>
    injection hmore with hm hbody
    rw [List.length_cons, Nat.add_comm, Nat.add_right_inj] at hlength
    exact ⟨body, hm ▸ rfl, hbody, hlength⟩

/-- The body of a line comment reaches up to the line break. -/
theorem lineComment_body {more rest : List Char} (hmore : more ++ cs = '/' :: rest)
    (hlength : more.length = 1 + (rest.takeWhile (!isLineBreak ·)).length) :
    ∃ body, more = '/' :: body ∧ (∀ c ∈ body, isLineBreak c = false)
      ∧ ∀ c ∈ cs.head?, isLineBreak c = true := by
  obtain ⟨body, rfl, hbody, hlength⟩ := exists_body hmore hlength
  have hsplit := List.takeWhile_append_dropWhile (p := (!isLineBreak ·)) (l := rest)
  obtain ⟨hbody, hcs⟩ := List.append_inj (hbody.trans hsplit.symm) hlength
  refine ⟨body, rfl, ?_, ?_⟩
  · intro c hc
    rw [hbody] at hc
    simpa using List.all_eq_true.mp List.all_takeWhile c hc
  · intro c hc
    rw [hcs] at hc
    have hnot := List.head?_dropWhile_not (!isLineBreak ·) rest
    rw [hc] at hnot
    simpa using hnot

/-- The body of a block comment reaches up to the end of its closing. -/
theorem blockComment_body {more rest : List Char} {n : Nat} (hmore : more ++ cs = '*' :: rest)
    (hn : blockWidth? rest = some n) (hlength : more.length = 1 + n) :
    ∃ body, more = '*' :: body ∧ blockWidth? (body ++ cs) = some body.length := by
  obtain ⟨body, rfl, rfl, rfl⟩ := exists_body hmore hlength
  exact ⟨body, rfl, hn⟩

/-- After a `/` that opens no comment, a `*` is a token. -/
theorem star_of_lexes {ls : List Lexeme} (h : Lexes o ('*' :: cs) ls) :
    ∃ l ∈ ls.head?, l.token = .star := by
  cases h with
  | layout hc _ => exact absurd hc (by decide)
  | token _ hscan _ =>
    have hstar : ∀ cs, scanToken '*' cs = .token .star 0 := fun _ => rfl
    rw [hstar] at hscan
    injection hscan with ht
    exact ⟨_, rfl, ht.symm⟩

/-- The scanner stops at a token that is no comment. -/
theorem inText_token {c : Char} {more : List Char} {t : Token} {ls : List Lexeme} {pos : Nat}
    (hscan : scanToken c (more ++ cs) = .token t more.length) (ht : t.isComment = false)
    (hls : Lexes o cs ls) (hstar : t = .slash → ∀ l ∈ ls.head?, l.token ≠ .star) :
    Trivia.inText false opened pos (Trivia.encode (c :: (more ++ cs)))
      = Trivia.plainText opened pos := by
  have hscans := scans_of_scanToken hscan
  obtain ⟨b, hspace, hb, hencode⟩ := encode_graphic hscans.isGraphic
  rw [hencode]
  have hslash : b = Trivia.slash → c = '/' := by
    rintro rfl
    exact Char.toNat_inj.mp hb.symm
  apply Trivia.inText_stop hspace
  · intro hb' hhead
    rw [hslash hb'] at hscans
    obtain ⟨-, -, hline, -⟩ := hscans.slash ht
    exact hline (Trivia.head?_of_head?_encode hhead (by decide) rfl)
  · intro hb' hhead
    rw [hslash hb'] at hscans
    obtain ⟨ht', hk, -, -⟩ := hscans.slash ht
    obtain rfl : more = [] := List.eq_nil_of_length_eq_zero hk
    have hhead' := Trivia.head?_of_head?_encode (d := '*') hhead (by decide) rfl
    obtain ⟨cs', rfl⟩ := List.head?_eq_some_iff.mp hhead'
    obtain ⟨l, hl, hlt⟩ := star_of_lexes hls
    exact hstar ht' l hl hlt

/-- The scanner gets over a comment as the lexer does, and goes on after it. -/
theorem scan_comment {c : Char} {more : List Char} {t : Token} (l : Lexeme)
    (hl : l = ⟨t, o, String.ofList (c :: more)⟩)
    (hscan : scanToken c (more ++ cs) = .token t more.length) (ht : t.isComment = true)
    (hbytes : bytes source = front ++ Trivia.encode (c :: (more ++ cs)))
    (hfront : front.length = o) (hopened : opened ≤ o) :
    Trivia.comments (Trivia.inText false opened o (Trivia.encode (c :: (more ++ cs))))
        = l.place :: Trivia.comments (Trivia.inText false l.stop l.stop (Trivia.encode cs))
      ∧ Trivia.endFrom source opened
          (Trivia.inText false opened o (Trivia.encode (c :: (more ++ cs))))
        = Trivia.endFrom source l.stop (Trivia.inText false l.stop l.stop (Trivia.encode cs)) := by
  subst hl
  have hstop : Lexeme.stop ⟨t, o, String.ofList (c :: more)⟩ = o + byteLength (c :: more) := by
    rw [stop_eq, String.toList_ofList]
  rw [Lexeme.place, hstop]
  obtain ⟨rfl, ⟨rest, hmore, rfl, hk⟩ | ⟨rest, n, hmore, rfl, hn, hk⟩⟩ :=
    (scans_of_scanToken hscan).comment ht
  · obtain ⟨body, rfl, hbody, hbreak⟩ := lineComment_body hmore hk
    exact Trivia.scan_lineComment hbody hbreak hbytes hfront hopened
  · obtain ⟨body, rfl, hclose⟩ := blockComment_body hmore hn hk
    exact Trivia.scan_blockComment hclose hopened

/-- **Agreement on a gap.** From the end of a token on, the scanner reports the comments that the
    lexer drops, and ends where the next token begins. -/
theorem scan_gap (h : Lexes o cs (dropped ++ after))
    (hdropped : ∀ l ∈ dropped, l.token.isComment = true) (hafter : EndsGap after)
    (hbytes : bytes source = front ++ Trivia.encode cs) (hfront : front.length = o)
    (hopened : opened ≤ o) :
    Trivia.comments (Trivia.inText false opened o (Trivia.encode cs)) = dropped.map Lexeme.place
      ∧ Trivia.endFrom source opened (Trivia.inText false opened o (Trivia.encode cs))
        = (after.head?.map (·.start)).getD (bytes source).length := by
  -- Where the current stretch of text began may lag behind: the induction is for any place.
  generalize hls : dropped ++ after = ls at h
  induction h generalizing opened front dropped with
  | @nil o =>
    obtain ⟨rfl, rfl⟩ := List.append_eq_nil_iff.mp hls
    have hend : Trivia.inText false opened o (Trivia.encode []) = Trivia.plainText opened o :=
      Trivia.inText.eq_4 false opened o
    rw [hend, Trivia.comments_plainText, Trivia.endFrom_plainText hopened, hbytes, ← hfront]
    exact ⟨rfl, by simp [Trivia.encode]⟩
  | @layout o c cs ls hc _ ih =>
    obtain ⟨b, hb, hsize, hencode⟩ := encode_layout hc
    rw [hencode] at hbytes ⊢
    rw [Trivia.inText_space hb]
    rw [hsize] at ih
    have hbytes' : bytes source = front ++ [b] ++ Trivia.encode cs := by
      rw [hbytes, List.append_assoc]
      rfl
    have hfront' : (front ++ [b]).length = o + 1 := by rw [List.length_append, hfront]; rfl
    exact ih hdropped hbytes' hfront' (Nat.le_succ_of_le hopened) hls
  | @token o c more cs t ls hc hscan hrest ih =>
    cases dropped with
    | nil =>
      obtain rfl : after = _ := hls
      obtain ⟨ht, hstar⟩ := hafter _ _ rfl
      rw [inText_token hscan ht hrest hstar, Trivia.comments_plainText,
        Trivia.endFrom_plainText hopened]
      exact ⟨rfl, rfl⟩
    | cons l dropped =>
      injection hls with hl hls
      have ht : t.isComment = true := by
        have hcomment := hdropped l List.mem_cons_self
        rwa [hl] at hcomment
      obtain ⟨hcomments, hend⟩ := scan_comment l hl hscan ht hbytes hfront hopened
      rw [← hl] at ih
      have hdropped' : ∀ l' ∈ dropped, l'.token.isComment = true :=
        fun l' hl' => hdropped l' (List.mem_cons_of_mem _ hl')
      have hbytes' : bytes source = front ++ Trivia.encode (c :: more) ++ Trivia.encode cs := by
        rw [hbytes, List.append_assoc, ← Trivia.encode_append]
        rfl
      have hfront' : (front ++ Trivia.encode (c :: more)).length = l.stop := by
        rw [List.length_append, Trivia.length_encode, hfront, stop_eq, hl, String.toList_ofList]
      obtain ⟨ihcomments, ihend⟩ := ih hdropped' hbytes' hfront' (Nat.le_refl l.stop) hls
      rw [hcomments, hend, ihcomments, List.map_cons]
      exact ⟨rfl, ihend⟩

/-! ### Leading trivia -/

/-- The tokens of a source with the comments `dropped` among them, which stand between a token or
    the beginning of the source and another token or its end. -/
structure Gap (source : String) (before dropped after : List Lexeme) : Prop where
  tokens : tokens source = .ok (before ++ dropped ++ after)
  dropped : ∀ l ∈ dropped, l.token.isComment = true
  before : ∀ l ∈ before.getLast?, l.token.isComment = false
  after : ∀ l ∈ after.head?, l.token.isComment = false

variable {before : List Lexeme}

/-- A scan from where a gap begins reports what was dropped in it, and ends where it ends. -/
theorem Gap.scan (h : Gap source before dropped after) (hafter : EndsGap after) :
    Trivia.comments (Trivia.scan source (endOf before) none) = dropped.map Lexeme.place
      ∧ Trivia.skipTrivia source (endOf before)
        = (after.head?.map (·.start)).getD source.utf8ByteSize := by
  have hlexes := lexes_of_tokensFrom h.tokens
  rw [List.append_assoc] at hlexes
  -- The source is cut where the gap begins.
  obtain ⟨cs₁, cs₂, hcs, hend, hrest⟩ : ∃ cs₁ cs₂, source.toList = cs₁ ++ cs₂
      ∧ endOf before = byteLength cs₁ ∧ Lexes (endOf before) cs₂ (dropped ++ after) := by
    rcases List.eq_nil_or_concat before with rfl | ⟨before', l, rfl⟩
    · exact ⟨[], source.toList, rfl, rfl, hlexes⟩
    · rw [List.concat_eq_append, List.append_assoc] at hlexes
      obtain ⟨cs₁, c, more, cs₂, hcs, hstart, htext, -, hrest⟩ := hlexes.split
      rw [List.concat_eq_append, endOf_concat]
      refine ⟨cs₁ ++ c :: more, cs₂, by rw [hcs, List.append_assoc], ?_, hrest⟩
      rw [stop_eq, hstart, htext, String.toList_ofList, byteLength_append, Nat.zero_add]
  have hbytes : bytes source = Trivia.encode cs₁ ++ Trivia.encode cs₂ := by
    rw [← Trivia.encode_append, ← hcs]
    rfl
  have hlength : (Trivia.encode cs₁).length = endOf before := by
    rw [Trivia.length_encode, hend]
  have hle : endOf before ≤ (bytes source).length := by
    rw [hbytes, List.length_append, hlength]
    exact Nat.le_add_right _ _
  have hscan : Trivia.scan source (endOf before) none
      = Trivia.inText false (endOf before) (endOf before) (Trivia.encode cs₂) := by
    have hdrop : (bytes source).drop (endOf before) = Trivia.encode cs₂ := by
      rw [hbytes, ← hlength, List.drop_left]
    have htake : (bytes source).length - endOf before = (Trivia.encode cs₂).length := by
      rw [hbytes, List.length_append, hlength, Nat.add_sub_cancel_left]
    simp only [Trivia.scan, Option.getD_none, Nat.min_self, Nat.min_eq_left hle, hdrop, htake,
      List.take_length, Option.isSome_none]
  obtain ⟨hcomments, hskip⟩ :=
    scan_gap hrest h.dropped hafter hbytes hlength (Nat.le_refl _)
  rw [Trivia.skipTrivia_eq_endFrom, hscan, Nat.min_eq_left hle, ← length_bytes]
  exact ⟨hcomments, hskip⟩

/-- Before every token that counts there is a gap. -/
theorem exists_gap {all front back : List Lexeme} {l : Lexeme} (htokens : tokens source = .ok all)
    (h : all.filter (!·.token.isComment) = front ++ l :: back) :
    ∃ before dropped rest, Gap source before dropped (l :: rest) ∧ endOf before = endOf front
      ∧ rest.filter (!·.token.isComment) = back := by
  have hgap : ∀ {before dropped rest : List Lexeme}, all = before ++ dropped ++ l :: rest →
      (∀ x ∈ dropped, ¬ (!x.token.isComment) = true) → (!l.token.isComment) = true →
      (∀ x ∈ before.getLast?, x.token.isComment = false) →
      Gap source before dropped (l :: rest) := by
    rintro before dropped rest rfl hdropped hl hbefore
    exact ⟨htokens, by simpa using hdropped, hbefore, by simpa using hl⟩
  rcases List.eq_nil_or_concat front with rfl | ⟨front', x, rfl⟩
  · obtain ⟨dropped, rest, rfl, hdropped, hl, hrest⟩ := List.filter_eq_cons_iff.mp h
    exact ⟨[], dropped, rest, hgap rfl hdropped hl nofun, rfl, hrest⟩
  · rw [List.concat_eq_append, List.append_assoc] at h
    obtain ⟨all₁, all₂, rfl, -, h⟩ := List.filter_eq_append_iff.mp h
    obtain ⟨comments, all₃, rfl, -, hx, h⟩ := List.filter_eq_cons_iff.mp h
    obtain ⟨dropped, rest, rfl, hdropped, hl, hrest⟩ := List.filter_eq_cons_iff.mp h
    refine ⟨all₁ ++ comments ++ [x], dropped, rest, hgap (by simp) hdropped hl ?_, ?_, hrest⟩
    · rw [List.getLast?_concat]
      simpa using hx
    · rw [endOf_concat, List.concat_eq_append, endOf_concat]

/-- In a source that parses, the scanner sees where a gap ends. -/
theorem endsGap_of_firm {front back rest : List Lexeme} {l : Lexeme}
    (hfirm : Firm (front ++ l :: back)) (hl : l.token.isComment = false)
    (hrest : rest.filter (!·.token.isComment) = back) : EndsGap (l :: rest) := by
  rintro l rest ⟨rfl, rfl⟩
  refine ⟨hl, fun hslash l' hl' hstar => ?_⟩
  obtain ⟨rest', rfl⟩ := List.head?_eq_some_iff.mp hl'
  have hl'' : (!l'.token.isComment) = true := by rw [hstar]; rfl
  rw [List.filter_cons, if_pos hl''] at hrest
  subst hrest
  have hchain := (List.isChain_append.mp hfirm.apart).2.1
  exact (List.isChain_cons_cons.mp hchain).1 ⟨hslash, hstar⟩

/-- In a source that parses, the leading trivia of every node are a gap, and the scanner sees where
    it ends. -/
theorem exists_gap_of_parse {root n : Ast} (h : parse source = .ok root) (hn : n ∈ root.preorder) :
    ∃ before dropped after, Gap source before dropped after ∧ endOf before = n.fullStart
      ∧ (after.head?.map (·.start)).getD source.utf8ByteSize = n.start ∧ EndsGap after := by
  obtain ⟨lexemes, ss, hlex, hss, rfl⟩ := parse_eq_ok.mp h
  obtain ⟨all, htokens, hall⟩ := lex_eq_ok.mp hlex
  rcases begins_of_mem_preorder hss hn with
    ⟨front, l, back, rfl, hfullStart, hstart, -⟩ | ⟨rfl, rfl⟩
  · obtain ⟨before, dropped, rest, hgap, hend, hrest⟩ := exists_gap htokens hall.symm
    exact ⟨before, dropped, l :: rest, hgap, hend.trans hfullStart.symm, hstart.symm,
      endsGap_of_firm (spans_of_derivesAll hss) (hgap.after l rfl) hrest⟩
  · -- A source without tokens is a single gap.
    refine ⟨[], all, [], ⟨?_, ?_, nofun, nofun⟩, rfl, rfl, nofun⟩
    · rw [htokens, List.nil_append, List.append_nil]
    · simpa using List.filter_eq_nil_iff.mp hall.symm

/-- **Leading trivia.** In a source that parses, the leading trivia of every node are a gap
    between tokens: from the end of the token before the node to its first token, or to the end
    of the source if it has none.  There the scanner reports exactly the comments that the lexer
    drops, and ends where the node begins. -/
theorem scan_leadingTrivia {root : Ast} (h : parse source = .ok root) :
    ∀ n ∈ root.preorder, ∃ before dropped after, Gap source before dropped after
      ∧ endOf before = n.fullStart
      ∧ (after.head?.map (·.start)).getD source.utf8ByteSize = n.start
      ∧ Trivia.skipTrivia source n.fullStart = n.start
      ∧ Trivia.comments (Trivia.scan source n.fullStart none) = dropped.map Lexeme.place := by
  intro n hn
  obtain ⟨before, dropped, after, hgap, hfirst, hstart, hends⟩ := exists_gap_of_parse h hn
  obtain ⟨hcomments, hskip⟩ := hgap.scan hends
  rw [hfirst] at hcomments hskip
  exact ⟨before, dropped, after, hgap, hfirst, hstart, hskip.trans hstart, hcomments⟩

/-- A comment before a division. -/
theorem scan_leadingTrivia_division :
    ∃ root, parse "a /*1*/ / b" = .ok root
      ∧ ∃ n ∈ root.preorder, n.kind = .operator (some .slash)
        ∧ ∃ before dropped after, Gap "a /*1*/ / b" before dropped after
          ∧ endOf before = n.fullStart
          ∧ (after.head?.map (·.start)).getD 11 = n.start
          ∧ Trivia.skipTrivia "a /*1*/ / b" n.fullStart = n.start
          ∧ Trivia.comments (Trivia.scan "a /*1*/ / b" n.fullStart none)
            = dropped.map Lexeme.place := by
  have hparse : (parse "a /*1*/ / b").map
      (fun root => root.preorder.any (·.kind == .operator (some .slash))) = .ok true := by
    decide +kernel
  cases hroot : parse "a /*1*/ / b" with
  | error e =>
    rw [hroot] at hparse
    cases hparse
  | ok root =>
    rw [hroot] at hparse
    injection hparse with hany
    obtain ⟨n, hn, hkind⟩ := List.any_eq_true.mp hany
    exact ⟨root, rfl, n, hn, eq_of_beq hkind, scan_leadingTrivia hroot n hn⟩

end Transcode.Script
