import Transcode.Proofs.Breaks
import Transcode.Proofs.Printing
import Transcode.Proofs.Reports
import Transcode.Proofs.Surroundings

namespace Transcode.Script

open Text

/-!
# Line endings

A source whose line feeds get a carriage return before them has the same tokens, but for the texts
of comments, at the offsets where they have gone (`lexes_crlf`), so that it has the same tree there.
-/

variable {c : Char} {cs before : List Char} {t : Token} {k o : Nat} {ls : List Lexeme} {s : String}

/-! ### Tokens -/

/-- Where a line feed comes first, carriage returns make it a line break of another kind. -/
theorem Fed.withReturns (h : Fed cs) : Broken (withReturns cs) := by
  cases cs with
  | nil => exact nofun
  | cons c cs =>
    obtain rfl := h c rfl
    rintro c ⟨⟩
    rfl

/-- The first line of some characters, and what comes after it. -/
theorem exists_fed (cs : List Char) : ∃ line rest, cs = line ++ rest ∧ '\n' ∉ line ∧ Fed rest := by
  induction cs with
  | nil => exact ⟨[], [], rfl, List.not_mem_nil, fun _ hc => nomatch hc⟩
  | cons c cs ih =>
    by_cases hc : c = '\n'
    · exact ⟨[], c :: cs, rfl, List.not_mem_nil, fun d hd => (Option.some.inj hd).symm.trans hc⟩
    · obtain ⟨line, rest, rfl, hline, hrest⟩ := ih
      exact ⟨c :: line, rest, rfl, List.not_mem_cons_of_ne_of_not_mem (Ne.symm hc) hline, hrest⟩

/-- What is no carriage return was there before. -/
theorem withReturns_eq_cons {d : Char} {ds : List Char} (h : withReturns cs = d :: ds)
    (hd : d ≠ '\r') : ∃ cs', cs = d :: cs' ∧ withReturns cs' = ds := by
  cases cs with
  | nil => cases h
  | cons c cs =>
    by_cases hc : c = '\n'
    · subst hc
      rw [withReturns_break] at h
      exact absurd (List.cons.inj h).1.symm hd
    · rw [withReturns_cons hc] at h
      obtain ⟨rfl, rfl⟩ := List.cons.inj h
      exact ⟨cs, rfl, rfl⟩

theorem blockWidth?_withReturns (cs : List Char) :
    blockWidth? (withReturns cs)
      = (blockWidth? cs).map fun n => (withReturns (cs.take n)).length := by
  fun_induction blockWidth? cs with
  | case1 => rfl
  | case2 rest => rfl
  | case3 c rest hpair ih =>
    have hskip : ∀ c cs, (∀ cs', c = '*' → cs = '/' :: cs' → False) →
        blockWidth? (c :: cs) = (blockWidth? cs).map (· + 1) := fun c cs h => by
      rw [blockWidth?]
      exact h
    by_cases hc : c = '\n'
    · subst hc
      rw [withReturns_break, hskip _ _ (by rintro _ ⟨⟩), hskip _ _ (by rintro _ ⟨⟩), ih]
      cases blockWidth? rest <;> rfl
    · rw [withReturns_cons hc, hskip, ih]
      · cases blockWidth? rest with
        | none => rfl
        | some n =>
          show some (_ + 1) = some (withReturns ((c :: rest).take (n + 1))).length
          rw [List.take_succ_cons, withReturns_cons hc, List.length_cons]
      · intro cs' hstar hslash
        obtain ⟨cs'', rfl, -⟩ := withReturns_eq_cons hslash (by decide)
        exact hpair cs'' hstar rfl

theorem scanToken_withReturns (h : scanToken c cs = .token t k) :
    scanToken c (withReturns cs) = .token t (withReturns (cs.take k)).length
      ∧ (t.isComment = false → '\n' ∉ cs.take k) := by
  obtain ⟨line, rest, rfl, hline, hrest⟩ := exists_fed cs
  have hwith : withReturns (line ++ rest) = line ++ withReturns rest := by
    rw [withReturns_append, withReturns_eq_self hline]
  -- A token that is no comment ends before the first line feed; a comment need not.
  by_cases ht : t.isComment = false
  · have hblock : c = '/' → ∀ inner, line ++ withReturns rest = '*' :: inner →
        blockWidth? inner = none := by
      rintro rfl inner hinner
      obtain ⟨-, -, -, hopen⟩ := (scans_of_scanToken h).slash ht
      obtain ⟨cs', hcs, rfl⟩ := withReturns_eq_cons (hwith.trans hinner) (by decide)
      rw [blockWidth?_withReturns, hopen cs' hcs]
      rfl
    obtain ⟨hle, hscan⟩ := scanToken_broken h ht hrest hrest.withReturns hblock
    have htake : (line ++ rest).take k = line.take k := List.take_append_of_le_length hle
    have hnot : '\n' ∉ line.take k := fun hmem => hline (List.mem_of_mem_take hmem)
    rw [hwith, htake, withReturns_eq_self hnot, List.length_take_of_le hle]
    exact ⟨hscan, fun _ => hnot⟩
  · obtain ⟨rfl, hcomment⟩ := (scans_of_scanToken h).comment (by simpa using ht)
    refine ⟨?_, fun hnot => absurd hnot ht⟩
    rcases hcomment with ⟨inner, hcs, rfl, rfl⟩ | ⟨inner, n, hcs, rfl, hn, rfl⟩
    · -- A line comment ends before the line break, so that it stays as it is.
      obtain ⟨cs', hline', rfl⟩ : ∃ cs', line = '/' :: cs' ∧ inner = cs' ++ rest := by
        cases line with
        | nil => exact absurd (hrest '/' (by rw [← List.nil_append rest, hcs]; rfl)) (by decide)
        | cons d line =>
          obtain ⟨rfl, rfl⟩ := List.cons.inj hcs
          exact ⟨line, rfl, rfl⟩
      subst hline'
      have hends : ∀ c, isLineBreak c = true → (!isLineBreak c) = false := fun c hc => by
        rw [hc]
        rfl
      have hplain : '\n' ∉ '/' :: cs'.takeWhile (!isLineBreak ·) := fun hmem =>
        hline (List.mem_cons.mpr ((List.mem_cons.mp hmem).imp_right
          (List.takeWhile_prefix _).mem))
      rw [hwith, List.cons_append, scanToken_lineComment,
        (takeWhile_broken hends hrest.withReturns).1, (takeWhile_broken hends hrest.broken).1,
        Nat.add_comm 1, List.cons_append, List.take_succ_cons,
        List.take_append_of_le_length (List.takeWhile_prefix _).length_le, take_takeWhile,
        withReturns_eq_self hplain]
      rfl
    · -- A block comment gets a carriage return for each line feed in it.
      have hstar : withReturns ('*' :: inner) = '*' :: withReturns inner :=
        withReturns_cons (by decide)
      have hwidth : blockWidth? (withReturns inner) = some (withReturns (inner.take n)).length := by
        rw [blockWidth?_withReturns, hn]
        rfl
      rw [hcs, hstar, scanToken_blockComment hwidth, Nat.add_comm 1 n, List.take_succ_cons,
        withReturns_cons (by decide), List.length_cons, Nat.add_comm]

theorem crlfOffset_append {m after : List Char} (h : s.toList = before ++ m ++ after) :
    crlfOffset s (byteLength before + byteLength m)
      = crlfOffset s (byteLength before) + byteLength (withReturns m) := by
  rw [List.append_assoc] at h
  have hzero : ∀ cs, offsetIn cs 0 = 0 := fun cs => by rw [offsetIn, List.take_zero]; rfl
  have hend := offsetIn_add m after 0
  have hstart := offsetIn_add before (m ++ after) 0
  rw [hzero, Nat.add_zero, Nat.add_zero] at hend hstart
  rw [crlfOffset, crlfOffset, h, offsetIn_add, hend, hstart]

/-- A token where it goes when carriage returns come in. -/
def Lexeme.crlf (s : String) (l : Lexeme) : Lexeme :=
  ⟨l.token, crlfOffset s l.start, Text.crlf l.text⟩

theorem lexes_crlf (h : Lexes o cs ls) (before : List Char) (hsource : s.toList = before ++ cs)
    (ho : o = byteLength before) :
    Lexes (crlfOffset s o) (withReturns cs) (ls.map (Lexeme.crlf s)) := by
  induction h generalizing before with
  | nil => exact .nil
  | @layout o c cs ls hc _ ih =>
    subst ho
    have hnext := ih (before ++ [c]) (by rw [hsource, List.append_assoc]; rfl)
      (by rw [byteLength_append, byteLength_cons]; rfl)
    have hoffset := crlfOffset_append (m := [c]) (hsource.trans (List.append_cons before c cs))
    rw [byteLength_cons, byteLength_nil, Nat.add_zero] at hoffset
    rw [hoffset] at hnext
    -- Only a line feed in the layout becomes two characters, each of them layout of its own.
    by_cases hbreak : c = '\n'
    · subst hbreak
      exact .layout rfl (.layout rfl hnext)
    · rw [withReturns_cons hbreak] at hnext ⊢
      exact .layout hc hnext
  | @token o c more cs t ls hc hscan _ ih =>
    subst ho
    have hbreak : c ≠ '\n' := by
      rintro rfl
      cases hc
    -- Line feeds inside a token, of a block comment, get their returns as well: the scanner goes
    -- over them to the same end.
    have hscan' := (scanToken_withReturns hscan).1
    rw [List.take_left, withReturns_append] at hscan'
    have htext : Text.crlf (String.ofList (c :: more)) = String.ofList (c :: withReturns more) := by
      rw [Text.crlf, String.toList_ofList, withReturns_cons hbreak]
    have hstop : Lexeme.stop ⟨t, byteLength before, String.ofList (c :: more)⟩
        = byteLength (before ++ c :: more) := by
      rw [stop_eq, String.toList_ofList, byteLength_append]
    have hsource' : s.toList = before ++ (c :: more) ++ cs := by
      rw [hsource, List.append_assoc]
      rfl
    have hnext := ih (before ++ c :: more) hsource' hstop
    have hstop' : crlfOffset s (Lexeme.stop ⟨t, byteLength before, String.ofList (c :: more)⟩)
        = Lexeme.stop
          ⟨t, crlfOffset s (byteLength before), String.ofList (c :: withReturns more)⟩ := by
      rw [hstop, byteLength_append, crlfOffset_append hsource', stop_eq, String.toList_ofList,
        withReturns_cons hbreak]
    rw [hstop'] at hnext
    rw [withReturns_cons hbreak, withReturns_append, List.map_cons, Lexeme.crlf, htext]
    exact .token hc hscan' hnext

/-- What is no comment stands within a line. -/
theorem plain_of_lexes (h : Lexes o cs ls) :
    ∀ l ∈ ls, l.token.isComment = false → '\n' ∉ l.text.toList := by
  induction h with
  | nil => exact List.forall_mem_nil _
  | layout _ _ ih => exact ih
  | token hc hscan _ ih =>
    refine List.forall_mem_cons.mpr ⟨fun ht hmem => ?_, ih⟩
    rw [String.toList_ofList] at hmem
    rcases List.mem_cons.mp hmem with rfl | hmem
    · cases hc
    · have hplain := (scanToken_withReturns hscan).2 ht
      rw [List.take_left] at hplain
      exact hplain hmem

/-! ### Trees -/

/-- Where everything goes when carriage returns come in. -/
def crlfRelocation (s : String) : Relocation :=
  ⟨crlfOffset s, crlfOffset s⟩

/-- The tokens of a source with carriage returns. -/
theorem lex_crlf {lexemes : List Lexeme} (h : lex s = .ok lexemes) :
    lex (Text.crlf s) = .ok (lexemes.map (Lexeme.relocate (crlfRelocation s)))
      ∧ ∀ l ∈ lexemes, l.Fits (crlfRelocation s) := by
  obtain ⟨all, htokens, rfl⟩ := lex_eq_ok.mp h
  have hlexes := lexes_of_tokensFrom htokens
  have hplain : ∀ l ∈ all.filter (!·.token.isComment), '\n' ∉ l.text.toList := fun l hl =>
    have ⟨hl, ht⟩ := List.mem_filter.mp hl
    plain_of_lexes hlexes l hl (by simpa using ht)
  have hcrlf := lexes_crlf hlexes [] rfl rfl
  rw [← toList_crlf] at hcrlf
  refine ⟨lex_eq_ok.mpr ⟨_, tokensFrom_of_lexes hcrlf, ?_⟩, fun l hl => ?_⟩
  · rw [List.filter_map]
    refine List.map_congr_left fun l hl => ?_
    rw [Lexeme.crlf, crlf_eq_self (hplain l hl)]
    rfl
  · obtain ⟨front, back, hall⟩ := List.append_of_mem (List.mem_filter.mp hl).1
    rw [hall] at hlexes
    obtain ⟨front, c, more, after, hsource, hstart, htext, -⟩ := hlexes.split
    rw [Nat.zero_add] at hstart
    have hend := crlfOffset_append (m := c :: more) (by rw [hsource, List.append_assoc])
    have hkeeps := withReturns_eq_self (hplain l hl)
    rw [htext, String.toList_ofList] at hkeeps
    rw [hkeeps] at hend
    rw [Lexeme.Fits, stop_eq, stop_eq]
    show crlfOffset s l.start + byteLength l.text.toList = crlfOffset s _
    rw [htext, String.toList_ofList, hstart, hend]

/-- The tree of a source with carriage returns. -/
theorem parse_crlf {root : Ast} (h : parse s = .ok root) :
    parse (Text.crlf s) = .ok (root.relocate (crlfRelocation s)) := by
  obtain ⟨lexemes, ss, hlex, hss, rfl⟩ := parse_eq_ok.mp h
  obtain ⟨hlex', hfits⟩ := lex_crlf hlex
  have hmovable : Cursor.Movable (crlfRelocation s) [] { rest := lexemes } := ⟨hfits, .inl rfl⟩
  have hss' := hss.relocate hmovable ⟨[], rfl, rfl⟩ (.nil rfl)
  rw [List.append_nil, Cursor.relocate, List.append_nil] at hss'
  refine parse_eq_ok.mpr ⟨_, _, hlex', hss', ?_⟩
  have hsize : crlfOffset s s.utf8ByteSize = (Text.crlf s).utf8ByteSize := by
    rw [← length_bytes, crlfOffset_length, length_bytes]
  rw [rootOf, rootOf, Node.relocate_mk, ← hsize]
  cases lexemes <;> rfl

end Transcode.Script

namespace Transcode.Target

open Output Engine Script Text

section

variable {source : String} {root : Ast}

/-- Nothing that handlers look at has changed. -/
theorem copies_crlf {ρ : String → String} (h : parse source = .ok root)
    (hreturn : '\r' ∉ source.toList)
    (hloop : ∀ n ∈ root.preorder, n.kind ≠ .whileStatement)
    (hρ : Renames ρ (crlfOffset source) (bytes source).length) :
    Copies source (crlf source) (crlfRelocation source) ρ (· ∈ root.preorder) := by
  have hparse' := parse_crlf h
  refine copies_of_kept (shown_crlf hreturn) hρ ?_ ?_ ?_ ?_
  · exact fun n hn child hchild => Node.mem_preorder_child hn hchild
  · exact wellFormed_of_parse h
  · intro n hn
    have hstop : n.stop ≤ (bytes source).length := stop_le_of_parse h hn
    have hstart := (nests_of_parse h n hn).start_le
    exact kept_of_abuts (shown_crlf hreturn) (hstart.trans hstop) hstop rfl rfl rfl
      (abuts_of_parse h n hn) (abuts_of_parse hparse' _ (Node.relocate_mem_preorder hn))
  · intro n hn htext
    rcases htext with hleaf | hwhile
    · obtain ⟨u, hu⟩ := Option.isSome_iff_exists.mp hleaf
      obtain ⟨ls, l, hlexes, hl, -, ht, htext⟩ := exists_lexeme_of_leaf h hn hu
      rw [Node.textIn, Node.textIn, Node.start_relocate, Node.stop_relocate]
      show slice _ (crlfOffset source n.start) (crlfOffset source n.stop) = _
      rw [slice_crlf, htext, crlf_eq_self (plain_of_lexes hlexes l hl ht)]
    · exact absurd hwhile (hloop n hn)

/-- **Line endings do not matter.**  If a source without carriage returns parses, has no loops and
    is converted within the limit, then it parses with a carriage return before each line feed too,
    and the code of both is the same. -/
theorem toPython_crlf (h : parse source = .ok root) (hreturn : '\r' ∉ source.toList)
    (hloop : ∀ n ∈ root.preorder, n.kind ≠ .whileStatement) (settings : Settings)
    (hwithin : backend.NestsWithin { source, settings } root) :
    (∃ root', parse (crlf source) = .ok root')
      ∧ ∃ conversion conversion', toPython source settings = .ok conversion
        ∧ toPython (crlf source) settings = .ok conversion'
        ∧ conversion'.code = conversion.code := by
  have hparse' := parse_crlf h
  refine ⟨⟨_, hparse'⟩, ?_⟩
  obtain ⟨t, ht⟩ := Backend.NestsWithin.exists_output? lexical_backend hwithin
  obtain ⟨ρ, hinjective, hρ⟩ :=
    exists_renames (@crlfOffset_strictMono source).injective (bytes source).length
  have ht' : backend.output? { source := crlf source, settings } (fun _ => none)
      settings.depthLimit backend.initial (root.relocate (crlfRelocation source))
        = some (t.mapKeys ρ) :=
    (@output?_relocate { source, settings } { source := crlf source, settings } _ _ _
      (fun _ => none) (fun _ => none) (copies_crlf h hreturn hloop hρ) rfl (fun _ _ => rfl) _ _ _
      root.self_mem_preorder).trans (congrArg (Option.map (Tree.mapKeys ρ)) ht)
  obtain ⟨conversion, hconversion, hcode⟩ := exists_conversion h (by exact fun _ _ => nofun) ht
  obtain ⟨conversion', hconversion', hcode'⟩ :=
    exists_conversion hparse' (by exact fun _ _ => nofun) ht'
  exact ⟨conversion, conversion', hconversion, hconversion',
    by rw [hcode, hcode', render_mapKeys hinjective]⟩

/-- A block comment over two lines, a line comment in an array, and a blank line. -/
theorem toPython_crlf_comments :
    ∃ conversion conversion',
      toPython "/*a\n b*/f(x, //c\n[1,\n2])\n\nif(y)z" = .ok conversion
        ∧ toPython "/*a\r\n b*/f(x, //c\r\n[1,\r\n2])\r\n\r\nif(y)z" = .ok conversion'
        ∧ conversion'.code = conversion.code
        ∧ conversion.code = "# a\n#  b\nf(x, # c\n    [1,\n        2])\n\nif y:\n    z" := by
  have hrun : (parse "/*a\n b*/f(x, //c\n[1,\n2])\n\nif(y)z").toOption.map (fun root =>
      (root.preorder.all (·.kind != .whileStatement),
        decide (backend.NestsWithin { source := "/*a\n b*/f(x, //c\n[1,\n2])\n\nif(y)z" } root)))
      = some (true, true) := by
    decide +kernel
  obtain ⟨root, hroot, hrun⟩ := Option.map_eq_some_iff.mp hrun
  simp only [Prod.mk.injEq, decide_eq_true_eq, List.all_eq_true, bne_iff_ne] at hrun
  obtain ⟨hloop, hwithin⟩ := hrun
  obtain ⟨-, conversion, conversion', hconversion, hconversion', hcode⟩ :=
    toPython_crlf (eq_ok_of_toOption hroot) (by decide +kernel) hloop {} hwithin
  have hreturns : crlf "/*a\n b*/f(x, //c\n[1,\n2])\n\nif(y)z"
      = "/*a\r\n b*/f(x, //c\r\n[1,\r\n2])\r\n\r\nif(y)z" := by decide +kernel
  rw [hreturns] at hconversion'
  have hresult : (toPython "/*a\n b*/f(x, //c\n[1,\n2])\n\nif(y)z").toOption.map (·.code)
      = some "# a\n#  b\nf(x, # c\n    [1,\n        2])\n\nif y:\n    z" := by
    decide +kernel
  rw [hconversion] at hresult
  exact ⟨conversion, conversion', hconversion, hconversion', hcode, Option.some.inj hresult⟩

end

end Transcode.Target
