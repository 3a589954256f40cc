import Transcode.Proofs.Breaks
import Transcode.Proofs.Gaps
import Transcode.Proofs.Placement
import Transcode.Proofs.Relocation

/-!
# Sources on one another's lines

A source that ends in a `;` may be followed by another one on the next line.  The tokens of the two
together are those of the one and then those of the other, further on (`tokens_joined`), since no
token goes on over the end of a line but a comment that is closed; and the statements are those of
the one and then those of the other (`parse_joined`), since nothing goes on after a `;` but an
`else`, and no source begins with that.
-/

namespace Transcode.Text

/-- Two texts with a line break in between. -/
def joined (s t : String) : String :=
  s ++ "\n" ++ t

theorem toList_joined (s t : String) : (joined s t).toList = s.toList ++ '\n' :: t.toList := by
  simp [joined]

end Transcode.Text

namespace Transcode.Script

open Text

variable {c : Char} {cs rest : List Char} {t : Token} {k o : Nat} {ls more lexemes : List Lexeme}
  {s u : String}

/-! ### Tokens -/

/-- A source ends in a `;`. -/
def EndsInSemicolon (source : String) : Prop :=
  ∃ front l, tokens source = .ok (front ++ [l]) ∧ l.token = .semicolon
    ∧ l.stop = source.utf8ByteSize

theorem endsInSemicolon_iff {source : String} :
    EndsInSemicolon source ↔ ((tokens source).toOption.bind List.getLast?).any
      (fun l => decide (l.token = .semicolon ∧ l.stop = source.utf8ByteSize)) = true := by
  rw [EndsInSemicolon, Option.any_eq_true]
  constructor
  · rintro ⟨front, l, htokens, hl⟩
    rw [htokens]
    exact ⟨l, List.getLast?_concat, decide_eq_true hl⟩
  · rintro ⟨l, hlast, hl⟩
    obtain ⟨all, hall, hlast⟩ := Option.bind_eq_some_iff.mp hlast
    obtain ⟨front, rfl⟩ := List.getLast?_eq_some_iff.mp hlast
    cases htokens : tokens source with
    | error e =>
      rw [htokens] at hall
      cases hall
    | ok all =>
      rw [htokens] at hall
      obtain rfl := Option.some.inj hall
      exact ⟨front, l, rfl, of_decide_eq_true hl⟩

instance (source : String) : Decidable (EndsInSemicolon source) :=
  decidable_of_iff _ endsInSemicolon_iff.symm

/-- A token is the same if another line follows, unless it is a slash that a star would turn into a
    comment. -/
theorem scanToken_line (h : scanToken c cs = .token t k)
    (hstar : c = '/' → t.isComment = false → cs.head? ≠ some '*') (rest : List Char) :
    scanToken c (cs ++ '\n' :: rest) = .token t k := by
  have hbroken : Broken ('\n' :: rest) := by
    rintro c ⟨⟩
    rfl
  by_cases ht : t.isComment = false
  · rw [← List.append_nil cs] at h
    refine (scanToken_broken h ht (by exact fun _ => nofun) hbroken ?_).2
    intro hslash inner hinner
    cases cs with
    | nil => cases hinner
    | cons d cs =>
      obtain ⟨rfl, -⟩ := List.cons.inj hinner
      exact absurd rfl (hstar hslash ht)
  · obtain ⟨rfl, ⟨inner, rfl, rfl, rfl⟩ | ⟨inner, n, rfl, rfl, hn, rfl⟩⟩ :=
      (scans_of_scanToken h).comment (by simpa using ht)
    · have hends : ∀ c, isLineBreak c = true → (!isLineBreak c) = false := fun c hc => by
        rw [hc]
        rfl
      rw [List.cons_append, scanToken_lineComment, (takeWhile_broken hends hbroken).1]
    · rw [List.cons_append, scanToken_blockComment (blockWidth?_append hn _)]

/-- No star comes right after a slash. -/
def Unopened (lexemes : List Lexeme) : Prop :=
  lexemes.IsChain fun a b => ¬ (a.token = .slash ∧ b.token = .star)

/-- Comments in between make no difference. -/
theorem unopened_of_filter (h : Unopened (ls.filter (!·.token.isComment))) : Unopened ls := by
  induction ls with
  | nil => exact .nil
  | cons a ls ih =>
    cases ls with
    | nil => exact .singleton a
    | cons b ls =>
      refine .cons_cons ?_ (ih ?_)
      · rintro ⟨ha, hb⟩
        rw [List.filter_cons_of_pos (by rw [ha]; rfl),
          List.filter_cons_of_pos (by rw [hb]; rfl)] at h
        exact (List.isChain_cons_cons.mp h).1 ⟨ha, hb⟩
      · rw [List.filter_cons] at h
        split at h
        · exact h.tail
        · exact h

/-- The tokens of some characters and of the lines after them. -/
theorem Lexes.append_line (h : Lexes o cs ls) (hunopened : Unopened ls)
    (hmore : Lexes (o + byteLength cs) ('\n' :: rest) more) :
    Lexes o (cs ++ '\n' :: rest) (ls ++ more) := by
  induction h with
  | nil => exact hmore
  | layout hc _ ih =>
    rw [byteLength_cons, ← Nat.add_assoc] at hmore
    exact .layout hc (ih hunopened hmore)
  | @token o c further cs t ls hc hscan hls ih =>
    have hscan' := scanToken_line hscan (fun hslash ht hhead => ?_) rest
    · rw [List.append_assoc] at hscan'
      rw [List.cons_append, List.append_assoc]
      refine .token hc hscan' (ih hunopened.tail ?_)
      rw [stop_eq, String.toList_ofList, Nat.add_assoc, ← byteLength_append]
      exact hmore
    · -- A slash is one character, and a star after it would be the next token.
      subst hslash
      obtain ⟨hslash, hlength, -⟩ := (scans_of_scanToken hscan).slash ht
      obtain rfl := List.eq_nil_of_length_eq_zero hlength
      obtain ⟨cs', rfl⟩ := List.head?_eq_some_iff.mp hhead
      obtain ⟨l, hl, hstar⟩ := star_of_lexes hls
      obtain ⟨ls', rfl⟩ := List.head?_eq_some_iff.mp hl
      exact (List.isChain_cons_cons.mp hunopened).1 ⟨hslash, hstar⟩

/-! ### Places -/

/-- Where everything goes in a source that comes to stand on the line after `s`.  Leading trivia at
    its beginning then begin where `s` ends. -/
def nextLine (s : String) : Relocation where
  start p := p + (s.utf8ByteSize + 1)
  edge p := if p = 0 then s.utf8ByteSize else p + (s.utf8ByteSize + 1)

theorem edge_nextLine {p : Nat} (hp : 0 < p) : (nextLine s).edge p = (nextLine s).start p :=
  if_neg (Nat.ne_of_gt hp)

theorem stop_relocate_nextLine (l : Lexeme) :
    (l.relocate (nextLine s)).stop = (nextLine s).start l.stop :=
  Nat.add_right_comm _ _ _

theorem Lexes.later (h : Lexes o cs ls) (s : String) :
    Lexes ((nextLine s).start o) cs (ls.map (Lexeme.relocate (nextLine s))) := by
  induction h with
  | nil => exact .nil
  | @layout o c cs ls hc _ ih =>
    have hnext : (nextLine s).start (o + c.utf8Size) = (nextLine s).start o + c.utf8Size :=
      Nat.add_right_comm _ _ _
    rw [hnext] at ih
    exact .layout hc ih
  | @token o c further cs t ls hc hscan _ ih =>
    rw [← stop_relocate_nextLine] at ih
    exact .token hc hscan ih

/-- The tokens of two sources together. -/
theorem tokens_joined {all all' : List Lexeme} (h : tokens s = .ok all) (hunopened : Unopened all)
    (h' : tokens u = .ok all') :
    tokens (joined s u) = .ok (all ++ all'.map (Lexeme.relocate (nextLine s))) := by
  have hlater := (lexes_of_tokensFrom h').later s
  have hbreak : Lexes (0 + byteLength s.toList) ('\n' :: u.toList)
      (all'.map (Lexeme.relocate (nextLine s))) := by
    refine .layout rfl ?_
    rw [← utf8ByteSize_eq_byteLength]
    exact hlater
  have hboth := (lexes_of_tokensFrom h).append_line hunopened hbreak
  rw [← toList_joined] at hboth
  exact tokensFrom_of_lexes hboth

/-! ### Trees -/

/-- Nothing that the grammar knows begins with `else`. -/
theorem peek?_ne_else_of_derives {n : Nat} {σ : Symbol} {c c' : Cursor} {vs : List Ast}
    (h : Derives n σ c vs c') : c.peek? ≠ some .elseKeyword := by
  induction h with
  | atom ht hk => exact ht.peek?_ne (ne_of_lookup hk rfl)
  | property ht hk => exact ht.peek?_ne (ne_of_lookup hk rfl)
  | parenthesized ht | object ht | array ht | newPlain ht | newCall ht | pathName ht | parameter ht
  | declared ht | initialized ht | noStatement ht | empty ht | block ht | ifThen ht | ifElse ht
  | whileDo ht | returnNothing ht | returnValue ht | function ht => exact ht.peek?_ne (by decide)
  | sign ht hsign =>
    refine ht.peek?_ne ?_
    rintro rfl
    cases hsign
  | listEnd hclose ht => exact ht.peek?_ne (ne_of_mem_of_not_mem hclose (by decide))
  | variableStatement hkeyword ht =>
    exact ht.peek?_ne (ne_of_mem_of_not_mem hkeyword (by decide))
  | _ => assumption

/-- The tree of two sources together. -/
theorem parse_joined {root root' : Ast} (h : parse s = .ok root) (hends : EndsInSemicolon s)
    (h' : parse u = .ok root') :
    ∃ both, parse (joined s u) = .ok both ∧ both.kind = .sourceFile
      ∧ both.children = root.children ++ root'.children.map (Node.relocate (nextLine s)) := by
  obtain ⟨lexemes, ss, hlex, hss, rfl⟩ := parse_eq_ok.mp h
  obtain ⟨lexemes', ss', hlex', hss', rfl⟩ := parse_eq_ok.mp h'
  obtain ⟨all, htokens, rfl⟩ := lex_eq_ok.mp hlex
  obtain ⟨all', htokens', rfl⟩ := lex_eq_ok.mp hlex'
  obtain ⟨front, l, hl, hsemicolon, hstop⟩ := hends
  obtain rfl : all = front ++ [l] := Except.ok.inj (htokens.symm.trans hl)
  have hlast : (front ++ [l]).filter (!·.token.isComment)
      = front.filter (!·.token.isComment) ++ [l] := by
    rw [List.filter_append, List.filter_cons_of_pos (by rw [hsemicolon]; rfl), List.filter_nil]
  have hunopened := unopened_of_filter (spans_of_derivesAll hss).apart
  rw [hlast] at hss
  -- The statements of the second source, further on.
  have hfits : ∀ l ∈ all'.filter (!·.token.isComment), l.Fits (nextLine s) := fun l hl => by
    have hplace :=
      (inOrder_of_lexes (lexes_of_tokensFrom htokens')).of_mem (List.mem_filter.mp hl).1
    exact (stop_relocate_nextLine l).trans (edge_nextLine (Nat.zero_lt_of_lt hplace.2.1)).symm
  have hmovable' : Cursor.Movable (nextLine s) [] { rest := all'.filter (!·.token.isComment) } :=
    ⟨hfits, .inl rfl⟩
  have hlater := hss'.relocate hmovable' ⟨[], rfl, rfl⟩ (.nil rfl)
  rw [Cursor.relocate, List.append_nil, List.append_nil] at hlater
  -- They go on after those of the first one, where its last token ends.
  have hseam : Seam (front.filter (!·.token.isComment) ++ [l])
      ((all'.filter (!·.token.isComment)).map (Lexeme.relocate (nextLine s))) := by
    refine .inr ⟨fun l' hl' => ?_, fun l' hl' => ?_⟩
    · rw [List.getLast?_concat, Option.mem_some_iff] at hl'
      rw [← hl', hsemicolon]
    · rw [List.head?_map] at hl'
      obtain ⟨first, hfirst, rfl⟩ := Option.map_eq_some_iff.mp hl'
      obtain ⟨rest, hrest⟩ := List.head?_eq_some_iff.mp hfirst
      rw [hrest] at hss'
      cases hss' with
      | nil hend => cases hend
      | cons hs => exact fun helse => peek?_ne_else_of_derives hs (congrArg some helse)
  have hmovable : Cursor.Movable ⟨id, id⟩
      ((all'.filter (!·.token.isComment)).map (Lexeme.relocate (nextLine s)))
      { rest := front.filter (!·.token.isComment) ++ [l] } := ⟨fun _ _ => rfl, hseam⟩
  have hend : (nextLine s).edge 0 = id (endOf (front.filter (!·.token.isComment) ++ [l])) := by
    rw [endOf_concat, id, hstop]
    rfl
  rw [hend] at hlater
  have hboth := hss.relocate hmovable ⟨[], rfl, rfl⟩ hlater
  have hids : ∀ n : Ast, n.relocate ⟨id, id⟩ = n := fun n => Node.relocate_id
  have hidl : ∀ l : Lexeme, l.relocate ⟨id, id⟩ = l := fun l => rfl
  rw [Cursor.relocate, List.map_id'' hids, List.map_id'' hidl] at hboth
  refine ⟨_, parse_eq_ok.mpr ⟨_, _, lex_eq_ok.mpr ⟨_, tokens_joined htokens hunopened htokens', rfl⟩,
    ?_, rfl⟩, rfl, rfl⟩
  rw [List.filter_append, hlast, List.filter_map]
  exact hboth

end Transcode.Script
