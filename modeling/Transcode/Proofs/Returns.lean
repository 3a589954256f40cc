import Transcode.Proofs.Carrying
import Transcode.Trivia.Breaks
import Transcode.Trivia.Comment

namespace Transcode.Text

open Trivia

/-!
# Carriage returns before line feeds

`crlf s` is the text `s` with a carriage return before each of its line feeds, and
`crlfOffset s p` is where the offset `p` of `s` goes on the way.  Nothing that is asked of a text
by those who look for its lines comes out differently, as long as it had no carriage return
before.
-/

/-- Characters with a carriage return before each line feed. -/
def withReturns (cs : List Char) : List Char :=
  cs.flatMap fun c => if c = '\n' then ['\r', '\n'] else [c]

/-- A text with a carriage return before each line feed. -/
def crlf (s : String) : String :=
  String.ofList (withReturns s.toList)

/-- Where an offset into some characters goes when carriage returns are put in. -/
def offsetIn (cs : List Char) (p : Nat) : Nat :=
  p + ((encode cs).take p).count lineFeed

/-- Where an offset into a text goes when carriage returns are put in. -/
def crlfOffset (s : String) (p : Nat) : Nat :=
  offsetIn s.toList p

variable {c : Char} {cs as bs : List Char} {s t : String} {p q : Nat}

/-- No text has no line breaks to change. -/
@[simp] theorem withReturns_nil : withReturns [] = [] := rfl

/-- A text is changed part by part. -/
theorem withReturns_append : withReturns (as ++ bs) = withReturns as ++ withReturns bs :=
  List.flatMap_append ..

/-- A line break gets a carriage return before it, -/
theorem withReturns_break : withReturns ('\n' :: cs) = '\r' :: '\n' :: withReturns cs := rfl

/-- and any other character stays as it is. -/
theorem withReturns_cons (hc : c ≠ '\n') : withReturns (c :: cs) = c :: withReturns cs := by
  rw [withReturns, List.flatMap_cons, if_neg hc]
  rfl

/-- Where there is no line feed, nothing is put in. -/
theorem withReturns_eq_self (h : '\n' ∉ cs) : withReturns cs = cs := by
  induction cs with
  | nil => rfl
  | cons c cs ih =>
    rw [withReturns_cons (fun hc => h (hc ▸ List.mem_cons_self)),
      ih (fun hmem => h (List.mem_cons_of_mem c hmem))]

/-- The characters of a text changed are those of the text, changed. -/
@[simp] theorem toList_crlf : (crlf s).toList = withReturns s.toList :=
  String.toList_ofList

/-- A text without line breaks does not change. -/
theorem crlf_eq_self (h : '\n' ∉ s.toList) : crlf s = s := by
  rw [crlf, withReturns_eq_self h, String.ofList_toList]

/-- No line break is added. -/
theorem count_withReturns : (withReturns cs).count '\n' = cs.count '\n' := by
  induction cs with
  | nil => rfl
  | cons c cs ih =>
    by_cases hc : c = '\n'
    · subst hc
      rw [withReturns_break, List.count_cons_of_ne (by decide), List.count_cons_self,
        List.count_cons_self, ih]
    · rw [withReturns_cons hc, List.count_cons_of_ne hc, List.count_cons_of_ne hc, ih]

/-- A text gets longer by a byte for each line break. -/
theorem byteLength_withReturns : byteLength (withReturns cs) = byteLength cs + cs.count '\n' := by
  induction cs with
  | nil => rfl
  | cons c cs ih =>
    by_cases hc : c = '\n'
    · subst hc
      rw [withReturns_break, List.count_cons_self, byteLength_cons, byteLength_cons,
        byteLength_cons, ih]
      have hreturn : ('\r' : Char).utf8Size = 1 := rfl
      omega
    · rw [withReturns_cons hc, List.count_cons_of_ne hc, byteLength_cons, byteLength_cons, ih,
        Nat.add_assoc]

/-- A text has as many line breaks as before. -/
theorem countBreaks_crlf : countBreaks (crlf s) = countBreaks s := by
  rw [countBreaks, toList_crlf, count_withReturns, countBreaks]

/-- Nothing becomes a text without carriage returns but that text. -/
theorem crlf_eq_iff (hs : '\n' ∉ s.toList) (hreturn : '\r' ∉ s.toList) : crlf t = s ↔ t = s := by
  refine ⟨fun h => ?_, fun h => by rw [h, crlf_eq_self hs]⟩
  have hbreak : '\n' ∉ t.toList := fun hmem => by
    obtain ⟨as, bs, hsplit⟩ := List.append_of_mem hmem
    rw [← h, toList_crlf, hsplit, withReturns_append, withReturns_break] at hreturn
    exact hreturn (List.mem_append_right _ List.mem_cons_self)
  rw [← h, crlf_eq_self hbreak]

/-! ### Lines -/

/-- A text without line breaks is one line. -/
theorem lines_of_notMem (h : '\n' ∉ cs) (hne : cs ≠ []) : lines cs = [cs] := by
  obtain ⟨c, rest, rfl⟩ := List.exists_cons_of_ne_nil hne
  rw [lines, pieces, List.splitOn_eq_singleton h]
  rfl

/-- The first line of a text with a line feed. -/
theorem lines_append (h : '\n' ∉ as) : lines (as ++ '\n' :: bs) = dropReturn as :: lines bs := by
  have hpieces : pieces (as ++ '\n' :: bs) = as :: pieces bs := by
    rw [pieces, List.splitOn_append_cons_self, List.splitOn_eq_singleton h]
    rfl
  obtain ⟨first, rest, hrest⟩ : ∃ first rest, pieces bs = first :: rest :=
    List.exists_cons_of_ne_nil (List.splitOn_ne_nil '\n' bs)
  rw [lines, lines, hpieces, hrest]
  simp only [List.dropLast_cons_cons, List.map_cons, List.getLast?_cons_cons]
  split <;> rfl

/-- A line without a carriage return loses nothing, -/
theorem dropReturn_of_notMem (h : '\r' ∉ cs) : dropReturn cs = cs :=
  if_neg fun hlast => h (List.mem_of_getLast? hlast)

/-- and one at its end is lost. -/
theorem dropReturn_concat : dropReturn (cs ++ ['\r']) = cs := by
  rw [dropReturn, if_pos (List.getLast?_concat), List.dropLast_concat]

/-- A text with carriage returns put in has the same lines. -/
theorem lines_withReturns (h : '\r' ∉ cs) : lines (withReturns cs) = lines cs := by
  -- By induction on the length: a line feed is followed by less.
  obtain ⟨size, hsize⟩ : ∃ size, cs.length ≤ size := ⟨_, Nat.le_refl _⟩
  induction size generalizing cs with
  | zero =>
    obtain rfl := List.eq_nil_of_length_eq_zero (Nat.le_zero.mp hsize)
    rfl
  | succ size ih =>
    by_cases hbreak : '\n' ∈ cs
    · obtain ⟨as, bs, rfl, has⟩ := List.eq_append_cons_of_mem hbreak
      have hfirst : '\n' ∉ as ++ ['\r'] := by simp [has]
      rw [withReturns_append, withReturns_eq_self has, withReturns_break, List.append_cons,
        lines_append hfirst, lines_append has, dropReturn_concat,
        dropReturn_of_notMem fun hmem => h (List.mem_append_left _ hmem)]
      rw [ih (fun hmem => h (List.mem_append_right _ (List.mem_cons_of_mem _ hmem)))]
      rw [List.length_append, List.length_cons] at hsize
      omega
    · rw [withReturns_eq_self hbreak]

/-- Nor does a block comment change. -/
theorem stripMarkers_crlf_block (h : '\r' ∉ s.toList) :
    stripMarkers (crlf s) true = stripMarkers s true := by
  rw [stripMarkers, stripMarkers, if_pos rfl, if_pos rfl, blockCommentLines, blockCommentLines,
    toList_crlf, lines_withReturns h]

/-! ### Offsets -/

/-- Bytes with a carriage return before each line feed. -/
def pairFeeds (bs : List UInt8) : List UInt8 :=
  bs.flatMap fun b => if b = lineFeed then [carriageReturn, lineFeed] else [b]

/-- Bytes are changed part by part. -/
theorem pairFeeds_append (as bs : List UInt8) :
    pairFeeds (as ++ bs) = pairFeeds as ++ pairFeeds bs :=
  List.flatMap_append ..

/-- Any byte but a line feed stays as it is. -/
theorem pairFeeds_cons {b : UInt8} (hb : b ≠ lineFeed) (bs : List UInt8) :
    pairFeeds (b :: bs) = b :: pairFeeds bs := by
  rw [pairFeeds, List.flatMap_cons, if_neg hb]
  rfl

/-- Bytes without line feeds do not change. -/
theorem pairFeeds_eq_self {bs : List UInt8} (h : lineFeed ∉ bs) : pairFeeds bs = bs := by
  induction bs with
  | nil => rfl
  | cons b bs ih =>
    rw [pairFeeds_cons (fun hb => h (hb ▸ List.mem_cons_self)),
      ih (fun hmem => h (List.mem_cons_of_mem b hmem))]

/-- There is one byte more for each line feed. -/
theorem length_pairFeeds (bs : List UInt8) :
    (pairFeeds bs).length = bs.length + bs.count lineFeed := by
  induction bs with
  | nil => rfl
  | cons b bs ih =>
    by_cases hb : b = lineFeed
    · subst hb
      rw [List.count_cons_self, List.length_cons]
      show (pairFeeds bs).length + 1 + 1 = _
      omega
    · rw [pairFeeds_cons hb, List.count_cons_of_ne hb, List.length_cons, List.length_cons]
      omega

/-- Of all characters, only the line feed has its byte. -/
theorem lineFeed_notMem (hc : c ≠ '\n') : lineFeed ∉ String.utf8EncodeChar c := fun hmem =>
  hc (Char.toNat_inj.mp (eq_of_mem_utf8EncodeChar hmem (by decide)))

/-- Line feeds are single bytes, and no parts of other characters. -/
theorem encode_withReturns (cs : List Char) : encode (withReturns cs) = pairFeeds (encode cs) := by
  induction cs with
  | nil => rfl
  | cons c cs ih =>
    by_cases hc : c = '\n'
    · subst hc
      rw [withReturns_break, encode_cons, encode_cons, encode_cons, pairFeeds_append, ih]
      rfl
    · rw [withReturns_cons hc, encode_cons, encode_cons, pairFeeds_append, ih,
        pairFeeds_eq_self (lineFeed_notMem hc)]

/-- To change a text is to change its bytes. -/
theorem bytes_crlf : bytes (crlf s) = pairFeeds (bytes s) := by
  have hbytes := encode_withReturns s.toList
  rw [← toList_crlf] at hbytes
  exact hbytes

/-- Offsets keep their order. -/
theorem crlfOffset_strictMono : StrictMono (crlfOffset s) := by
  intro p q hpq
  have hcount := (List.take_sublist_take_left (l := bytes s) (Nat.le_of_lt hpq)).count_le lineFeed
  show p + _ < q + _
  exact Nat.add_lt_add_of_lt_of_le hpq hcount

/-- Where a place goes, counted from another one. -/
theorem crlfOffset_add (s : String) (p k : Nat) :
    crlfOffset s (p + k) = crlfOffset s p + (k + (((bytes s).drop p).take k).count lineFeed) := by
  show p + k + ((bytes s).take (p + k)).count lineFeed = p + ((bytes s).take p).count lineFeed + _
  rw [List.take_add, List.count_append]
  omega

/-- What comes before an offset gets as long as its line feeds say. -/
theorem length_pairFeeds_take {bs : List UInt8} {k : Nat} (hk : k ≤ bs.length) :
    (pairFeeds (bs.take k)).length = k + (bs.take k).count lineFeed := by
  rw [length_pairFeeds, List.length_take_of_le hk]

/-- What comes after an offset moved is what came after it, changed, -/
theorem drop_pairFeeds (bs : List UInt8) (k : Nat) :
    (pairFeeds bs).drop (k + (bs.take k).count lineFeed) = pairFeeds (bs.drop k) := by
  by_cases hk : k ≤ bs.length
  · conv_lhs => rw [← List.take_append_drop k bs, pairFeeds_append]
    rw [List.take_append_drop, ← length_pairFeeds_take hk, List.drop_left]
  · rw [List.take_of_length_le (by omega), List.drop_of_length_le (Nat.le_of_not_le hk),
      List.drop_of_length_le]
    · rfl
    · rw [length_pairFeeds]
      omega

/-- and so is what comes before it. -/
theorem take_pairFeeds (bs : List UInt8) (k : Nat) :
    (pairFeeds bs).take (k + (bs.take k).count lineFeed) = pairFeeds (bs.take k) := by
  by_cases hk : k ≤ bs.length
  · conv_lhs => rw [← List.take_append_drop k bs, pairFeeds_append]
    rw [List.take_append_drop, ← length_pairFeeds_take hk, List.take_left]
  · rw [List.take_of_length_le (Nat.le_of_not_le hk), List.take_of_length_le]
    rw [length_pairFeeds]
    omega

/-- What stands between two offsets gets its carriage returns. -/
theorem window_crlf (hpq : p ≤ q) :
    window (crlf s) (crlfOffset s p) (crlfOffset s q) = pairFeeds (window s p q) := by
  obtain ⟨k, rfl⟩ := Nat.exists_eq_add_of_le hpq
  have hdrop : (bytes (crlf s)).drop (crlfOffset s p) = pairFeeds ((bytes s).drop p) := by
    rw [bytes_crlf]
    exact drop_pairFeeds (bytes s) p
  rw [window, window, hdrop, crlfOffset_add, Nat.add_sub_cancel_left, Nat.add_sub_cancel_left,
    take_pairFeeds]

/-- Bytes of a text without carriage returns are carried by putting some in. -/
theorem carries_pairFeeds {bs more : List UInt8} (hbytes : (bytes s).drop p = bs ++ more)
    (hreturn : carriageReturn ∉ bs) : Carries (crlfOffset s) p bs (pairFeeds bs) := by
  induction bs generalizing p with
  | nil => exact .nil
  | cons b bs ih =>
    have hstep := crlfOffset_add s p 1
    rw [hbytes] at hstep
    have hrest : (bytes s).drop (p + 1) = bs ++ more := by
      rw [← List.drop_drop, hbytes]
      rfl
    have hcarries := ih hrest fun hmem => hreturn (List.mem_cons_of_mem b hmem)
    by_cases hb : b = lineFeed
    · subst hb
      exact .paired hstep hcarries
    · rw [pairFeeds_cons hb]
      refine .same ?_ (fun hb => absurd (hb ▸ List.mem_cons_self) hreturn) hcarries
      rw [hstep]
      simp [hb]

/-- A text without carriage returns has no byte of one. -/
theorem return_notMem_bytes (h : '\r' ∉ s.toList) : carriageReturn ∉ bytes s := by
  intro hmem
  obtain ⟨c, hc, hmem⟩ := List.mem_flatMap.mp hmem
  have hreturn : c = '\r' := Char.toNat_inj.mp (eq_of_mem_utf8EncodeChar hmem (by decide))
  exact h (hreturn ▸ hc)

/-- A text without carriage returns moves when they are put in. -/
theorem moves_crlf (h : '\r' ∉ s.toList) :
    Moves (crlfOffset s) s (crlf s) (bytes s).length where
  strictMono := crlfOffset_strictMono
  le := Nat.le_refl _
  le' := by
    rw [bytes_crlf, length_pairFeeds]
    show _ + ((bytes s).take _).count lineFeed ≤ _
    rw [List.take_length]
  carries {p q} hpq _ := by
    rw [window_crlf hpq]
    refine carries_pairFeeds (List.take_append_drop (q - p) _).symm fun hmem => ?_
    exact return_notMem_bytes h (List.mem_of_mem_drop (List.mem_of_mem_take hmem))

/-! ### Slices -/

/-- No bytes can be dropped anywhere, -/
theorem dropBytes?_zero : dropBytes? 0 cs = some cs := by
  cases cs <;> rfl

/-- and taken anywhere. -/
theorem takeBytes?_zero : takeBytes? 0 cs = some [] := by
  cases cs <;> rfl

/-- Dropping more than all of the first characters. -/
theorem dropBytes?_add (as bs : List Char) (k : Nat) :
    dropBytes? (byteLength as + k) (as ++ bs) = dropBytes? k bs := by
  induction as with
  | nil => rw [byteLength_nil, Nat.zero_add, List.nil_append]
  | cons c as ih =>
    have hc := c.utf8Size_pos
    rw [byteLength_cons, List.cons_append, dropBytes?, if_neg (by omega), if_pos (by omega), ← ih]
    congr 1
    omega

/-- Taking more than all of the first characters. -/
theorem takeBytes?_add (as bs : List Char) (k : Nat) :
    takeBytes? (byteLength as + k) (as ++ bs) = (takeBytes? k bs).map (as ++ ·) := by
  induction as with
  | nil =>
    rw [byteLength_nil, Nat.zero_add, List.nil_append]
    exact Option.map_id'.symm
  | cons c as ih =>
    have hc := c.utf8Size_pos
    have hk : byteLength (c :: as) + k - c.utf8Size = byteLength as + k := by
      rw [byteLength_cons]
      omega
    rw [List.cons_append, takeBytes?, if_neg, if_pos, hk, ih, Option.map_map]
    · rfl
    · rw [byteLength_cons]
      omega
    · rw [byteLength_cons]
      omega

/-- What is dropped is as many bytes of text as asked for. -/
theorem dropBytes?_eq_some (h : dropBytes? p cs = some bs) :
    ∃ as, cs = as ++ bs ∧ byteLength as = p := by
  induction cs generalizing p with
  | nil =>
    rw [dropBytes?] at h
    split at h
    · cases h
      exact ⟨[], rfl, Eq.symm ‹_›⟩
    · cases h
  | cons c cs ih =>
    rw [dropBytes?] at h
    by_cases hp : p = 0
    · rw [if_pos hp] at h
      cases h
      exact ⟨[], rfl, hp.symm⟩
    · rw [if_neg hp] at h
      by_cases hc : c.utf8Size ≤ p
      · rw [if_pos hc] at h
        obtain ⟨as, rfl, has⟩ := ih h
        refine ⟨c :: as, rfl, ?_⟩
        rw [byteLength_cons]
        omega
      · rw [if_neg hc] at h
        cases h

/-- Behind some text, offsets move with it and with what follows it. -/
theorem offsetIn_add (as bs : List Char) (k : Nat) :
    offsetIn (as ++ bs) (byteLength as + k) = byteLength (withReturns as) + offsetIn bs k := by
  have hlength : byteLength (withReturns as) = byteLength as + (encode as).count lineFeed := by
    rw [← length_encode, encode_withReturns, length_pairFeeds, length_encode]
  rw [offsetIn, offsetIn, encode_append, ← length_encode, List.take_length_add_append,
    List.count_append, hlength, length_encode]
  omega

/-- Inside a first character of several bytes. -/
theorem offsetIn_of_lt (h : p < c.utf8Size) (hc : c ≠ '\n') : offsetIn (c :: cs) p = p := by
  have htake : (encode (c :: cs)).take p = (String.utf8EncodeChar c).take p := by
    rw [encode_cons, List.take_append_of_le_length]
    rw [String.length_utf8EncodeChar]
    exact Nat.le_of_lt h
  rw [offsetIn, htake, List.count_eq_zero_of_not_mem]
  · rfl
  · exact fun hmem => lineFeed_notMem hc (List.mem_of_mem_take hmem)

/-- An offset into some characters is none, or comes after the first character, or inside it. -/
theorem offset_cases (c : Char) (p : Nat) :
    p = 0 ∨ (∃ k, p = byteLength [c] + k) ∨ 0 < p ∧ p < c.utf8Size := by
  by_cases hc : c.utf8Size ≤ p
  · exact .inr (.inl ⟨p - c.utf8Size, by rw [byteLength_cons, byteLength_nil]; omega⟩)
  · omega

/-- An offset inside a character is not at a line break, which has one byte. -/
theorem ne_break_of_lt (hp : 0 < p) (hc : p < c.utf8Size) : c ≠ '\n' := by
  rintro rfl
  exact absurd (Nat.lt_of_lt_of_le hc (Nat.succ_le_of_lt hp)) (Nat.lt_irrefl _)

/-- Text can be dropped up to an offset moved exactly if it could be before. -/
theorem dropBytes?_withReturns (cs : List Char) (p : Nat) :
    dropBytes? (offsetIn cs p) (withReturns cs) = (dropBytes? p cs).map withReturns := by
  induction cs generalizing p with
  | nil =>
    cases p <;> rfl
  | cons c cs ih =>
    obtain rfl | ⟨k, rfl⟩ | ⟨hp, hc⟩ := offset_cases c p
    · rw [dropBytes?_zero]
      exact dropBytes?_zero
    · rw [← List.singleton_append, offsetIn_add, withReturns_append, dropBytes?_add, dropBytes?_add,
        ih]
    · have hbreak := ne_break_of_lt hp hc
      rw [offsetIn_of_lt hc hbreak, withReturns_cons hbreak, dropBytes?, dropBytes?,
        if_neg (Nat.ne_of_gt hp), if_neg (Nat.ne_of_gt hp), if_neg (Nat.not_le.mpr hc),
        if_neg (Nat.not_le.mpr hc)]
      rfl

/-- The same of text taken. -/
theorem takeBytes?_withReturns (cs : List Char) (p : Nat) :
    takeBytes? (offsetIn cs p) (withReturns cs) = (takeBytes? p cs).map withReturns := by
  induction cs generalizing p with
  | nil => cases p <;> rfl
  | cons c cs ih =>
    obtain rfl | ⟨k, rfl⟩ | ⟨hp, hc⟩ := offset_cases c p
    · rw [takeBytes?_zero]
      exact takeBytes?_zero
    · rw [← List.singleton_append, offsetIn_add, withReturns_append, takeBytes?_add, takeBytes?_add,
        ih, Option.map_map, Option.map_map]
      congr 1
      funext as
      exact withReturns_append.symm
    · have hbreak := ne_break_of_lt hp hc
      rw [offsetIn_of_lt hc hbreak, withReturns_cons hbreak, takeBytes?, takeBytes?,
        if_neg (Nat.ne_of_gt hp), if_neg (Nat.ne_of_gt hp), if_neg (Nat.not_le.mpr hc),
        if_neg (Nat.not_le.mpr hc)]
      rfl

/-- What is taken is as many bytes of text as asked for. -/
theorem takeBytes?_eq_some (h : takeBytes? p cs = some as) :
    ∃ bs, cs = as ++ bs ∧ byteLength as = p := by
  induction cs generalizing p as with
  | nil =>
    rw [takeBytes?] at h
    split at h
    · cases h
      exact ⟨[], rfl, Eq.symm ‹_›⟩
    · cases h
  | cons c cs ih =>
    rw [takeBytes?] at h
    by_cases hp : p = 0
    · rw [if_pos hp] at h
      cases h
      exact ⟨c :: cs, rfl, hp.symm⟩
    · rw [if_neg hp] at h
      by_cases hc : c.utf8Size ≤ p
      · rw [if_pos hc] at h
        obtain ⟨as', has', rfl⟩ := Option.map_eq_some_iff.mp h
        obtain ⟨bs, rfl, hlength⟩ := ih has'
        refine ⟨bs, rfl, ?_⟩
        rw [byteLength_cons]
        omega
      · rw [if_neg hc] at h
        cases h

/-- A slice that is not empty is what stands between its two ends. -/
theorem slice_cases (s : String) (p q : Nat) :
    slice s p q = "" ∨ ∃ as m bs, s.toList = as ++ m ++ bs ∧ slice s p q = String.ofList m
      ∧ p = byteLength as ∧ q = byteLength as + byteLength m := by
  rw [slice, slice?]
  split
  · rename_i hpq
    cases hdrop : dropBytes? p s.toList with
    | none => exact .inl rfl
    | some rest =>
      obtain ⟨as, hsplit, rfl⟩ := dropBytes?_eq_some hdrop
      cases htake : takeBytes? (q - byteLength as) rest with
      | none =>
        refine .inl ?_
        rw [Option.bind_some, htake]
        rfl
      | some m =>
        obtain ⟨bs, rfl, hm⟩ := takeBytes?_eq_some htake
        refine .inr ⟨as, m, bs, by rw [hsplit, List.append_assoc], ?_, rfl, by omega⟩
        rw [Option.bind_some, htake]
        rfl
  · exact .inl rfl

/-- A slice has no characters that the text has not. -/
theorem mem_of_mem_slice (h : c ∈ (slice s p q).toList) : c ∈ s.toList := by
  rcases slice_cases s p q with hempty | ⟨as, m, bs, hsplit, hslice, -⟩
  · rw [hempty] at h
    cases h
  · rw [hslice, String.toList_ofList] at h
    rw [hsplit]
    exact List.mem_append_left _ (List.mem_append_right _ h)

/-- A slice reaches from its beginning to its end. -/
theorem add_utf8ByteSize_slice (h : slice s p q ≠ "") : p + (slice s p q).utf8ByteSize = q := by
  obtain ⟨as, m, bs, -, hslice, rfl, rfl⟩ := (slice_cases s p q).resolve_left h
  rw [hslice, utf8ByteSize_eq_byteLength, String.toList_ofList]

/-- The bytes of a slice are those between its ends. -/
theorem bytes_slice (h : slice s p q ≠ "") : bytes (slice s p q) = window s p q := by
  obtain ⟨as, m, bs, hsplit, hslice, rfl, rfl⟩ := (slice_cases s p q).resolve_left h
  have hbytes : bytes s = encode as ++ (encode m ++ encode bs) := by
    rw [← encode_append, ← encode_append, ← List.append_assoc, ← hsplit]
    rfl
  rw [hslice, window, hbytes, ← length_encode as, List.drop_left, Nat.add_sub_cancel_left,
    ← length_encode m, List.take_left, bytes, String.toList_ofList]
  rfl

/-- A slice gets its carriage returns. -/
theorem slice_crlf (s : String) (p q : Nat) :
    slice (crlf s) (crlfOffset s p) (crlfOffset s q) = crlf (slice s p q) := by
  rw [slice, slice, slice?, slice?]
  by_cases hpq : p ≤ q
  · rw [if_pos hpq, if_pos (crlfOffset_strictMono.monotone hpq), toList_crlf]
    show (((dropBytes? (offsetIn s.toList p) _).bind _).getD "") = _
    rw [dropBytes?_withReturns]
    cases hdrop : dropBytes? p s.toList with
    | none => rfl
    | some rest =>
      obtain ⟨as, hsplit, rfl⟩ := dropBytes?_eq_some hdrop
      obtain ⟨k, rfl⟩ := Nat.exists_eq_add_of_le hpq
      have hk : crlfOffset s (byteLength as + k) - crlfOffset s (byteLength as)
          = offsetIn rest k := by
        have hstart := offsetIn_add as rest 0
        rw [crlfOffset, crlfOffset, hsplit, offsetIn_add, ← Nat.add_zero (byteLength as), hstart]
        exact Nat.add_sub_cancel_left ..
      rw [Option.map_some, Option.bind_some, Option.bind_some, hk, takeBytes?_withReturns,
        Nat.add_sub_cancel_left]
      cases takeBytes? k rest with
      | none => rfl
      | some bs => simp [crlf]
  · rw [if_neg hpq, if_neg (mt crlfOffset_strictMono.le_iff_le.mp hpq)]
    rfl

/-! ### What is asked of texts -/

/-- A text, or a text without carriage returns that got some. -/
inductive Resembles (t : String) : String → Prop
  | same : Resembles t t
  | crlf : '\r' ∉ t.toList → Resembles t (Text.crlf t)

variable {t' : String}

/-- Texts that resemble each other have as many line breaks. -/
theorem Resembles.countBreaks_eq (h : Resembles t t') : countBreaks t' = countBreaks t := by
  cases h with
  | same => rfl
  | crlf => exact countBreaks_crlf

/-- One of them has a line break if the other one does. -/
theorem Resembles.hasBreak_eq (h : Resembles t t') : hasBreak t' = hasBreak t := by
  have hcount : ∀ u : String, hasBreak u = decide (0 < countBreaks u) := fun u => by
    rw [Bool.eq_iff_iff, decide_eq_true_eq, countBreaks, List.count_pos_iff, hasBreak,
      List.contains_iff_mem]
  rw [hcount, hcount, h.countBreaks_eq]

/-- They are both a text without line breaks or carriage returns, or neither is. -/
theorem Resembles.eq_iff (h : Resembles t t') (hs : '\n' ∉ s.toList) (hreturn : '\r' ∉ s.toList) :
    t' = s ↔ t = s := by
  cases h with
  | same => exact Iff.rfl
  | crlf => exact crlf_eq_iff hs hreturn

/-- They are equal if they have one length. -/
theorem Resembles.eq_of_size (h : Resembles t t') (hsize : t'.utf8ByteSize = t.utf8ByteSize) :
    t' = t := by
  cases h with
  | same => rfl
  | crlf =>
    rw [utf8ByteSize_eq_byteLength, utf8ByteSize_eq_byteLength, toList_crlf,
      byteLength_withReturns] at hsize
    exact crlf_eq_self (List.count_eq_zero.mp (Nat.add_eq_left.mp hsize))

/-- A block comment has the same lines in both. -/
theorem Resembles.stripMarkers_block (h : Resembles t t') :
    stripMarkers t' true = stripMarkers t true := by
  cases h with
  | same => rfl
  | crlf hreturn => exact stripMarkers_crlf_block hreturn

/-- What stands in `s` before `last` is carried by `φ` to `s'`, in slices that resemble those of
    `s`. -/
structure Shown (φ : Nat → Nat) (s s' : String) (last : Nat) : Prop where
  moves : Moves φ s s' last
  slices : ∀ p {q}, q ≤ last → Resembles (slice s p q) (slice s' (φ p) (φ q))

/-- A text without carriage returns shows the same with its line breaks changed. -/
theorem shown_crlf (h : '\r' ∉ s.toList) :
    Shown (crlfOffset s) s (crlf s) (bytes s).length where
  moves := moves_crlf h
  slices p q _ := by
    rw [slice_crlf]
    exact .crlf fun hmem => h (mem_of_mem_slice hmem)

section

variable {φ : Nat → Nat} {s' : String} {last : Nat} {spans : List Span} {span : Span}

/-- The text of a span. -/
theorem Shown.textIn (h : Shown φ s s' last) (hspan : span.Fits φ last) :
    Resembles (span.textIn s) ((span.relocate φ).textIn s') :=
  h.slices span.start hspan.stop_le

/-- Spans have as many line breaks in them where they move to. -/
theorem Shown.breaksWithin (h : Shown φ s s' last) (hspans : ∀ span ∈ spans, span.Fits φ last) :
    breaksWithin s' (spans.map (Span.relocate φ)) = breaksWithin s spans := by
  induction spans with
  | nil => rfl
  | cons span spans ih =>
    obtain ⟨hspan, hspans⟩ := List.forall_mem_cons.mp hspans
    rw [List.map_cons, Trivia.breaksWithin, Trivia.breaksWithin, ih hspans,
      (h.textIn hspan).countBreaks_eq]

/-- The end of a text moves to the end. -/
theorem crlfOffset_length : crlfOffset s (bytes s).length = (bytes (crlf s)).length := by
  rw [bytes_crlf, length_pairFeeds, crlfOffset, offsetIn]
  show _ + ((bytes s).take _).count lineFeed = _
  rw [List.take_length]

/-- They have as many line breaks outside comments. -/
theorem Resembles.countNakedBreaks_eq (h : Resembles t t') :
    countNakedBreaks t' = countNakedBreaks t := by
  cases h with
  | same => rfl
  | crlf hreturn =>
    have hshown := shown_crlf hreturn
    obtain ⟨hscan, hfits⟩ := @Moves.scan _ _ _ _ 0 _ hshown.moves (Nat.le_refl _)
    have hzero : crlfOffset t 0 = 0 := rfl
    rw [hzero, crlfOffset_length] at hscan
    rw [countNakedBreaks, countNakedBreaks, hscan, List.filter_map, List.filter_map,
      List.length_map]
    refine congrArg (· - _) (hshown.breaksWithin fun span hspan => ?_)
    exact hfits span (List.mem_filter.mp hspan).1

end

end Transcode.Text
