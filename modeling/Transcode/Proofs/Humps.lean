import Mathlib.Data.List.Basic
import Transcode.Target.Naming

namespace Transcode.Target

/-!
# Humps of names

Snake case puts an underscore where a hump of a name begins.  Whether a hump begins at a place can
be told by the characters around it: the one before, which must be there, and the one after, which
may be missing (`snakeAt?`).  A name that does not begin with a capital always has a character
before its capitals, so that going through its places one by one never reads outside of the name,
and gives the name in snake case (`snakeByPlaces?_eq`).

What comes of a name is told piece by piece, one piece for each character (`snakePieces`): the
character in lower case, after an underscore exactly if a hump begins there.  No piece has a capital
(`isUpper_of_mem_snakePiece`), and so the name in snake case is kept when it is put in snake case
again.
-/

/-! ### Names by their places -/

/-- A name that stays as it is: it begins with a capital, or it has no capital at all. -/
def IsKept (name : String) : Prop :=
  name.toList.head?.any Char.isUpper = true ∨ ∀ c ∈ name.toList, c.isUpper = false

instance (name : String) : Decidable (IsKept name) :=
  @instDecidableOr _ _ inferInstance (List.decidableBAll _ name.toList)

/-- The character before a place.  There is none before the first. -/
def charBefore? (cs : List Char) : Nat → Option Char
  | 0 => none
  | i + 1 => cs[i]?

/-- A hump begins at a place of a name: a capital stands there, and before it a small letter or a
    digit, or another capital if a small letter comes after it. -/
def IsHump (cs : List Char) (i : Nat) : Prop :=
  ∃ before c, charBefore? cs i = some before ∧ cs[i]? = some c ∧ c.isUpper = true
    ∧ (before.isLower = true ∨ before.isDigit = true
      ∨ before.isUpper = true ∧ ∃ after, cs[i + 1]? = some after ∧ after.isLower = true)

/-- What is written for a character between two others. -/
def snakePiece (before c : Char) (after : Option Char) : List Char :=
  if c.isUpper then
    if startsHump before after then ['_', c.toLower] else [c.toLower]
  else [c]

/-- What is written for the character at a place.  It fails if there is no such place, and if the
    character before it is needed and there is none. -/
def snakeAt? (cs : List Char) (i : Nat) : Option (List Char) :=
  cs[i]?.bind fun c =>
    if c.isUpper then (charBefore? cs i).map fun before => snakePiece before c cs[i + 1]?
    else some [c]

/-- A name in snake case, place by place.  It fails if something outside of the name is read. -/
def snakeByPlaces? (name : String) : Option String :=
  let cs := name.toList
  if cs.head?.any Char.isUpper || !cs.any Char.isUpper then some name
  else ((List.range cs.length).mapM (snakeAt? cs)).map fun pieces => String.ofList pieces.flatten

section

variable {cs rest : List Char} {before c d : Char} {after : Option Char} {name : String}

/-! ### Characters -/

/-- A capital is a character between two others. -/
theorem isUpper_iff_val : c.isUpper = true ↔ c.val ≥ 'A'.val ∧ c.val ≤ 'Z'.val :=
  decide_eq_true_iff

theorem isUpper_iff : c.isUpper = true ↔ 65 ≤ c.toNat ∧ c.toNat ≤ 90 := by
  rw [isUpper_iff_val]
  simp [UInt32.le_iff_toNat_le, ← Char.toNat_val]

/-- The small letters are as far behind the capitals. -/
theorem toNat_toLower (h : c.isUpper = true) : c.toLower.toNat = c.toNat + 32 := by
  have hrange := isUpper_iff.mp h
  unfold Char.toLower
  rw [dif_pos (isUpper_iff_val.mp h)]
  show (c.val + 32).toNat = c.toNat + 32
  rw [UInt32.toNat_add, Char.toNat_val]
  show (c.toNat + 32) % 2 ^ 32 = c.toNat + 32
  omega

/-- What is no capital is in lower case. -/
theorem toLower_eq_self (h : c.isUpper = false) : c.toLower = c := by
  unfold Char.toLower
  rw [dif_neg fun hcond => by simp [isUpper_iff_val.mpr hcond] at h]

/-- Nothing in lower case is a capital. -/
theorem isUpper_toLower (c : Char) : c.toLower.isUpper = false := by
  cases hc : c.isUpper with
  | false => rw [toLower_eq_self hc, hc]
  | true =>
    have hrange := isUpper_iff.mp hc
    have hlower := toNat_toLower hc
    rw [← Bool.not_eq_true, isUpper_iff]
    omega

/-- A capital does not become an underscore. -/
theorem toLower_ne_underscore (h : c.isUpper = true) : c.toLower ≠ '_' := by
  have hrange := isUpper_iff.mp h
  have hlower := toNat_toLower h
  intro hsame
  rw [hsame] at hlower
  -- The underscore is the character 95, and the small letters begin with 97.
  have hunderscore : '_'.toNat = 95 := rfl
  omega

/-! ### Pieces -/

/-- The pieces of a name after `before`, one for each character. -/
def snakePieces (before : Char) : List Char → List (List Char)
  | [] => []
  | c :: rest => snakePiece before c rest.head? :: snakePieces c rest

theorem snakePiece_of_not_isUpper (h : c.isUpper = false) : snakePiece before c after = [c] := by
  simp [snakePiece, h]

/-- The pieces make up the name in snake case. -/
theorem flatten_snakePieces (before : Char) (rest : List Char) :
    (snakePieces before rest).flatten = snakeAfter before rest := by
  induction rest generalizing before with
  | nil => rfl
  | cons c rest ih =>
    rw [snakePieces, List.flatten_cons, ih, snakeAfter, snakePiece]
    split <;> simp

theorem length_snakePieces (before : Char) (rest : List Char) :
    (snakePieces before rest).length = rest.length := by
  induction rest generalizing before with
  | nil => rfl
  | cons c rest ih => simp [snakePieces, ih]

/-- A piece has no capital. -/
theorem isUpper_of_mem_snakePiece (h : d ∈ snakePiece before c after) : d.isUpper = false := by
  unfold snakePiece at h
  split at h
  · split at h
    · rcases List.mem_cons.mp h with rfl | h
      · decide
      · rw [List.mem_singleton.mp h]
        exact isUpper_toLower c
    · rw [List.mem_singleton.mp h]
      exact isUpper_toLower c
  · rename_i hc
    rw [List.mem_singleton.mp h]
    simpa using hc

theorem isUpper_of_mem_snakePieces (before : Char) (rest : List Char) :
    ∀ piece ∈ snakePieces before rest, ∀ d ∈ piece, d.isUpper = false := by
  induction rest generalizing before with
  | nil => simp [snakePieces]
  | cons c rest ih =>
    intro piece hpiece d hd
    rcases List.mem_cons.mp hpiece with rfl | hpiece
    · exact isUpper_of_mem_snakePiece hd
    · exact ih c piece hpiece d hd

/-- Without underscores, a piece is its character in lower case. -/
theorem filter_snakePiece (before c : Char) (after : Option Char) :
    (snakePiece before c after).filter (· ≠ '_') = [c.toLower].filter (· ≠ '_') := by
  unfold snakePiece
  cases hc : c.isUpper with
  | false => simp [toLower_eq_self hc]
  | true =>
    have hne := toLower_ne_underscore hc
    simp only [if_true]
    split <;> simp [hne]

theorem filter_snakeAfter (before : Char) (rest : List Char) :
    (snakeAfter before rest).filter (· ≠ '_')
      = (rest.map Char.toLower).filter (· ≠ '_') := by
  rw [← flatten_snakePieces]
  induction rest generalizing before with
  | nil => rfl
  | cons c rest ih =>
    rw [snakePieces, List.flatten_cons, List.filter_append, filter_snakePiece, ih,
      ← List.filter_append]
    rfl

/-! ### Places -/

/-- After the first place, a character is read in the same way from the second one on. -/
theorem snakeAt?_cons (before : Char) (cs : List Char) (i : Nat) :
    snakeAt? (before :: cs) (i + 2) = snakeAt? cs (i + 1) := by
  simp [snakeAt?, charBefore?]

/-- The pieces are what is read at the places. -/
theorem getElem?_snakePieces (before : Char) (rest : List Char) (i : Nat) :
    (snakePieces before rest)[i]? = snakeAt? (before :: rest) (i + 1) := by
  induction rest generalizing before i with
  | nil => simp [snakePieces, snakeAt?]
  | cons c rest ih =>
    cases i with
    | zero =>
      cases hc : c.isUpper with
      | false => simp [snakePieces, snakeAt?, hc, snakePiece_of_not_isUpper]
      | true => simp [snakePieces, snakeAt?, hc, charBefore?, List.head?_eq_getElem?]
    | succ i =>
      rw [snakeAt?_cons, ← ih c i]
      rfl

/-- So they are for a whole name that does not begin with a capital. -/
theorem getElem?_pieces (hc : c.isUpper = false) (rest : List Char) (i : Nat) :
    ([c] :: snakePieces c rest)[i]? = snakeAt? (c :: rest) i := by
  cases i with
  | zero => simp [snakeAt?, hc]
  | succ i => exact getElem?_snakePieces c rest i

/-- What is read at a place is an underscore more exactly if a hump begins there. -/
theorem snakeAt?_eq_some {i : Nat} {piece : List Char} (hc : cs[i]? = some c)
    (h : snakeAt? cs i = some piece) :
    (IsHump cs i ∧ piece = ['_', c.toLower]) ∨ (¬ IsHump cs i ∧ piece = [c.toLower]) := by
  rw [snakeAt?, hc, Option.bind_some] at h
  split at h
  · rename_i hupper
    obtain ⟨before, hbefore, rfl⟩ := Option.map_eq_some_iff.mp h
    have hhump : IsHump cs i ↔ startsHump before cs[i + 1]? = true := by
      simp [IsHump, startsHump, hbefore, hc, hupper, Option.any_eq_true, or_assoc]
    by_cases hstarts : startsHump before cs[i + 1]? = true
    · exact .inl ⟨hhump.mpr hstarts, by simp [snakePiece, hupper, hstarts]⟩
    · exact .inr ⟨mt hhump.mp hstarts, by simp [snakePiece, hupper, hstarts]⟩
  · rename_i hupper
    cases h
    have hlower := toLower_eq_self (by simpa using hupper)
    refine .inr ⟨?_, by rw [hlower]⟩
    rintro ⟨before, c', -, hc', hupper', -⟩
    rw [hc] at hc'
    cases hc'
    exact hupper hupper'

end

/-- Reading the items of a list at all its places gives the list. -/
theorem mapM_range {α : Type} {l : List α} {f : Nat → Option α} (h : ∀ i, l[i]? = f i) {n : Nat}
    (hn : n ≤ l.length) : (List.range n).mapM f = some (l.take n) := by
  induction n with
  | zero => rfl
  | succ n ih =>
    have hget : f n = some l[n] := by
      rw [← h, List.getElem?_eq_getElem (by omega)]
    rw [List.range_succ, List.mapM_append, ih (by omega), List.mapM_cons, hget, List.mapM_nil,
      List.take_succ_eq_append_getElem (by omega)]
    rfl

/-! ### Names -/

section

variable {name : String}

/-- Without capitals there are no humps, and nothing changes. -/
theorem snakeAfter_eq_self {cs : List Char} (h : ∀ c ∈ cs, c.isUpper = false) (before : Char) :
    snakeAfter before cs = cs := by
  induction cs generalizing before with
  | nil => rfl
  | cons c cs ih =>
    obtain ⟨hc, hcs⟩ := List.forall_mem_cons.mp h
    rw [snakeAfter, ih hcs, if_neg (by simp [hc])]

theorem snakeCase_of_isKept (h : IsKept name) : snakeCase name = name := by
  rw [snakeCase]
  cases hname : name.toList with
  | nil => exact (String.toList_eq_nil_iff.mp hname).symm
  | cons c rest =>
    rw [IsKept, hname] at h
    show (if c.isUpper then name else String.ofList (c :: snakeAfter c rest)) = name
    split
    · rfl
    · rename_i hc
      have hnone : ∀ d ∈ c :: rest, d.isUpper = false := h.resolve_left (by simpa using hc)
      rw [snakeAfter_eq_self (List.forall_mem_cons.mp hnone).2, ← hname, String.ofList_toList]

/-- Any other name begins with something that is no capital and stays, and the pieces after it are
    put together. -/
theorem exists_pieces (h : ¬ IsKept name) :
    ∃ c rest, name.toList = c :: rest ∧ c.isUpper = false
      ∧ (snakeCase name).toList = c :: snakeAfter c rest := by
  rw [IsKept, not_or] at h
  cases hname : name.toList with
  | nil => exact absurd (by simp [hname]) h.2
  | cons c rest =>
    have hc : c.isUpper = false := by
      simpa [hname] using h.1
    refine ⟨c, rest, rfl, hc, ?_⟩
    rw [snakeCase, hname]
    show (if c.isUpper then name else String.ofList (c :: snakeAfter c rest)).toList = _
    rw [if_neg (by simp [hc]), String.toList_ofList]

/-- No capitals are left. -/
theorem isUpper_of_mem_snakeCase (h : ¬ IsKept name) :
    ∀ c ∈ (snakeCase name).toList, c.isUpper = false := by
  obtain ⟨c, rest, -, hc, hsnake⟩ := exists_pieces h
  rw [hsnake, ← flatten_snakePieces]
  intro d hd
  rcases List.mem_cons.mp hd with rfl | hd
  · exact hc
  · obtain ⟨piece, hpiece, hd⟩ := List.mem_flatten.mp hd
    exact isUpper_of_mem_snakePieces c rest piece hpiece d hd

/-- A name in snake case is kept. -/
theorem snakeCase_snakeCase (name : String) : snakeCase (snakeCase name) = snakeCase name := by
  by_cases h : IsKept name
  · rw [snakeCase_of_isKept h, snakeCase_of_isKept h]
  · exact snakeCase_of_isKept (.inr (isUpper_of_mem_snakeCase h))

theorem filter_snakeCase (h : ¬ IsKept name) :
    (snakeCase name).toList.filter (· ≠ '_')
      = (name.toList.map Char.toLower).filter (· ≠ '_') := by
  obtain ⟨c, rest, hname, hc, hsnake⟩ := exists_pieces h
  rw [hsnake, hname, List.map_cons, toLower_eq_self hc, ← List.singleton_append, List.filter_append,
    filter_snakeAfter, ← List.filter_append]
  rfl

/-- Going through the places of a name reads nothing outside of it. -/
theorem snakeByPlaces?_eq (name : String) : snakeByPlaces? name = some (snakeCase name) := by
  have hkept : (name.toList.head?.any Char.isUpper || !name.toList.any Char.isUpper) = true
      ↔ IsKept name := by
    simp [IsKept]
  unfold snakeByPlaces?
  by_cases h : IsKept name
  · rw [if_pos (hkept.mpr h), snakeCase_of_isKept h]
  · obtain ⟨c, rest, hname, hc, hsnake⟩ := exists_pieces h
    have hlength : (c :: rest).length = ([c] :: snakePieces c rest).length := by
      simp [length_snakePieces]
    rw [if_neg (mt hkept.mp h), hname, hlength,
      mapM_range (getElem?_pieces hc rest) (Nat.le_refl _), List.take_length, Option.map_some,
      List.flatten_cons, flatten_snakePieces, List.singleton_append, ← hsnake, String.ofList_toList]

/-- **Names in snake case.**  Going through the places of any name, with the characters before and
    after a place looked up by their numbers, never fails and gives the name in snake case.  Putting
    it in snake case again changes nothing.  A name that begins with a capital or has none stays as
    it is.  Any other loses its capitals; but for underscores it is the same in lower case; and each
    of its characters comes out in lower case, with an underscore before it exactly if a hump begins
    there. -/
theorem names_in_snake_case (name : String) :
    snakeByPlaces? name = some (snakeCase name)
      ∧ snakeCase (snakeCase name) = snakeCase name
      ∧ (IsKept name → snakeCase name = name)
      ∧ (¬ IsKept name →
        (∀ c ∈ (snakeCase name).toList, c.isUpper = false)
        ∧ (snakeCase name).toList.filter (· ≠ '_')
          = (name.toList.map Char.toLower).filter (· ≠ '_')
        ∧ ∃ pieces : List (List Char), (snakeCase name).toList = pieces.flatten
          ∧ pieces.length = name.toList.length
          ∧ ∀ i c piece, name.toList[i]? = some c → pieces[i]? = some piece →
            (IsHump name.toList i ∧ piece = ['_', c.toLower])
              ∨ (¬ IsHump name.toList i ∧ piece = [c.toLower])) := by
  refine ⟨snakeByPlaces?_eq name, snakeCase_snakeCase name, snakeCase_of_isKept, ?_⟩
  intro h
  refine ⟨isUpper_of_mem_snakeCase h, filter_snakeCase h, ?_⟩
  obtain ⟨c, rest, hname, hc, hsnake⟩ := exists_pieces h
  refine ⟨[c] :: snakePieces c rest, ?_, ?_, ?_⟩
  · rw [hsnake, List.flatten_cons, flatten_snakePieces]
    rfl
  · rw [hname]
    simp [length_snakePieces]
  · intro i d piece hd hpiece
    rw [getElem?_pieces hc, ← hname] at hpiece
    exact snakeAt?_eq_some hd hpiece

/-- An acronym, a digit, an underscore before a capital, and a letter that is not of ASCII. -/
theorem names_in_snake_case_acronym :
    ¬ IsKept "getHTTPServer2X_YéZ"
      ∧ snakeCase "getHTTPServer2X_YéZ" = "get_http_server2_x_yéz"
      ∧ snakeByPlaces? "getHTTPServer2X_YéZ" = some "get_http_server2_x_yéz"
      ∧ IsKept "HTTPServer" ∧ snakeCase "HTTPServer" = "HTTPServer"
      ∧ ∃ pieces : List (List Char), "get_http_server2_x_yéz".toList = pieces.flatten
        ∧ pieces.length = 19
        ∧ ∀ i c piece, "getHTTPServer2X_YéZ".toList[i]? = some c → pieces[i]? = some piece →
          (IsHump "getHTTPServer2X_YéZ".toList i ∧ piece = ['_', c.toLower])
            ∨ (¬ IsHump "getHTTPServer2X_YéZ".toList i ∧ piece = [c.toLower]) := by
  have hnot : ¬ IsKept "getHTTPServer2X_YéZ" := by decide +kernel
  have hkept : IsKept "HTTPServer" := by decide +kernel
  have hsnake : snakeCase "getHTTPServer2X_YéZ" = "get_http_server2_x_yéz" := by decide +kernel
  obtain ⟨hplaces, -, -, hother⟩ := names_in_snake_case "getHTTPServer2X_YéZ"
  obtain ⟨-, -, pieces, hpieces, hlength, hhumps⟩ := hother hnot
  rw [hsnake] at hplaces hpieces
  exact ⟨hnot, hsnake, hplaces, hkept, (names_in_snake_case "HTTPServer").2.2.1 hkept, pieces,
    hpieces, hlength.trans (by decide +kernel), hhumps⟩

end

end Transcode.Target
