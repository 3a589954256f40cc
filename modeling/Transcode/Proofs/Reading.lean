import Mathlib.Tactic.ByContra
import Transcode.Script.Grammar

namespace Transcode.Script

/-!
# What the combinators read

`Parser.Yields p c v c'` says that the parser `p` reads the value `v` from the cursor `c` up to
the cursor `c'`.  For each combinator there is one equivalence that says exactly when it yields
what, in terms of its parts and of `Cursor.Takes`, which takes a single token.  No later proof
looks into a combinator.
-/

variable {α β : Type}

/-! ### Single tokens -/

namespace Cursor

/-- The next token is `t`, and `c'` is the place after it. -/
def Takes (c : Cursor) (t : Token) (c' : Cursor) : Prop :=
  ∃ lexeme rest, c.rest = lexeme :: rest ∧ lexeme.token = t ∧ c' = ⟨lexeme.stop, rest⟩

/-- The token `t` is taken if it comes next. -/
def Skips (c : Cursor) (t : Token) (c' : Cursor) : Prop :=
  c.Takes t c' ∨ (c.peek? ≠ some t ∧ c' = c)

variable {c c' c'' : Cursor} {t u : Token} {p : Token → Bool}

/-- A token that is taken came next, -/
theorem Takes.peek? (h : c.Takes t c') : c.peek? = some t := by
  obtain ⟨lexeme, rest, hrest, rfl, -⟩ := h
  rw [Cursor.peek?, hrest]
  rfl

/-- so no other one did. -/
theorem Takes.peek?_ne (h : c.Takes t c') (hne : t ≠ u) : c.peek? ≠ some u := by
  rw [h.peek?]
  exact fun heq => hne (Option.some.inj heq)

/-- To take a token leaves fewer of them. -/
theorem Takes.shorter (h : c.Takes t c') : c'.rest.length < c.rest.length := by
  obtain ⟨lexeme, rest, hrest, -, rfl⟩ := h
  rw [hrest]
  exact Nat.lt_succ_self _

/-- The token that comes next can be taken. -/
theorem exists_takes (h : c.peek? = some t) : ∃ c', c.Takes t c' := by
  rw [Cursor.peek?, Option.map_eq_some_iff] at h
  obtain ⟨lexeme, hhead, rfl⟩ := h
  obtain ⟨rest, hrest⟩ := List.head?_eq_some_iff.mp hhead
  exact ⟨⟨lexeme.stop, rest⟩, lexeme, rest, hrest, rfl, rfl⟩

/-- A token of the right sort is taken, -/
theorem takeIf?_of_takes (h : c.Takes t c') (hp : p t = true) :
    c.takeIf? p = some ⟨t, c', h.shorter⟩ := by
  obtain ⟨lexeme, rest, hrest, rfl, rfl⟩ := h
  unfold takeIf?
  split
  · rename_i hnil
    rw [hrest] at hnil
    cases hnil
  · rename_i lexeme' rest' hcons
    rw [hrest] at hcons
    cases hcons
    rw [if_pos hp]

/-- what is taken is a token of that sort, -/
theorem takes_of_takeIf? {r : Parsed c Token} (h : c.takeIf? p = some r) :
    c.Takes r.value r.next ∧ p r.value = true := by
  obtain ⟨lexeme, rest, hrest, hp, hvalue, hnext⟩ := takeIf?_eq_some h
  rw [hvalue, hnext]
  exact ⟨⟨lexeme, rest, hrest, rfl, rfl⟩, hp⟩

/-- and nothing is taken exactly if the next token is of another sort. -/
theorem takeIf?_eq_none_iff : c.takeIf? p = none ↔ ∀ t, c.peek? = some t → p t = false := by
  constructor
  · intro h t ht
    obtain ⟨c', hc'⟩ := exists_takes ht
    by_contra hp
    rw [takeIf?_of_takes hc' (by simpa using hp)] at h
    cases h
  · intro h
    by_contra hne
    obtain ⟨r, hr⟩ := Option.ne_none_iff_exists'.mp hne
    obtain ⟨htakes, hp⟩ := takes_of_takeIf? hr
    rw [h _ htakes.peek?] at hp
    cases hp

/-- The token that comes next is taken if it is asked for, -/
theorem take?_of_takes (h : c.Takes t c') : c.take? t = some ⟨t, c', h.shorter⟩ :=
  takeIf?_of_takes h (beq_self_eq_true t)

/-- what is taken is the token asked for, -/
theorem takes_of_take? {r : Parsed c Token} (h : c.take? t = some r) : c.Takes t r.next := by
  obtain ⟨htakes, ht⟩ := takes_of_takeIf? h
  rwa [eq_of_beq ht] at htakes

/-- and nothing is taken exactly if another one comes next. -/
theorem take?_eq_none_iff : c.take? t = none ↔ c.peek? ≠ some t := by
  rw [take?, takeIf?_eq_none_iff]
  constructor
  · intro h ht
    exact absurd (h t ht) (by simp)
  · intro h u hu
    exact beq_eq_false_iff_ne.mpr fun hut => h (hut ▸ hu)

end Cursor

/-! ### Combinators -/

namespace Parser

/-- The parser reads the value `v` from `c` up to `c'`. -/
def Yields (p : Parser α) (c : Cursor) (v : α) (c' : Cursor) : Prop :=
  ∃ shorter, p c = .ok ⟨v, c', shorter⟩

variable {p : Parser α} {q : Parser β} {c c' : Cursor}

/-- A parser that yields something leaves fewer tokens. -/
theorem Yields.shorter {v : α} (h : p.Yields c v c') : c'.rest.length < c.rest.length :=
  h.1

/-- A result of a parser is what it yields. -/
theorem yields_of_eq_ok {r : Parsed c α} (h : p c = .ok r) : p.Yields c r.value r.next :=
  ⟨r.shorter, h⟩

/-- A parser reads what another one reads that does the same at `c`. -/
theorem Yields.of_eq {q : Parser α} {v : α} (h : p.Yields c v c') (heq : q c = p c) :
    q.Yields c v c' := by
  obtain ⟨shorter, h⟩ := h
  exact ⟨shorter, heq.trans h⟩

/-- One step after the other succeeds exactly if both do. -/
theorem bind_eq_ok {ε : Type} {x : Except ε α} {f : α → Except ε β} {b : β} :
    (x >>= f) = .ok b ↔ ∃ a, x = .ok a ∧ f a = .ok b := by
  cases x with
  | error e =>
    constructor
    · intro h
      cases h
    · rintro ⟨a, h, -⟩
      cases h
  | ok a =>
    constructor
    · intro h
      exact ⟨a, rfl, h⟩
    · rintro ⟨a', h, hf⟩
      cases h
      exact hf

/-- A parser for a token takes it. -/
theorem yields_token {t u : Token} : (token t).Yields c u c' ↔ u = t ∧ c.Takes t c' := by
  constructor
  · rintro ⟨shorter, h⟩
    unfold token at h
    split at h
    · rename_i taken htake
      cases h
      obtain ⟨-, hu⟩ := Cursor.takes_of_takeIf? htake
      exact ⟨eq_of_beq hu, Cursor.takes_of_take? htake⟩
    · cases h
  · rintro ⟨rfl, h⟩
    refine ⟨h.shorter, ?_⟩
    rw [token, Cursor.take?_of_takes h]

/-- A leaf is a token of one of some kinds. -/
theorem yields_leaf {kinds : List (Token × Kind)} {expected : Expectation} {v : Ast} :
    (leaf kinds expected).Yields c v c'
      ↔ ∃ t k, c.Takes t c' ∧ kinds.lookup t = some k ∧ v = c.nodeTo c' k [] := by
  constructor
  · rintro ⟨shorter, h⟩
    unfold leaf at h
    split at h
    · rename_i taken htake
      obtain ⟨htakes, hsome⟩ := Cursor.takes_of_takeIf? htake
      obtain ⟨k, hk⟩ := Option.isSome_iff_exists.mp hsome
      cases h
      refine ⟨taken.value, k, htakes, hk, ?_⟩
      rw [hk]
      rfl
    · cases h
  · rintro ⟨t, k, htakes, hk, rfl⟩
    refine ⟨htakes.shorter, ?_⟩
    have hsome : (kinds.lookup t).isSome = true := by rw [hk]; rfl
    rw [leaf, Cursor.takeIf?_of_takes htakes hsome]
    simp only [Parsed.node, Parsed.map, hk, Option.getD_some]

/-- One parser after the other, where the second may depend on what the first one yields. -/
theorem yields_bind {f : α → Parser β} {v : β} :
    (p.bind f).Yields c v c' ↔ ∃ a m, p.Yields c a m ∧ (f a).Yields m v c' := by
  constructor
  · rintro ⟨shorter, h⟩
    obtain ⟨first, hfirst, h⟩ := bind_eq_ok.mp h
    obtain ⟨later, hlater, h⟩ := bind_eq_ok.mp h
    cases h
    exact ⟨first.value, first.next, yields_of_eq_ok hfirst, yields_of_eq_ok hlater⟩
  · rintro ⟨a, m, ⟨hm, hp⟩, ⟨hc', hf⟩⟩
    refine ⟨Nat.lt_trans hc' hm, bind_eq_ok.mpr ⟨_, hp, bind_eq_ok.mpr ⟨_, hf, rfl⟩⟩⟩

/-- One parser after the other, of which only the second one counts, -/
theorem yields_keepRight {v : β} :
    (p.keepRight q).Yields c v c' ↔ ∃ a m, p.Yields c a m ∧ q.Yields m v c' :=
  yields_bind

/-- or only the first one. -/
theorem yields_keepLeft {v : α} :
    (p.keepLeft q).Yields c v c' ↔ ∃ b m, p.Yields c v m ∧ q.Yields m b c' := by
  constructor
  · rintro ⟨shorter, h⟩
    obtain ⟨first, hfirst, h⟩ := bind_eq_ok.mp h
    obtain ⟨later, hlater, h⟩ := bind_eq_ok.mp h
    cases h
    exact ⟨later.value, first.next, yields_of_eq_ok hfirst, yields_of_eq_ok hlater⟩
  · rintro ⟨b, m, ⟨hm, hp⟩, ⟨hc', hq⟩⟩
    exact ⟨Nat.lt_trans hc' hm, bind_eq_ok.mpr ⟨_, hp, bind_eq_ok.mpr ⟨_, hq, rfl⟩⟩⟩

/-- What a parser yields may be changed. -/
theorem yields_map {f : α → β} {v : β} :
    (p.map f).Yields c v c' ↔ ∃ a, p.Yields c a c' ∧ v = f a := by
  constructor
  · rintro ⟨shorter, h⟩
    obtain ⟨first, hfirst, h⟩ := bind_eq_ok.mp h
    cases h
    exact ⟨first.value, yields_of_eq_ok hfirst, rfl⟩
  · rintro ⟨a, ⟨hc', hp⟩, rfl⟩
    exact ⟨hc', bind_eq_ok.mpr ⟨_, hp, rfl⟩⟩

/-- A node is made of what a parser yields, and stands where that was read. -/
theorem yields_node {kind : Kind} {p : Parser (List Ast)} {v : Ast} :
    (node kind p).Yields c v c' ↔ ∃ ns, p.Yields c ns c' ∧ v = c.nodeTo c' kind ns := by
  constructor
  · rintro ⟨shorter, h⟩
    obtain ⟨first, hfirst, h⟩ := bind_eq_ok.mp h
    cases h
    exact ⟨first.value, yields_of_eq_ok hfirst, rfl⟩
  · rintro ⟨ns, ⟨hc', hp⟩, rfl⟩
    exact ⟨hc', bind_eq_ok.mpr ⟨_, hp, rfl⟩⟩

/-- More is read exactly if a certain token comes next. -/
theorem yields_orMore {p q : Parser (List α)} {t : Token} {v : List α} :
    (p.orMore t q).Yields c v c'
      ↔ (p.Yields c v c' ∧ c'.peek? ≠ some t)
        ∨ ∃ as m m' bs, p.Yields c as m ∧ m.Takes t m' ∧ q.Yields m' bs c' ∧ v = as ++ bs := by
  constructor
  · rintro ⟨shorter, h⟩
    obtain ⟨first, hfirst, h⟩ := bind_eq_ok.mp h
    split at h
    · rename_i hnone
      cases h
      exact .inl ⟨yields_of_eq_ok hfirst, Cursor.take?_eq_none_iff.mp hnone⟩
    · rename_i taken htake
      obtain ⟨later, hlater, h⟩ := bind_eq_ok.mp h
      cases h
      exact .inr ⟨first.value, first.next, taken.next, later.value, yields_of_eq_ok hfirst,
        Cursor.takes_of_take? htake, yields_of_eq_ok hlater, rfl⟩
  · rintro (⟨⟨hc', hp⟩, hpeek⟩ | ⟨as, m, m', bs, ⟨hm, hp⟩, htakes, ⟨hc', hq⟩, rfl⟩)
    · refine ⟨hc', bind_eq_ok.mpr ⟨_, hp, ?_⟩⟩
      simp only [Cursor.take?_eq_none_iff.mpr hpeek]
      rfl
    · refine ⟨Nat.lt_trans hc' (Nat.lt_trans htakes.shorter hm), bind_eq_ok.mpr ⟨_, hp, ?_⟩⟩
      simp only [Cursor.take?_of_takes htakes]
      exact bind_eq_ok.mpr ⟨_, hq, rfl⟩

/-- A token is skipped if it comes next. -/
theorem yields_skip {t : Token} {v : α} :
    (p.skip t).Yields c v c' ↔ ∃ m, p.Yields c v m ∧ m.Skips t c' := by
  constructor
  · rintro ⟨shorter, h⟩
    obtain ⟨first, hfirst, h⟩ := bind_eq_ok.mp h
    refine ⟨first.next, ?_⟩
    injection h with h
    unfold Parsed.skip at h
    split at h
    · rename_i taken htake
      cases h
      exact ⟨yields_of_eq_ok hfirst, .inl (Cursor.takes_of_take? htake)⟩
    · rename_i hnone
      cases h
      exact ⟨yields_of_eq_ok hfirst, .inr ⟨Cursor.take?_eq_none_iff.mp hnone, rfl⟩⟩
  · rintro ⟨m, ⟨hm, hp⟩, htakes | ⟨hpeek, rfl⟩⟩
    · refine ⟨Nat.lt_trans htakes.shorter hm, bind_eq_ok.mpr ⟨_, hp, ?_⟩⟩
      rw [Parsed.skip, Cursor.take?_of_takes htakes]
      rfl
    · refine ⟨hm, bind_eq_ok.mpr ⟨_, hp, ?_⟩⟩
      rw [Parsed.skip, Cursor.take?_eq_none_iff.mpr hpeek]
      rfl

/-! ### Loops -/

variable {item : Parser α} {close : Token}

/-- Items are read up to a token that closes them. -/
theorem yields_itemsUntil {vs : List α} :
    Yields (itemsUntil close item) c vs c'
      ↔ (c.Takes close c' ∧ vs = [])
        ∨ (c.peek? ≠ some close ∧ ∃ v m rest, item.Yields c v m
          ∧ Yields (itemsUntil close item) m rest c' ∧ vs = v :: rest) := by
  constructor
  · rintro ⟨shorter, h⟩
    rw [itemsUntil] at h
    split at h
    · rename_i taken htake
      cases h
      exact .inl ⟨Cursor.takes_of_take? htake, rfl⟩
    · rename_i hnone
      obtain ⟨first, hfirst, h⟩ := bind_eq_ok.mp h
      obtain ⟨later, hlater, h⟩ := bind_eq_ok.mp h
      cases h
      exact .inr ⟨Cursor.take?_eq_none_iff.mp hnone, first.value, first.next, later.value,
        yields_of_eq_ok hfirst, yields_of_eq_ok hlater, rfl⟩
  · rintro (⟨htakes, rfl⟩ | ⟨hpeek, v, m, rest, ⟨hm, hitem⟩, ⟨hc', hrest⟩, rfl⟩)
    · refine ⟨htakes.shorter, ?_⟩
      rw [itemsUntil, Cursor.take?_of_takes htakes]
      rfl
    · refine ⟨Nat.lt_trans hc' hm, ?_⟩
      rw [itemsUntil, Cursor.take?_eq_none_iff.mpr hpeek]
      exact bind_eq_ok.mpr ⟨_, hitem, bind_eq_ok.mpr ⟨_, hrest, rfl⟩⟩

/-- So are items with commas in between, of which the last may have a comma after it. -/
theorem yields_commaItemsUntil {vs : List α} :
    Yields (commaItemsUntil close item) c vs c'
      ↔ (c.Takes close c' ∧ vs = [])
        ∨ (c.peek? ≠ some close ∧ ∃ v m, item.Yields c v m
          ∧ ((m.peek? ≠ some .comma ∧ m.Takes close c' ∧ vs = [v])
            ∨ ∃ m' rest, m.Takes .comma m' ∧ Yields (commaItemsUntil close item) m' rest c'
              ∧ vs = v :: rest)) := by
  constructor
  · rintro ⟨shorter, h⟩
    rw [commaItemsUntil] at h
    split at h
    · rename_i taken htake
      cases h
      exact .inl ⟨Cursor.takes_of_take? htake, rfl⟩
    · rename_i hnone
      obtain ⟨first, hfirst, h⟩ := bind_eq_ok.mp h
      refine .inr ⟨Cursor.take?_eq_none_iff.mp hnone, first.value, first.next,
        yields_of_eq_ok hfirst, ?_⟩
      -- After an item, the comma decides: with one the rest of the list follows, which may be empty
      -- (`f(a, )`), and without one the list must be closed.
      split at h
      · rename_i comma hcomma
        obtain ⟨later, hlater, h⟩ := bind_eq_ok.mp h
        cases h
        exact .inr ⟨comma.next, later.value, Cursor.takes_of_take? hcomma,
          yields_of_eq_ok hlater, rfl⟩
      · rename_i hcomma
        obtain ⟨closing, hclosing, h⟩ := bind_eq_ok.mp h
        cases h
        obtain ⟨-, htakes⟩ := yields_token.mp (yields_of_eq_ok hclosing)
        exact .inl ⟨Cursor.take?_eq_none_iff.mp hcomma, htakes, rfl⟩
  · rintro (⟨htakes, rfl⟩ | ⟨hpeek, v, m, ⟨hm, hitem⟩, hmore⟩)
    · refine ⟨htakes.shorter, ?_⟩
      rw [commaItemsUntil, Cursor.take?_of_takes htakes]
      rfl
    · rcases hmore with ⟨hcomma, htakes, rfl⟩ | ⟨m', rest, htakes, ⟨hc', hrest⟩, rfl⟩
      · refine ⟨Nat.lt_trans htakes.shorter hm, ?_⟩
        rw [commaItemsUntil, Cursor.take?_eq_none_iff.mpr hpeek]
        refine bind_eq_ok.mpr ⟨_, hitem, ?_⟩
        simp only [Cursor.take?_eq_none_iff.mpr hcomma]
        obtain ⟨hc', hclosing⟩ := yields_token.mpr ⟨rfl, htakes⟩
        exact bind_eq_ok.mpr ⟨_, hclosing, rfl⟩
      · refine ⟨Nat.lt_trans hc' (Nat.lt_trans htakes.shorter hm), ?_⟩
        rw [commaItemsUntil, Cursor.take?_eq_none_iff.mpr hpeek]
        refine bind_eq_ok.mpr ⟨_, hitem, ?_⟩
        simp only [Cursor.take?_of_takes htakes]
        exact bind_eq_ok.mpr ⟨_, hrest, rfl⟩

/-- Without a closing token the items end where no comma follows. -/
theorem yields_commaItems {vs : List α} :
    Yields (commaItems item) c vs c'
      ↔ ∃ v m, item.Yields c v m
        ∧ ((m.peek? ≠ some .comma ∧ m = c' ∧ vs = [v])
          ∨ ∃ m' rest, m.Takes .comma m' ∧ Yields (commaItems item) m' rest c'
            ∧ vs = v :: rest) := by
  constructor
  · rintro ⟨shorter, h⟩
    rw [commaItems] at h
    obtain ⟨first, hfirst, h⟩ := bind_eq_ok.mp h
    refine ⟨first.value, first.next, yields_of_eq_ok hfirst, ?_⟩
    split at h
    · rename_i comma hcomma
      obtain ⟨later, hlater, h⟩ := bind_eq_ok.mp h
      cases h
      exact .inr ⟨comma.next, later.value, Cursor.takes_of_take? hcomma,
        yields_of_eq_ok hlater, rfl⟩
    · rename_i hcomma
      cases h
      exact .inl ⟨Cursor.take?_eq_none_iff.mp hcomma, rfl, rfl⟩
  · rintro ⟨v, m, ⟨hm, hitem⟩, hmore⟩
    rcases hmore with ⟨hcomma, rfl, rfl⟩ | ⟨m', rest, htakes, ⟨hc', hrest⟩, rfl⟩
    · refine ⟨hm, ?_⟩
      rw [commaItems]
      refine bind_eq_ok.mpr ⟨_, hitem, ?_⟩
      simp only [Cursor.take?_eq_none_iff.mpr hcomma]
      rfl
    · refine ⟨Nat.lt_trans hc' (Nat.lt_trans htakes.shorter hm), ?_⟩
      rw [commaItems]
      refine bind_eq_ok.mpr ⟨_, hitem, ?_⟩
      simp only [Cursor.take?_of_takes htakes]
      exact bind_eq_ok.mpr ⟨_, hrest, rfl⟩

/-- Items between two tokens. -/
theorem yields_delimited {opening : Token} {vs : List α} :
    (delimited opening close item).Yields c vs c'
      ↔ ∃ m, c.Takes opening m ∧ Yields (commaItemsUntil close item) m vs c' := by
  rw [delimited, yields_keepRight]
  constructor
  · rintro ⟨t, m, htoken, hitems⟩
    exact ⟨m, (yields_token.mp htoken).2, hitems⟩
  · rintro ⟨m, htakes, hitems⟩
    exact ⟨opening, m, yields_token.mpr ⟨rfl, htakes⟩, hitems⟩

/-- Items up to the end of the source. -/
theorem itemsToEnd_eq_ok {vs : List α} :
    itemsToEnd item c = .ok vs
      ↔ (c.rest = [] ∧ vs = [])
        ∨ (c.rest ≠ [] ∧ ∃ v m rest, item.Yields c v m ∧ itemsToEnd item m = .ok rest
          ∧ vs = v :: rest) := by
  constructor
  · intro h
    rw [itemsToEnd] at h
    split at h
    · rename_i hrest
      cases h
      exact .inl ⟨hrest, rfl⟩
    · rename_i hrest
      obtain ⟨first, hfirst, h⟩ := bind_eq_ok.mp h
      obtain ⟨later, hlater, h⟩ := bind_eq_ok.mp h
      cases h
      refine .inr ⟨?_, first.value, first.next, later, yields_of_eq_ok hfirst, hlater, rfl⟩
      rw [hrest]
      exact List.cons_ne_nil _ _
  · rintro (⟨hrest, rfl⟩ | ⟨hrest, v, m, rest, ⟨hm, hitem⟩, hlater, rfl⟩)
    · rw [itemsToEnd]
      simp only [hrest]
    · rw [itemsToEnd]
      split
      · contradiction
      · exact bind_eq_ok.mpr ⟨_, hitem, bind_eq_ok.mpr ⟨_, hlater, rfl⟩⟩

end Parser

/-- A result that there is, is the one that is returned. -/
theorem eq_ok_of_toOption {ε α : Type} {result : Except ε α} {a : α}
    (h : result.toOption = some a) : result = .ok a := by
  cases result with
  | error e => cases h
  | ok b => exact congrArg Except.ok (Option.some.inj h)

end Transcode.Script
