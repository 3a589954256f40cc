import Transcode.Proofs.Indexing

namespace Transcode.Script.Indexed

open Transcode.Script.Parser

/-!
# Agreement with the grammar

An action of the machine agrees with an outcome of the grammar (`Agrees`) if it refuses with the
same error, or has the same value, has come to the same place, which is not past the end of the
tokens, and has the guard that it began with.  Whatever agrees with some outcome has therefore
neither run out of rounds nor indexed past the end.  Here is one lemma for each step that the
machine is made of.

What nests is read one level deeper.  The machine knows the level by its guard, so it is compared,
for every guard, with the levels that this guard leaves (`levelsAt`).
-/

variable {α β : Type} {tokens : List Lexeme} {guard : NestingGuard} {pos first : Nat}

/-! ### Places -/

/-- Behind an index there are the tokens after it. -/
@[simp] theorem length_rest_cursor :
    (cursor tokens pos).rest.length = tokens.length - pos :=
  List.length_drop

/-- The next token is the one at the index. -/
theorem peek?_cursor : (cursor tokens pos).peek? = tokens[pos]?.map (·.token) := by
  unfold Cursor.peek? cursor
  rw [List.head?_drop]

/-- A token that comes next is taken by adding one to the index. -/
theorem takes_cursor {t : Token} (h : (cursor tokens pos).peek? = some t) :
    pos < tokens.length ∧ (cursor tokens pos).Takes t (cursor tokens (pos + 1)) := by
  rw [peek?_cursor, Option.map_eq_some_iff] at h
  obtain ⟨lexeme, hget, rfl⟩ := h
  obtain ⟨hlt, rfl⟩ := List.getElem?_eq_some_iff.mp hget
  refine ⟨hlt, tokens[pos], tokens.drop (pos + 1), List.drop_eq_getElem_cons hlt, rfl, ?_⟩
  simp [cursor, hget]

/-! ### Agreement -/

/-- The action comes to the same end as the grammar, and leaves the guard as it was. -/
def Agrees (tokens : List Lexeme) (guard : NestingGuard) (act : Action α) (pos : Nat)
    (x : Except SourceError (α × Cursor)) : Prop :=
  (∃ e, x = .error e ∧ act ⟨pos, guard⟩ = .error (.refused e))
    ∨ ∃ v pos', x = .ok (v, cursor tokens pos') ∧ act ⟨pos, guard⟩ = .ok (v, ⟨pos', guard⟩)
      ∧ pos' ≤ tokens.length

section

variable {act : Action α} {k : α → Action β} {c : Cursor}

/-- A value that is there already takes no tokens. -/
theorem agrees_pure (v : α) (h : pos ≤ tokens.length) :
    Agrees tokens guard (pure v) pos (.ok (v, cursor tokens pos)) :=
  .inr ⟨v, pos, rfl, rfl, h⟩

/-- A refusal names the same token and the same expectation. -/
theorem agrees_refuse (expected : Expectation) :
    Agrees tokens guard (refuse tokens expected : Action α) pos
      (.error ((cursor tokens pos).unexpected expected)) :=
  .inl ⟨_, rfl, rfl⟩

/-- A node made at an index has the tokens since its first one. -/
theorem agrees_finish (kind : Kind) (children : List Ast) (h : pos ≤ tokens.length) :
    Agrees tokens guard (finish tokens kind first children) pos
      (.ok ((cursor tokens first).nodeTo (cursor tokens pos) kind children, cursor tokens pos)) :=
  .inr ⟨_, pos, rfl, rfl, h⟩

/-- A refusal is final. -/
theorem agrees_bind_of_error {e : SourceError} (h : act ⟨pos, guard⟩ = .error (.refused e)) :
    Agrees tokens guard (act >>= k) pos (.error e) := by
  refine .inl ⟨e, rfl, ?_⟩
  show act _ >>= _ = _
  rw [h]
  rfl

/-- What goes on with a value goes on from its index. -/
theorem agrees_bind_of_ok {v : α} {pos' : Nat} {x : Except SourceError (β × Cursor)}
    (h : act ⟨pos, guard⟩ = .ok (v, ⟨pos', guard⟩)) (hk : Agrees tokens guard (k v) pos' x) :
    Agrees tokens guard (act >>= k) pos x := by
  have hrun : (act >>= k) ⟨pos, guard⟩ = k v ⟨pos', guard⟩ := by
    show act _ >>= _ = _
    rw [h]
    rfl
  unfold Agrees at hk ⊢
  rwa [hrun]

/-- One after the other.  What has been read before counts as well. -/
theorem Agrees.bind {x : Except SourceError (Parsed (cursor tokens first) α)}
    {f : Parsed (cursor tokens first) α → Except SourceError (Parsed c β)}
    (h : Agrees tokens guard act pos (outcome x))
    (hk : ∀ v pos' shorter, first < pos' → pos' ≤ tokens.length →
      Agrees tokens guard (k v) pos' (outcome (f ⟨v, cursor tokens pos', shorter⟩))) :
    Agrees tokens guard (act >>= k) pos (outcome (x >>= f)) := by
  rcases h with ⟨e, hx, hact⟩ | ⟨v, pos', hx, hact, hle⟩
  · obtain rfl := outcome_eq_error.mp hx
    exact agrees_bind_of_error hact
  · obtain ⟨shorter, rfl⟩ := outcome_eq_ok.mp hx
    have hlt : first < pos' := by
      simp only [length_rest_cursor] at shorter
      omega
    exact agrees_bind_of_ok hact (hk v pos' shorter hlt hle)

/-- One after the other, where the grammar has more to say about the value. -/
theorem Agrees.bind_map {γ : Type} {x : Except SourceError (γ × Cursor)} {g : γ → α}
    {f : γ × Cursor → Except SourceError (β × Cursor)}
    (h : Agrees tokens guard act pos (x >>= fun r => .ok (g r.1, r.2)))
    (hk : ∀ w pos', x = .ok (w, cursor tokens pos') → pos' ≤ tokens.length →
      Agrees tokens guard (k (g w)) pos' (f (w, cursor tokens pos'))) :
    Agrees tokens guard (act >>= k) pos (x >>= f) := by
  rcases h with ⟨e, hx, hact⟩ | ⟨v, pos', hx, hact, hle⟩
  · cases x with
    | error e' =>
      obtain rfl := Except.error.inj hx
      exact agrees_bind_of_error hact
    | ok r => cases hx
  · obtain ⟨⟨w, m⟩, rfl, hw⟩ := bind_eq_ok.mp hx
    obtain ⟨rfl, rfl⟩ := Prod.mk.inj (Except.ok.inj hw)
    exact agrees_bind_of_ok hact (hk w pos' rfl hle)

/-- What goes on with the outcome of a parser agrees if it does with every value. -/
theorem Agrees.bind_outcome {x : Except SourceError (α × Cursor)}
    {f : α × Cursor → Except SourceError (β × Cursor)} (h : Agrees tokens guard act pos x)
    (hk : ∀ v pos', x = .ok (v, cursor tokens pos') → pos' ≤ tokens.length →
      Agrees tokens guard (k v) pos' (f (v, cursor tokens pos'))) :
    Agrees tokens guard (act >>= k) pos (x >>= f) := by
  refine Agrees.bind_map (g := id) ?_ hk
  show Agrees _ _ _ _ (x >>= pure)
  rwa [bind_pure]

/-- To look at the index takes nothing. -/
theorem agrees_here_bind {k : Nat → Action β} {x : Except SourceError (β × Cursor)} :
    Agrees tokens guard (here >>= k) pos x ↔ Agrees tokens guard (k pos) pos x :=
  Iff.rfl

/-- To advance takes one token. -/
theorem agrees_advance_bind {k : Unit → Action β} {x : Except SourceError (β × Cursor)} :
    Agrees tokens guard (advance >>= k) pos x ↔ Agrees tokens guard (k ()) (pos + 1) x :=
  Iff.rfl

/-- To look at the next token takes nothing, either. -/
theorem agrees_peek_bind {k : Option Token → Action β} {x : Except SourceError (β × Cursor)} :
    Agrees tokens guard (peek? tokens >>= k) pos x
      ↔ Agrees tokens guard (k (cursor tokens pos).peek?) pos x := by
  rw [peek?_cursor]
  exact Iff.rfl

/-- Nor does making a node. -/
theorem agrees_finish_bind {k : Ast → Action β} {kind : Kind} {children : List Ast}
    {x : Except SourceError (β × Cursor)} :
    Agrees tokens guard (finish tokens kind first children >>= k) pos x
      ↔ Agrees tokens guard
          (k ((cursor tokens first).nodeTo (cursor tokens pos) kind children)) pos x :=
  Iff.rfl

/-- A token is eaten exactly if it comes next. -/
theorem agrees_eat_bind {t : Token} {k : Bool → Action β} {x : Except SourceError (β × Cursor)}
    (hyes : pos < tokens.length → (cursor tokens pos).Takes t (cursor tokens (pos + 1)) →
      Agrees tokens guard (k true) (pos + 1) x)
    (hno : (cursor tokens pos).peek? ≠ some t → Agrees tokens guard (k false) pos x) :
    Agrees tokens guard (eat tokens t >>= k) pos x := by
  unfold eat
  rw [bind_assoc, agrees_peek_bind]
  by_cases h : (cursor tokens pos).peek? = some t
  · obtain ⟨hlt, htakes⟩ := takes_cursor h
    rw [if_pos h]
    exact hyes hlt htakes
  · rw [if_neg h]
    exact hno h

/-- A token that is known to come next is passed over. -/
theorem agrees_advance_of_peek? {t : Token} {k : Unit → Action β}
    {f : Parsed (cursor tokens pos) Token → Except SourceError (Parsed c β)}
    (hpeek : (cursor tokens pos).peek? = some t)
    (hk : ∀ shorter, pos < tokens.length →
      Agrees tokens guard (k ()) (pos + 1) (outcome (f ⟨t, cursor tokens (pos + 1), shorter⟩))) :
    Agrees tokens guard (advance >>= k) pos (outcome (token t (cursor tokens pos) >>= f)) := by
  obtain ⟨hlt, htakes⟩ := takes_cursor hpeek
  rw [token, Cursor.take?_of_takes htakes]
  exact hk htakes.shorter hlt

/-- A token that is expected is taken or refused by both. -/
theorem agrees_expect_bind {t : Token} {k : Unit → Action β}
    {f : Parsed (cursor tokens pos) Token → Except SourceError (Parsed c β)}
    (hk : ∀ shorter, pos < tokens.length →
      Agrees tokens guard (k ()) (pos + 1) (outcome (f ⟨t, cursor tokens (pos + 1), shorter⟩))) :
    Agrees tokens guard (expect tokens t >>= k) pos
      (outcome (token t (cursor tokens pos) >>= f)) := by
  unfold expect
  rw [bind_assoc]
  apply agrees_eat_bind
  · intro hlt htakes
    rw [token, Cursor.take?_of_takes htakes]
    exact hk htakes.shorter hlt
  · intro hne
    rw [token, Cursor.take?_eq_none_iff.mpr hne]
    exact agrees_refuse (.token t)

/-- A leaf is taken by both if the next token is one of its table. -/
theorem agrees_leaf (kinds : List (Token × Kind)) (expected : Expectation) :
    Agrees tokens guard (leaf tokens kinds expected) pos
      (outcome (Parser.leaf kinds expected (cursor tokens pos))) := by
  unfold leaf
  rw [agrees_peek_bind]
  cases hlookup : (cursor tokens pos).peek?.bind (kinds.lookup ·) with
  | none =>
    have hnone : (cursor tokens pos).takeIf? (fun t => (kinds.lookup t).isSome) = none := by
      rw [Cursor.takeIf?_eq_none_iff]
      intro t ht
      rw [ht] at hlookup
      simpa using hlookup
    rw [Parser.leaf, hnone]
    exact agrees_refuse expected
  | some kind =>
    obtain ⟨t, ht, hkind⟩ := Option.bind_eq_some_iff.mp hlookup
    obtain ⟨hlt, htakes⟩ := takes_cursor ht
    obtain ⟨_, hleaf⟩ := yields_leaf.mpr ⟨t, kind, htakes, hkind, rfl⟩
    rw [hleaf]
    exact agrees_finish kind [] hlt

/-- An operator that comes next is there. -/
theorem agrees_operator_bind {t : Token} {k : Ast → Action β}
    {x : Except SourceError (β × Cursor)} (hpeek : (cursor tokens pos).peek? = some t)
    (hk : pos < tokens.length →
      Agrees tokens guard
        (k ((cursor tokens pos).nodeTo (cursor tokens (pos + 1)) (.operator (some t)) []))
        (pos + 1) x) :
    Agrees tokens guard (operator tokens t >>= k) pos x := by
  obtain ⟨hlt, -⟩ := takes_cursor hpeek
  refine agrees_bind_of_ok ?_ (hk hlt)
  unfold operator
  simp only
  rw [List.getElem?_eq_getElem hlt]
  rfl

end

/-! ### Levels -/

/-- What nests one level above. -/
def level (inner : Nested) : Nested :=
  ⟨Script.statementOf inner, Script.assignment inner, unaryExpression inner⟩

/-- Nothing may nest, and this is why. -/
def refusing (fault : Fault) : Nested :=
  ⟨fun _ => .error (.tooDeep fault), fun _ => .error (.tooDeep fault),
    fun _ => .error (.tooDeep fault)⟩

/-- The levels that a guard leaves. -/
def levelsAt (guard : NestingGuard) : Nested :=
  match (guard.enter maxNesting).2 with
  | some fault => refusing fault
  | none => Script.nested (maxNesting - guard.depth)

/-- A guard that grants a level leaves one level less. -/
theorem levelsAt_of_granted (h : guard.depth < maxNesting) :
    levelsAt guard = level (levelsAt ⟨guard.depth + 1⟩) := by
  have hlimit : maxNesting < NestingGuard.maxDepth := by decide
  have hinner : levelsAt ⟨guard.depth + 1⟩ = Script.nested (maxNesting - guard.depth - 1) := by
    unfold levelsAt
    by_cases hlt : guard.depth + 1 < maxNesting
    · rw [NestingGuard.enter_of_lt hlimit hlt]
      rfl
    · have hlast : maxNesting - guard.depth - 1 = 0 := by omega
      rw [NestingGuard.enter_of_eq hlimit (by show guard.depth + 1 = _; omega), hlast]
      rfl
  obtain ⟨n, hn⟩ : ∃ n, maxNesting - guard.depth = n + 1 :=
    ⟨_, (Nat.sub_add_cancel (by omega)).symm⟩
  rw [hinner, levelsAt, NestingGuard.enter_of_lt hlimit h]
  simp only [hn]
  rfl

/-- A guard grants a level and leaves one level less, or it refuses. -/
theorem enter_or (guard : NestingGuard) :
    (guard.enter maxNesting = (⟨guard.depth + 1⟩, none)
        ∧ levelsAt guard = level (levelsAt ⟨guard.depth + 1⟩))
      ∨ ∃ refused fault, guard.enter maxNesting = (refused, some fault)
        ∧ levelsAt guard = refusing fault := by
  by_cases h : guard.depth < maxNesting
  · exact .inl ⟨NestingGuard.enter_of_lt (by decide) h, levelsAt_of_granted h⟩
  · right
    have hfault : ∃ fault, (guard.enter maxNesting).2 = some fault := by
      unfold NestingGuard.enter
      have hdeep : maxNesting < min (guard.depth + 1) NestingGuard.maxDepth := by
        have hlimit : maxNesting < NestingGuard.maxDepth := by decide
        omega
      exact ⟨_, if_pos hdeep⟩
    obtain ⟨fault, hfault⟩ := hfault
    refine ⟨(guard.enter maxNesting).1, fault, ?_, ?_⟩
    · rw [← hfault]
    · rw [levelsAt, hfault]

/-- What is done one level deeper agrees with the parser of a level if it agrees with the part of the
    grammar that the level is made of. -/
theorem agrees_nested {act : Action Ast} {p : Nested → Parser Ast} (f : Nested → Parser Ast)
    (hp : ∀ inner, f (level inner) = p inner)
    (hrefusing : ∀ fault c, f (refusing fault) c = .error (.tooDeep fault))
    (h : ∀ guard, Agrees tokens guard act pos
      (outcome (p (levelsAt guard) (cursor tokens pos)))) :
    Agrees tokens guard (nested act) pos (outcome (f (levelsAt guard) (cursor tokens pos))) := by
  rcases enter_or guard with ⟨henter, hlevels⟩ | ⟨refused, fault, henter, hlevels⟩
  · rw [hlevels, hp]
    rcases h ⟨guard.depth + 1⟩ with ⟨e, hx, hact⟩ | ⟨v, pos', hx, hact, hle⟩
    · refine .inl ⟨e, hx, ?_⟩
      simp only [nested, henter, hact]
      rfl
    · refine .inr ⟨v, pos', hx, ?_, hle⟩
      simp only [nested, henter, hact]
      rfl
  · rw [hlevels, hrefusing]
    refine .inl ⟨_, rfl, ?_⟩
    simp only [nested, henter]

/-- An operand stands where it was read. -/
theorem covers_levelsAt {c c' : Cursor} {e : Ast}
    (h : (levelsAt guard).unary.Yields c e c') : Covers e c c' := by
  unfold levelsAt at h
  split at h
  · obtain ⟨_, h⟩ := h
    cases h
  · exact covers_unary h

/-! ### Calling again -/

/-- What is called again agrees with the grammar wherever fewer than `r` tokens are left, and there
    are rounds enough for these. -/
structure Ready (tokens : List Lexeme) (again : Again) (r : Nat) : Prop where
  rounds : r ≤ again.rounds
  statement : ∀ {guard pos}, pos ≤ tokens.length → tokens.length < pos + r →
    Agrees tokens guard again.statement pos
      (outcome ((levelsAt guard).statement (cursor tokens pos)))
  expression : ∀ {guard pos}, pos ≤ tokens.length → tokens.length < pos + r →
    Agrees tokens guard again.expression pos
      (outcome ((levelsAt guard).expression (cursor tokens pos)))
  unary : ∀ {guard pos}, pos ≤ tokens.length → tokens.length < pos + r →
    Agrees tokens guard again.unary pos (outcome ((levelsAt guard).unary (cursor tokens pos)))
  binary : ∀ {guard pos} least, pos ≤ tokens.length → tokens.length < pos + r →
    Agrees tokens guard (again.binary least) pos
      (chainWithin (levelsAt guard) least (cursor tokens pos) >>= fun r => .ok (r.1.toAst, r.2))

/-! ### Lists -/

/-- Items up to a token that closes them.  Each takes a token, so the rounds are enough. -/
theorem agrees_itemsTo {item : Action α} {p : Parser α} {close : Token} {rounds : Nat}
    (hitem : ∀ {pos'}, pos ≤ pos' → pos' ≤ tokens.length →
      Agrees tokens guard item pos' (outcome (p (cursor tokens pos'))))
    (hle : pos ≤ tokens.length) (hrounds : tokens.length < pos + rounds) :
    Agrees tokens guard (itemsTo tokens close item rounds) pos
      (outcome (commaItemsUntil close p (cursor tokens pos))) := by
  induction rounds generalizing pos with
  | zero => omega
  | succ rounds ih =>
    rw [itemsTo, commaItemsUntil]
    apply agrees_eat_bind
    · intro hlt htakes
      rw [Cursor.take?_of_takes htakes]
      exact agrees_pure [] hlt
    · intro hne
      rw [Cursor.take?_eq_none_iff.mpr hne]
      refine (hitem (Nat.le_refl pos) hle).bind fun v pos' _ hlt hle' => ?_
      apply agrees_eat_bind
      · intro hlt' htakes
        simp only [Cursor.take?_of_takes htakes]
        refine (ih ?_ hlt' (by omega)).bind fun vs pos'' _ _ hle'' => ?_
        · intro m hm
          exact hitem (by omega)
        · exact agrees_pure (v :: vs) hle''
      · intro hne'
        simp only [Cursor.take?_eq_none_iff.mpr hne']
        apply agrees_expect_bind
        intro _ hlt'
        exact agrees_pure [v] hlt'

/-- What was read before makes no difference to the outcome. -/
theorem outcome_andThen {c : Cursor} {f : Parsed c α} {x : Except SourceError (Parsed f.next β)} :
    outcome (x >>= fun later => pure (f.andThen later)) = outcome x := by
  cases x <;> rfl

/-- A list is its items behind the token that opens it. -/
theorem agrees_list {item : Action α} {p : Parser α} {opening closing : Token} {rounds : Nat}
    (hitem : ∀ {pos'}, pos < pos' → pos' ≤ tokens.length →
      Agrees tokens guard item pos' (outcome (p (cursor tokens pos'))))
    (hrounds : tokens.length ≤ pos + rounds) :
    Agrees tokens guard (list tokens rounds opening closing item) pos
      (outcome (delimited opening closing p (cursor tokens pos))) := by
  unfold list delimited keepRight Parser.bind
  apply agrees_expect_bind
  intro _ hlt
  rw [outcome_andThen]
  apply agrees_itemsTo _ hlt (by omega)
  intro pos' hpos'
  exact hitem (by omega)

end Transcode.Script.Indexed
