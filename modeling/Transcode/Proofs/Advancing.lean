import Transcode.Proofs.Parts

namespace Transcode.Script.Indexed

open Transcode.Script.Parser

/-!
# The machine comes to an end

Whatever the tokens are and wherever it begins, a parser of the machine comes to an end
(`Advances`): it refuses the source, or it takes at least one token and none past the last one, and
leaves the guard as it was.  It needs no more rounds than there are tokens left, and with more
rounds it does the same.

All of this is read off the agreement with the grammar, where a parser can only return with fewer
tokens left.  The exceptions are lists of any items, which are no part of the grammar
(`agrees_parserOf`), and a construction that does not begin with its keyword
(`agrees_construction`).
-/

variable {α : Type} {tokens : List Lexeme} {guard : NestingGuard} {pos : Nat}

/-- The action, which is given so many rounds, comes to an end with a round for each token that is
    left.  If the source is not refused, the index is greater than before, not past the end of the
    tokens, and the levels that were open are open. -/
def Advances (tokens : List Lexeme) (act : Nat → Action α) (s : State) : Prop :=
  (∃ e, ∀ rounds, tokens.length ≤ s.pos + rounds → act rounds s = .error (.refused e))
    ∨ ∃ v s', (∀ rounds, tokens.length ≤ s.pos + rounds → act rounds s = .ok (v, s'))
      ∧ s.pos < s'.pos ∧ s'.pos ≤ tokens.length ∧ s'.guard = s.guard

/-- An outcome with which fewer tokens are left. -/
def Shortens (c : Cursor) (x : Except SourceError (α × Cursor)) : Prop :=
  ∀ v c', x = .ok (v, c') → c'.rest.length < c.rest.length

theorem shortens_outcome {c : Cursor} (x : Except SourceError (Parsed c α)) :
    Shortens c (outcome x) := by
  intro v c' h
  obtain ⟨shorter, -⟩ := outcome_eq_ok.mp h
  exact shorter

/-- To advance is to agree with an outcome that leaves fewer tokens. -/
theorem advances_iff {act : Nat → Action α} {s : State} :
    Advances tokens act s ↔ ∃ x, Shortens (cursor tokens s.pos) x
      ∧ ∀ rounds, tokens.length ≤ s.pos + rounds →
        Agrees tokens s.guard (act rounds) s.pos x := by
  constructor
  · rintro (⟨e, h⟩ | ⟨v, ⟨pos', _⟩, h, hlt, hle, rfl⟩)
    · refine ⟨.error e, ?_, ?_⟩
      · intro v c' hx
        cases hx
      · intro rounds hrounds
        exact .inl ⟨e, rfl, h rounds hrounds⟩
    · refine ⟨.ok (v, cursor tokens pos'), ?_, ?_⟩
      · intro w c' hx
        obtain ⟨rfl, rfl⟩ := Prod.mk.inj (Except.ok.inj hx)
        simp only [length_rest_cursor] at hlt hle ⊢
        omega
      · intro rounds hrounds
        exact .inr ⟨v, pos', rfl, h rounds hrounds, hle⟩
  · rintro ⟨x, hx, h⟩
    cases x with
    | error e =>
      refine .inl ⟨e, ?_⟩
      intro rounds hrounds
      rcases h rounds hrounds with ⟨e', he, hact⟩ | ⟨v, pos', hv, -⟩
      · cases he
        exact hact
      · cases hv
    | ok r =>
      obtain ⟨v, c'⟩ := r
      have hshort := hx v c' rfl
      -- `Agrees` names an end for each number of rounds; the outcome says it is the same for all.
      have hrun : ∀ rounds, tokens.length ≤ s.pos + rounds →
          act rounds s = .ok (v, ⟨tokens.length - c'.rest.length, s.guard⟩) := by
        intro rounds hrounds
        rcases h rounds hrounds with ⟨e, he, -⟩ | ⟨w, pos', hw, hact, hle⟩
        · cases he
        · obtain ⟨rfl, rfl⟩ := Prod.mk.inj (Except.ok.inj hw)
          have hpos : tokens.length - (cursor tokens pos').rest.length = pos' := by
            rw [length_rest_cursor]
            omega
          rw [hpos]
          exact hact
      simp only [length_rest_cursor] at hshort
      exact .inr ⟨v, _, hrun, by show _ < _ - _; omega, Nat.sub_le _ _, rfl⟩

/-! ### Lists of any items -/

/-- An action as a parser, which refuses where the action takes no token. -/
def parserOf (tokens : List Lexeme) (guard : NestingGuard) (act : Action α) : Parser α := fun c =>
  match act ⟨tokens.length - c.rest.length, guard⟩ with
  | .error (.refused e) => .error e
  | .error _ => .error (c.unexpected .expression)
  | .ok (v, s) =>
    if shorter : (cursor tokens s.pos).rest.length < c.rest.length then
      .ok ⟨v, cursor tokens s.pos, shorter⟩
    else .error (c.unexpected .expression)

theorem agrees_parserOf {act : Action α} (hle : pos ≤ tokens.length)
    (h : Advances tokens (fun _ => act) ⟨pos, guard⟩) :
    Agrees tokens guard act pos (outcome (parserOf tokens guard act (cursor tokens pos))) := by
  have hpos : tokens.length - (cursor tokens pos).rest.length = pos := by
    rw [length_rest_cursor]
    omega
  have henough : tokens.length ≤ pos + tokens.length := Nat.le_add_left _ _
  unfold parserOf
  rw [hpos]
  rcases h with ⟨e, hact⟩ | ⟨v, ⟨pos', guard'⟩, hact, hlt, hle', hguard⟩
  · have hrun : act ⟨pos, guard⟩ = .error (.refused e) := hact tokens.length henough
    rw [hrun]
    exact .inl ⟨e, rfl, hrun⟩
  · obtain rfl : guard' = guard := hguard
    have hrun : act ⟨pos, guard'⟩ = .ok (v, ⟨pos', guard'⟩) := hact tokens.length henough
    have hshort : (cursor tokens pos').rest.length < (cursor tokens pos).rest.length := by
      simp only [length_rest_cursor] at hlt hle' ⊢
      omega
    rw [hrun]
    simp only
    rw [dif_pos hshort]
    exact .inr ⟨v, pos', rfl, hrun, hle'⟩

/-! ### Constructions -/

/-- A construction takes whatever comes first for its keyword. -/
theorem agrees_construction {inner : Again} {r : Nat} (hinner : Ready tokens inner r)
    (hr : tokens.length ≤ pos + r) :
    Agrees tokens guard (newExpression tokens inner) pos
      ((constructedAfter (levelsAt guard)).run (cursor tokens (pos + 1)) >>= fun r =>
        .ok ((cursor tokens pos).nodeTo r.2 .newExpression r.1, r.2)) := by
  unfold newExpression
  rw [agrees_here_bind, agrees_advance_bind]
  refine (agrees_constructed hinner (by omega)).bind_outcome fun children pos' _ hle => ?_
  exact agrees_finish .newExpression children hle

theorem shortens_construction {inner : Nested} :
    Shortens (cursor tokens pos)
      ((constructedAfter inner).run (cursor tokens (pos + 1)) >>= fun r =>
        .ok ((cursor tokens pos).nodeTo r.2 .newExpression r.1, r.2)) := by
  intro v c' h
  obtain ⟨⟨children, m⟩, hchildren, h⟩ := bind_eq_ok.mp h
  obtain ⟨rfl, rfl⟩ := Prod.mk.inj (Except.ok.inj h)
  have hshort := (run_eq_ok.mp hchildren).shorter
  simp only [length_rest_cursor] at hshort ⊢
  omega

/-! ### The parsers -/

theorem shortens_chain {least : Nat} {c : Cursor} :
    Shortens c (chainWithin (levelsAt guard) least c >>= fun r => .ok (r.1.toAst, r.2)) := by
  intro v c' h
  obtain ⟨⟨chain, m⟩, hchain, h⟩ := bind_eq_ok.mp h
  obtain ⟨rfl, rfl⟩ := Prod.mk.inj (Except.ok.inj h)
  exact (chainWithin_eq_ok covers_levelsAt hchain).2.2

/-- **The machine ends on every input.**  Wherever a parser begins, not past the end of the tokens,
    it refuses the source or gets on, within the tokens and with the levels open that were open; so
    do lists of expressions, of properties and of anything that gets on itself.  With a round for
    each token a whole source comes out as the grammar has it, so no loop goes on for ever and no
    index is out of range, whatever the tokens are. -/
theorem parsers_advance (tokens : List Lexeme) :
    (∀ s : State, s.pos ≤ tokens.length →
      Advances tokens (fun n => statement tokens (again tokens n)) s
        ∧ Advances tokens (fun n => block tokens (again tokens n)) s
        ∧ Advances tokens (fun n => expression tokens (again tokens n)) s
        ∧ (∀ least, Advances tokens (fun n => binary tokens (again tokens n) least) s)
        ∧ Advances tokens (fun n => unary tokens (again tokens n)) s
        ∧ Advances tokens (fun n => postfixExpression tokens (again tokens n)) s
        ∧ Advances tokens (fun n => primary tokens (again tokens n)) s
        ∧ Advances tokens (fun n => newExpression tokens (again tokens n)) s
        ∧ (∀ opening closing,
          Advances tokens
              (fun n => list tokens n opening closing (again tokens n).expression) s
            ∧ Advances tokens
              (fun n => list tokens n opening closing (property tokens (again tokens n))) s
            ∧ ∀ (α : Type) (item : Action α),
              (∀ s', s.pos < s'.pos → s'.pos ≤ tokens.length → s'.guard = s.guard →
                Advances tokens (fun _ => item) s') →
              Advances tokens (fun n => list tokens n opening closing item) s))
      ∧ ∀ n size, tokens.length ≤ n →
        sourceFile tokens n size = (Script.sourceFile size tokens).mapError .refused := by
  refine ⟨?_, fun n size hn => sourceFile_eq hn size⟩
  rintro ⟨pos, guard⟩ hpos
  simp only at hpos ⊢
  have hready := ready_again tokens
  -- Each of them agrees with an outcome of the grammar.
  have hparsed {α : Type} {act : Nat → Action α}
      (x : Except SourceError (Parsed (cursor tokens pos) α))
      (h : ∀ rounds, tokens.length ≤ pos + rounds →
        Agrees tokens guard (act rounds) pos (outcome x)) :
      Advances tokens act ⟨pos, guard⟩ :=
    advances_iff.mpr ⟨outcome x, shortens_outcome x, h⟩
  refine ⟨?_, ?_, ?_, ?_, ?_, ?_, ?_, ?_, ?_⟩
  · exact hparsed _ fun n hn => agrees_statement (hready n) hn
  · exact hparsed _ fun n hn => agrees_block (hready n) hn
  · exact hparsed _ fun n hn => agrees_expression (hready n) hn
  · intro least
    exact advances_iff.mpr ⟨_, shortens_chain, fun n hn => agrees_binary (hready n) hn least⟩
  · exact hparsed _ fun n hn => agrees_unary (hready n) hn
  · exact hparsed _ fun n hn => agrees_postfixExpression (hready n) hn
  · exact hparsed _ fun n hn => agrees_primary (hready n) hn
  · exact advances_iff.mpr ⟨_, shortens_construction, fun n hn => agrees_construction (hready n) hn⟩
  · intro opening closing
    refine ⟨?_, ?_, ?_⟩
    · refine hparsed (delimited opening closing (levelsAt guard).expression _) fun n hn => ?_
      apply agrees_list _ hn
      intro pos' hlt hle
      exact (hready n).expression hle (by omega)
    · refine hparsed (delimited opening closing (propertyAssignment (levelsAt guard)) _)
        fun n hn => ?_
      apply agrees_list _ hn
      intro pos' hlt hle
      exact agrees_property (hready n) (by omega)
    · intro α item hitem
      refine hparsed (delimited opening closing (parserOf tokens guard item) _) fun n hn => ?_
      apply agrees_list _ hn
      intro pos' hlt hle
      exact agrees_parserOf hle (hitem ⟨pos', guard⟩ hlt hle rfl)

/-- A call with one argument behind its name, and its arguments as a list of names. -/
theorem parsers_advance_call :
    let tokens : List Lexeme := [⟨.ident, 0, "f"⟩, ⟨.leftParen, 1, "("⟩, ⟨.ident, 2, "a"⟩,
      ⟨.rightParen, 3, ")"⟩]
    let call := fun n => postfixExpression tokens (again tokens n)
    let names := fun n => list tokens n .leftParen .rightParen (identifier tokens)
    (0 ≤ tokens.length ∧ 1 ≤ tokens.length ∧ tokens.length ≤ 4)
      ∧ Advances tokens call ⟨0, ⟨5⟩⟩
      ∧ (call 4 ⟨0, ⟨5⟩⟩).toOption.map (·.2) = some ⟨4, ⟨5⟩⟩
      ∧ Advances tokens names ⟨1, ⟨5⟩⟩
      ∧ (names 3 ⟨1, ⟨5⟩⟩).toOption.map (·.2) = some ⟨4, ⟨5⟩⟩
      ∧ sourceFile tokens 4 4 = (Script.sourceFile 4 tokens).mapError .refused
      ∧ (sourceFile tokens 4 4).isOk = true := by
  intro tokens call names
  have hname : ∀ s', Advances tokens (fun _ => identifier tokens) s' := by
    intro s'
    exact advances_iff.mpr ⟨_, shortens_outcome _, fun _ _ => agrees_leaf _ _⟩
  obtain ⟨hadvance, hsource⟩ := parsers_advance tokens
  obtain ⟨-, -, -, -, -, hcall, -, -, -⟩ := hadvance ⟨0, ⟨5⟩⟩ (by decide)
  obtain ⟨-, -, -, -, -, -, -, -, hlist⟩ := hadvance ⟨1, ⟨5⟩⟩ (by decide)
  obtain ⟨-, -, hnames⟩ := hlist .leftParen .rightParen
  refine ⟨by decide, hcall, ?_, hnames _ _ fun s' _ _ _ => hname s', ?_, ?_, ?_⟩
  · decide +kernel
  · decide +kernel
  · exact hsource 4 4 (by decide)
  · decide +kernel

end Transcode.Script.Indexed
