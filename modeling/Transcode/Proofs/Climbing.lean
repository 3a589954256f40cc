import Transcode.Proofs.Derivation

namespace Transcode.Script

open Transcode.Script.Parser

/-!
# Climbing by precedence

A row of operands and operators is read into a chain, where every operator finds its place at the
right end.  The same tree can be had by recursion: an operand and the operators after it that bind
at least so tight, where what comes after an operator is read in the same way with a higher bound
(`chainAbove`).  The two agree because a chain to which only tighter operators are pushed changes in
its last operand alone (`chainAbove_binary`); and the trees are the same because a tree ends where
its last operand ends (`covers_of_chainAbove`).

What a parser comes to is told here by its value and the place that it reaches (`Parser.run`).
-/

variable {α : Type}

/-! ### Outcomes -/

/-- What is read and the place that is reached, or the error. -/
def outcome {c : Cursor} (x : Except SourceError (Parsed c α)) : Except SourceError (α × Cursor) :=
  x.map fun r => (r.value, r.next)

theorem outcome_eq_ok {c c' : Cursor} {x : Except SourceError (Parsed c α)} {v : α} :
    outcome x = .ok (v, c') ↔ ∃ shorter, x = .ok ⟨v, c', shorter⟩ := by
  constructor
  · intro h
    cases x with
    | error e => cases h
    | ok r =>
      obtain ⟨rfl, rfl⟩ := Prod.mk.inj (Except.ok.inj h)
      exact ⟨r.shorter, rfl⟩
  · rintro ⟨shorter, rfl⟩
    rfl

theorem outcome_eq_error {c : Cursor} {x : Except SourceError (Parsed c α)} {e : SourceError} :
    outcome x = .error e ↔ x = .error e := by
  cases x <;> simp [outcome, Except.map]

/-- What a parser comes to. -/
def Parser.run (p : Parser α) (c : Cursor) : Except SourceError (α × Cursor) :=
  outcome (p c)

theorem run_eq_ok {p : Parser α} {c c' : Cursor} {v : α} :
    p.run c = .ok (v, c') ↔ p.Yields c v c' :=
  outcome_eq_ok

/-! ### Rows of operators -/

/-- The operators from a place on that bind at least so tight, with their operands, at the right end
    of a chain. -/
def chainAbove (inner : Nested) (least : Nat) (ch : Chain) (m : Cursor) :
    Except SourceError (Chain × Cursor) :=
  match operator? (fun t => t.precedence?.any (least ≤ ·)) m with
  | none => .ok (ch, m)
  | some operator => do
    let right ← inner.unary operator.next
    have := Nat.lt_trans right.shorter operator.shorter
    chainAbove inner least
      (ch.push operator.value.2 (operator.value.1.precedence?.getD 0) right.value) right.next
termination_by m.rest.length

/-- An operand and the operators after it that bind at least so tight. -/
def chainWithin (inner : Nested) (least : Nat) (c : Cursor) :
    Except SourceError (Chain × Cursor) :=
  inner.unary.run c >>= fun r => chainAbove inner least (.operand r.1) r.2

/-- No operator comes next that binds so tight. -/
def EndsRow (least : Nat) (m : Cursor) : Prop :=
  ∀ t p, m.peek? = some t → t.precedence? = some p → p < least

section

variable {inner : Nested} {least p : Nat} {ch l : Chain} {c m m₁ m' : Cursor} {t : Token}
  {e op : Ast}

theorem endsRow_or (least : Nat) (m : Cursor) :
    EndsRow least m ∨ ∃ t p m₁, m.Takes t m₁ ∧ t.precedence? = some p ∧ least ≤ p := by
  by_cases h : EndsRow least m
  · exact .inl h
  · right
    unfold EndsRow at h
    push Not at h
    obtain ⟨t, p, ht, hp, hle⟩ := h
    obtain ⟨m₁, htakes⟩ := Cursor.exists_takes ht
    exact ⟨t, p, m₁, htakes, hp, by omega⟩

theorem chainAbove_of_endsRow (h : EndsRow least m) :
    chainAbove inner least ch m = .ok (ch, m) := by
  have hnone : operator? (fun t => t.precedence?.any (least ≤ ·)) m = none := by
    rw [operator?_eq_none_iff]
    intro t ht
    cases hp : t.precedence? with
    | none => rfl
    | some p => simpa using h t p ht hp
  rw [chainAbove, hnone]

theorem chainAbove_of_takes (ht : m.Takes t m₁) (hp : t.precedence? = some p) (hle : least ≤ p) :
    chainAbove inner least ch m = inner.unary.run m₁ >>= fun r =>
      chainAbove inner least (ch.push (m.nodeTo m₁ (.operator (some t)) []) p r.1) r.2 := by
  have hany : t.precedence?.any (least ≤ ·) = true := by
    simp [hp, hle]
  obtain ⟨hshort, hop⟩ :=
    (operator?_eq_some_iff (p := fun t => t.precedence?.any (least ≤ ·))).mpr ⟨ht, hany, rfl⟩
  rw [chainAbove, hop]
  unfold Parser.run outcome
  simp only [hp, Option.getD_some]
  cases inner.unary m₁ <;> rfl

/-- Without a bound, these are all operators. -/
theorem outcome_chainFrom {h : m.rest.length < c.rest.length} :
    outcome (chainFrom inner (⟨ch, m, h⟩ : Parsed c Chain)) = chainAbove inner 1 ch m := by
  induction hlength : m.rest.length using Nat.strongRecOn generalizing ch m with
  | _ length ih =>
    subst hlength
    have hall : (fun t : Token => t.precedence?.isSome)
        = fun t => t.precedence?.any (1 ≤ ·) := by
      funext t
      cases t <;> rfl
    rw [chainFrom, chainAbove, hall]
    cases hop : operator? (fun t => t.precedence?.any (1 ≤ ·)) m with
    | none => rfl
    | some operator =>
      simp only
      cases hright : inner.unary operator.next with
      | error e => rfl
      | ok right => exact ih _ (Nat.lt_trans right.shorter operator.shorter) rfl

/-- An expression of operands and operators. -/
theorem run_binaryExpression (inner : Nested) (c : Cursor) :
    (binaryExpression inner).run c
      = chainWithin inner 1 c >>= fun r => .ok (r.1.toAst, r.2) := by
  unfold chainWithin Parser.run binaryExpression
  cases inner.unary c with
  | error e => rfl
  | ok first =>
    have hloop : outcome (chainFrom inner (first.map .operand))
        = chainAbove inner 1 (.operand first.value) first.next := outcome_chainFrom
    show outcome (chainFrom inner (first.map .operand) >>= fun chain => pure _)
      = chainAbove inner 1 (.operand first.value) first.next >>= _
    rw [← hloop]
    cases chainFrom inner (first.map .operand) <;> rfl

/-- Operators that bind tighter than the last one of a chain are pushed into its last operand. -/
theorem chainAbove_binary (hle : least ≤ p) :
    chainAbove inner least (.binary l op p ch) m = chainAbove inner (p + 1) ch m >>= fun r =>
      chainAbove inner least (.binary l op p r.1) r.2 := by
  induction hlength : m.rest.length using Nat.strongRecOn generalizing ch m with
  | _ length ih =>
    subst hlength
    rcases endsRow_or (p + 1) m with hends | ⟨t, q, m₁, htakes, hq, hlt⟩
    · rw [chainAbove_of_endsRow hends]
      rfl
    · rw [chainAbove_of_takes htakes hq (by omega), chainAbove_of_takes htakes hq hlt]
      cases hright : inner.unary.run m₁ with
      | error e => rfl
      | ok r =>
        have hshort := Nat.lt_trans (run_eq_ok.mp hright).shorter htakes.shorter
        show chainAbove inner least (Chain.push _ _ _ _) _ = _
        rw [Chain.push, if_pos (by omega)]
        exact ih _ hshort rfl

/-- If an operator takes over a whole chain, what comes after it is a row of operators that bind
    tighter. -/
theorem chainAbove_eq_chainWithin (ht : m.Takes t m₁) (hp : t.precedence? = some p)
    (hle : least ≤ p) (hpush : ∀ op e, ch.push op p e = .binary ch op p (.operand e)) :
    chainAbove inner least ch m = chainWithin inner (p + 1) m₁ >>= fun r =>
      chainAbove inner least (.binary ch (m.nodeTo m₁ (.operator (some t)) []) p r.1) r.2 := by
  rw [chainAbove_of_takes ht hp hle, chainWithin, bind_assoc]
  congr 1
  funext r
  rw [hpush, chainAbove_binary hle]

/-- What holds where the row ends, and before an operator and its operand if it holds after them,
    holds from where the row was begun. -/
theorem chainAbove_induction {motive : Chain → Cursor → Prop}
    (h : chainAbove inner least ch m = .ok (l, m')) (hend : EndsRow least m' → motive l m')
    (hstep : ∀ ch m t p m₁ e m₂, m.Takes t m₁ → inner.unary.Yields m₁ e m₂ →
      motive (ch.push (m.nodeTo m₁ (.operator (some t)) []) p e) m₂ → motive ch m) :
    motive ch m := by
  induction hlength : m.rest.length using Nat.strongRecOn generalizing ch m with
  | _ length ih =>
    subst hlength
    rcases endsRow_or least m with hends | ⟨t, p, m₁, htakes, hp, hle⟩
    · rw [chainAbove_of_endsRow hends] at h
      cases h
      exact hend hends
    · rw [chainAbove_of_takes htakes hp hle] at h
      obtain ⟨⟨e, m₂⟩, hright, h⟩ := bind_eq_ok.mp h
      have hyields := run_eq_ok.mp hright
      have hshort := Nat.lt_trans hyields.shorter htakes.shorter
      exact hstep ch m t p m₁ e m₂ htakes hyields (ih _ hshort h rfl)

/-- A row ends where no operator comes next that binds so tight. -/
theorem endsRow_of_chainAbove (h : chainAbove inner least ch m = .ok (l, m')) :
    EndsRow least m' ∧ m'.rest.length ≤ m.rest.length := by
  refine chainAbove_induction (motive := fun _ m => EndsRow least m'
    ∧ m'.rest.length ≤ m.rest.length) h (fun hends => ⟨hends, Nat.le_refl _⟩) ?_
  rintro ch m t p m₁ e m₂ htakes hyields ⟨hends, hle⟩
  have hshort := Nat.lt_trans hyields.shorter htakes.shorter
  exact ⟨hends, Nat.le_of_lt (Nat.lt_of_le_of_lt hle hshort)⟩

/-! ### Where trees stand -/

/-- The tree begins with the next token of the one place and ends before the other. -/
structure Covers (e : Ast) (c c' : Cursor) : Prop where
  fullStart : e.fullStart = c.before
  start : e.start = (c.rest.head?.map (·.start)).getD c.before
  stop : e.stop = c'.before

theorem covers_nodeTo (c c' : Cursor) (kind : Kind) (children : List Ast) :
    Covers (c.nodeTo c' kind children) c c' :=
  ⟨rfl, rfl, rfl⟩

/-- A chain begins where it began and ends with the operand that is pushed last. -/
theorem place_push (ch : Chain) (op : Ast) (p : Nat) (e : Ast) :
    (ch.push op p e).toAst.fullStart = ch.toAst.fullStart
      ∧ (ch.push op p e).toAst.start = ch.toAst.start
      ∧ (ch.push op p e).toAst.stop = e.stop := by
  induction ch with
  | operand n => exact ⟨rfl, rfl, rfl⟩
  | binary l op' q r _ ihr =>
    rw [Chain.push]
    split
    · exact ⟨rfl, rfl, ihr.2.2⟩
    · exact ⟨rfl, rfl, rfl⟩

/-- The tree of a chain stands where its operands do. -/
theorem covers_of_chainAbove (hunary : ∀ {m e m'}, inner.unary.Yields m e m' → Covers e m m')
    (hch : Covers ch.toAst c m) (h : chainAbove inner least ch m = .ok (l, m')) :
    Covers l.toAst c m' := by
  -- The chain grows to the right: it ends where the operand that was pushed last does.
  refine chainAbove_induction (motive := fun ch m => Covers ch.toAst c m → Covers l.toAst c m') h
    (fun _ hl => hl) ?_ hch
  intro ch m t p m₁ e m₂ _ hyields ih hch
  obtain ⟨hfullStart, hstart, hstop⟩ := place_push ch (m.nodeTo m₁ (.operator (some t)) []) p e
  exact ih ⟨hfullStart.trans hch.fullStart, hstart.trans hch.start,
    hstop.trans (hunary hyields).stop⟩

/-- What `chainWithin` reads: a row of operators, and its tree stands where it was read. -/
theorem chainWithin_eq_ok (hunary : ∀ {m e m'}, inner.unary.Yields m e m' → Covers e m m')
    (h : chainWithin inner least c = .ok (l, m')) :
    Covers l.toAst c m' ∧ EndsRow least m' ∧ m'.rest.length < c.rest.length := by
  obtain ⟨⟨e, m⟩, he, h⟩ := bind_eq_ok.mp h
  have hyields := run_eq_ok.mp he
  have hshort := hyields.shorter
  obtain ⟨hends, hle⟩ := endsRow_of_chainAbove h
  simp only at hle
  have hfirst : Covers (Chain.operand e).toAst c m := hunary hyields
  exact ⟨covers_of_chainAbove hunary hfirst h, hends, by omega⟩

/-- The tree of an operation stands where its operands do. -/
theorem toAst_binary {r : Chain} (hl : Covers l.toAst c m) (hr : Covers r.toAst m₁ m') :
    (Chain.binary l op p r).toAst = c.nodeTo m' .binaryExpression [l.toAst, op, r.toAst] := by
  rw [Chain.toAst, Cursor.nodeTo]
  simp only [hl.fullStart, hl.start, hr.stop]

end

/-! ### Operands -/

section

variable {n : Nat} {c c' : Cursor} {vs : List Ast} {e : Ast}

/-- An expression without operators stands where it was read, and so it does with the names and
    arguments after it. -/
theorem covers_of_derives {σ : Symbol} (h : Derives n σ c vs c')
    (hσ : σ = .primary ∨ σ = .operand ∨ σ = .unary) : ∀ e ∈ vs, Covers e c c' := by
  induction h with
  | operand _ ih => exact ih (.inl rfl)
  | unsigned _ _ _ _ ih => exact ih (.inr (.inl rfl))
  | atom | parenthesized | object | array | newPlain | newCall | member | call | sign =>
    intro e he
    rw [List.mem_singleton.mp he]
    exact covers_nodeTo _ _ _ _
  | _ => simp at hσ

/-- An operand stands where it was read. -/
theorem covers_unary (h : (nested n).unary.Yields c e c') : Covers e c c' :=
  covers_of_derives ((sound n).unary h) (.inr (.inr rfl)) e (List.mem_singleton_self e)

end

end Transcode.Script
