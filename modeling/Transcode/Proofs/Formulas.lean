import Mathlib.Data.List.Basic

namespace Transcode.Target

/-!
# Formulas in Python

The operators of Python, as far as scripts use them: how tight they bind, and how a text made of
them, of names, numbers and parentheses is read.  `ReadAs` is the grammar, with a rule for each way
to make a formula.  `readSigns` is a reader with a stack, and it reads what the grammar says
(`readSigns_eq_some`), so that there is only one way to read a text.

From loose to tight: `or`, `and`, `not`, comparisons, `+` and `-`, `*` and `/` and `%`, the minus
sign.  Operators of one level group to the left, except for comparisons, which make a chain:
`a < b < c` is one comparison of three operands.
-/

/-! ### Formulas -/

/-- A binary operator. -/
inductive Operator
  | or
  | and
  | equal
  | notEqual
  | less
  | greater
  | lessEqual
  | greaterEqual
  | plus
  | minus
  | times
  | divide
  | modulo
  deriving DecidableEq, Repr

/-- How tight an operator binds.  `not` is on level 3, the minus sign on level 7, and what needs no
    parentheses anywhere on level 8. -/
def Operator.level : Operator → Nat
  | or => 1
  | and => 2
  | equal | notEqual | less | greater | lessEqual | greaterEqual => 4
  | plus | minus => 5
  | times | divide | modulo => 6

/-- A token of a formula. -/
inductive Sign
  /-- A name or a number. -/
  | word (text : String)
  | opening
  | closing
  | not
  | operator (o : Operator)
  deriving DecidableEq, Repr

/-- A formula as it is read. -/
inductive Formula
  | word (text : String)
  | group (f : Formula)
  | not (f : Formula)
  | negative (f : Formula)
  | binary (o : Operator) (l r : Formula)
  /-- A comparison `l` that goes on: its last operand is compared with `r` as well. -/
  | chained (o : Operator) (l r : Formula)
  deriving DecidableEq, Repr

namespace Formula

/-- How tight the outermost operator of a formula binds. -/
def level : Formula → Nat
  | word _ | group _ => 8
  | not _ => 3
  | negative _ => 7
  | binary o _ _ => o.level
  | chained _ _ _ => 4

/-- The tokens of a formula. -/
def signs : Formula → List Sign
  | word text => [.word text]
  | group f => .opening :: f.signs ++ [.closing]
  | not f => .not :: f.signs
  | negative f => .operator .minus :: f.signs
  | binary o l r | chained o l r => l.signs ++ .operator o :: r.signs

end Formula

/-- The grammar: where only what binds as tight as a level may stand, some tokens are read as a
    formula. -/
inductive ReadAs : Nat → List Sign → Formula → Prop
  | word {k text} : k ≤ 8 → ReadAs k [.word text] (.word text)
  | group {k ts f} : k ≤ 8 → ReadAs 1 ts f → ReadAs k (.opening :: ts ++ [.closing]) (.group f)
  | not {k ts f} : k ≤ 3 → ReadAs 3 ts f → ReadAs k (.not :: ts) (.not f)
  | negative {k ts f} : k ≤ 7 → ReadAs 7 ts f → ReadAs k (.operator .minus :: ts) (.negative f)
  | binary {k o ts us l r} : k ≤ o.level → o.level ≠ 4 → ReadAs o.level ts l →
      ReadAs (o.level + 1) us r → ReadAs k (ts ++ .operator o :: us) (.binary o l r)
  | comparison {k o ts us l r} : k ≤ 4 → o.level = 4 → ReadAs 5 ts l → ReadAs 5 us r →
      ReadAs k (ts ++ .operator o :: us) (.binary o l r)
  | chained {k o ts us l r} : k ≤ 4 → o.level = 4 → ReadAs 4 ts l → l.level = 4 →
      ReadAs 5 us r → ReadAs k (ts ++ .operator o :: us) (.chained o l r)

variable {j k : Nat} {ts us : List Sign} {f g l : Formula} {o : Operator}

theorem ReadAs.level (h : ReadAs k ts f) : k ≤ f.level := by
  cases h with
  | comparison hk ho => exact Nat.le_trans hk (Nat.le_of_eq ho.symm)
  | _ => assumption

/-- What matters of the level is that the formula binds as tight. -/
theorem ReadAs.at (h : ReadAs k ts f) (hj : j ≤ f.level) : ReadAs j ts f := by
  cases h with
  | word => exact .word hj
  | group _ hf => exact .group hj hf
  | not _ hf => exact .not hj hf
  | negative _ hf => exact .negative hj hf
  | binary _ ho hl hr => exact .binary hj ho hl hr
  | comparison _ ho hl hr => exact .comparison (ho ▸ hj) ho hl hr
  | chained _ ho hl hlevel hr => exact .chained hj ho hl hlevel hr

/-- A formula is read from its tokens and from no others. -/
theorem ReadAs.signs (h : ReadAs k ts f) : f.signs = ts := by
  induction h with
  | word => rfl
  | group _ _ ih | not _ _ ih | negative _ _ ih => rw [Formula.signs, ih]
  | binary _ _ _ _ ihl ihr | comparison _ _ _ _ ihl ihr | chained _ _ _ _ _ ihl ihr =>
    rw [Formula.signs, ihl, ihr]

theorem Operator.level_bounds (o : Operator) : 0 < o.level ∧ o.level ≠ 3 ∧ o.level < 7 := by
  cases o <;> decide

/-! ### The reader -/

/-- What waits for a formula to its right. -/
inductive Pending
  | opening
  | not
  | negative
  | operator (o : Operator) (l : Formula)

namespace Pending

/-- How tight it binds. -/
def level : Pending → Nat
  | opening => 0
  | not => 3
  | negative => 7
  | operator o _ => o.level

/-- How tight the formula that it waits for has to bind. -/
def demand : Pending → Nat
  | opening => 1
  | not => 3
  | negative => 7
  | operator o _ => o.level + 1

/-- What it makes of the formula that it waits for.  A parenthesis is closed by another one. -/
def close : Pending → Formula → Formula
  | opening, f => f
  | not, f => .not f
  | negative, f => .negative f
  | operator o l, r => if o.level = 4 ∧ l.level = 4 then .chained o l r else .binary o l r

end Pending

/-- How tight a formula has to bind that comes next. -/
def demand : List Pending → Nat
  | [] => 1
  | p :: _ => p.demand

/-- Close what binds as tight as a level. -/
def closeTo (k : Nat) : List Pending → Formula → List Pending × Formula
  | [], f => ([], f)
  | p :: ps, f => if k ≤ p.level then closeTo k ps (p.close f) else (p :: ps, f)

/-- What was read so far: what is pending, the innermost first, and an operand if there is one. -/
structure Reader where
  pending : List Pending := []
  operand : Option Formula := none

/-- Read a token. -/
def Reader.read (r : Reader) (t : Sign) : Option Reader :=
  match r.operand, t with
  | none, .word text => some { r with operand := some (.word text) }
  | none, .opening => some { pending := .opening :: r.pending }
  | none, .not => if demand r.pending ≤ 3 then some { pending := .not :: r.pending } else none
  | none, .operator .minus => some { pending := .negative :: r.pending }
  | some f, .operator o =>
    let closed := closeTo o.level r.pending f
    some { pending := .operator o closed.2 :: closed.1 }
  | some f, .closing =>
    match closeTo 1 r.pending f with
    | (.opening :: ps, g) => some { pending := ps, operand := some (.group g) }
    | _ => none
  | _, _ => none

/-- The formula that was read, if nothing is missing. -/
def Reader.finish (r : Reader) : Option Formula :=
  r.operand.bind fun f =>
    match closeTo 1 r.pending f with
    | ([], g) => some g
    | _ => none

/-- Read some tokens. -/
def readSigns (ts : List Sign) : Option Formula :=
  (ts.foldlM Reader.read {}).bind Reader.finish

/-! ### What the grammar says is read -/

variable {p : Pending} {ps qs : List Pending} {r : Formula}

/-- A formula with what is pending before it closed, the innermost first. -/
def closeAll (qs : List Pending) (g : Formula) : Formula :=
  qs.foldl (fun f p => p.close f) g

theorem closeAll_concat : closeAll (qs ++ [p]) g = p.close (closeAll qs g) :=
  List.foldl_concat ..

theorem closeTo_append (hk : ∀ p ∈ qs, k ≤ p.level) :
    closeTo k (qs ++ ps) g = closeTo k ps (closeAll qs g) := by
  induction qs generalizing g with
  | nil => rfl
  | cons q qs ih =>
    obtain ⟨hq, hqs⟩ := List.forall_mem_cons.mp hk
    rw [List.cons_append, closeTo, if_pos hq, ih hqs]
    rfl

/-- An operator closes nothing that it may stand in. -/
theorem closeTo_of_demand (h : demand ps ≤ o.level) : closeTo o.level ps f = (ps, f) := by
  cases ps with
  | nil => rfl
  | cons p ps =>
    have hlevel : p.level < o.level := by
      obtain ⟨hpos, hnot, hnegative⟩ := o.level_bounds
      cases p with
      | opening => exact hpos
      | not => exact Nat.lt_of_le_of_ne h hnot.symm
      | negative => exact absurd h (Nat.not_le_of_lt hnegative)
      | operator o' l => exact h
    rw [closeTo, if_neg (Nat.not_le_of_lt hlevel)]

theorem Pending.level_close (h : p ≠ .opening) : (p.close f).level = p.level := by
  cases p with
  | opening => exact absurd rfl h
  | operator o l =>
    rw [close]
    split
    · rename_i hboth
      exact hboth.1.symm
    · rfl
  | _ => rfl

/-- Wherever the formula may stand, its tokens lead to a reader in which it is complete but for
    what is left to be closed. -/
def Leads (ts : List Sign) (f : Formula) : Prop :=
  ∀ ps, demand ps ≤ f.level → ∃ qs g,
    ts.foldlM Reader.read { pending := ps } = some { pending := qs ++ ps, operand := some g }
      ∧ closeAll qs g = f ∧ ∀ q ∈ qs, f.level ≤ q.level

/-- A token that waits for a formula, and the formula. -/
theorem leads_cons {t : Sign} (hp : p ≠ .opening) (hread : ∀ ps, demand ps ≤ p.level →
      Reader.read { pending := ps } t = some { pending := p :: ps })
    (hf : Leads ts f) (hdemand : p.demand ≤ f.level) (hlevel : p.level ≤ f.level) :
    Leads (t :: ts) (p.close f) := by
  intro ps hps
  rw [Pending.level_close hp] at hps ⊢
  obtain ⟨qs, g, hrun, hclose, hqs⟩ := hf (p :: ps) hdemand
  refine ⟨qs ++ [p], g, ?_, ?_, ?_⟩
  · rw [List.foldlM_cons, hread ps hps, List.append_assoc]
    exact hrun
  · rw [closeAll_concat, hclose]
  · rw [List.forall_mem_append, List.forall_mem_singleton]
    exact ⟨fun q hq => Nat.le_trans hlevel (hqs q hq), Nat.le_refl _⟩

/-- An operator closes what is to its left, and waits for what is to its right. -/
theorem leads_operator (hl : Leads ts l) (hr : Leads us r) (hleft : o.level ≤ l.level)
    (hright : o.level < r.level) :
    Leads (ts ++ .operator o :: us) ((Pending.operator o l).close r) := by
  intro ps hps
  have hlevel : ((Pending.operator o l).close r).level = o.level := Pending.level_close nofun
  rw [hlevel] at hps ⊢
  obtain ⟨qs, g, hrun, hclose, hqs⟩ := hl ps (Nat.le_trans hps hleft)
  obtain ⟨qs', g', hrun', hclose', hqs'⟩ := hr (.operator o l :: ps) hright
  -- It closes all that the left formula left pending, and nothing of what was pending before.
  have hclosed : closeTo o.level (qs ++ ps) g = (ps, l) := by
    rw [closeTo_append fun q hq => Nat.le_trans hleft (hqs q hq), hclose, closeTo_of_demand hps]
  refine ⟨qs' ++ [.operator o l], g', ?_, ?_, ?_⟩
  · rw [List.foldlM_append, hrun, List.append_assoc]
    show List.foldlM Reader.read { pending := .operator o (closeTo o.level (qs ++ ps) g).2
      :: (closeTo o.level (qs ++ ps) g).1 } us = _
    rw [hclosed]
    exact hrun'
  · rw [closeAll_concat, hclose']
  · rw [List.forall_mem_append, List.forall_mem_singleton]
    exact ⟨fun q hq => Nat.le_trans (Nat.le_of_lt hright) (hqs' q hq), Nat.le_refl _⟩

theorem leads_of_readAs (h : ReadAs k ts f) : Leads ts f := by
  induction h with
  | word _ => exact fun ps _ => ⟨[], _, rfl, rfl, List.forall_mem_nil _⟩
  | @group _ ts f _ hf ih =>
    intro ps _
    obtain ⟨qs, g, hrun, hclose, hqs⟩ := ih (.opening :: ps) hf.level
    -- Nothing below the parenthesis is closed before it is.
    have hclosed : closeTo 1 (qs ++ .opening :: ps) g = (.opening :: ps, f) := by
      rw [closeTo_append fun q hq => Nat.le_trans hf.level (hqs q hq), hclose]
      rfl
    refine ⟨[], .group f, ?_, rfl, List.forall_mem_nil _⟩
    show List.foldlM Reader.read { pending := .opening :: ps } (ts ++ [.closing]) = _
    rw [List.foldlM_append, hrun]
    show (Reader.read { pending := qs ++ .opening :: ps, operand := some g } .closing >>= pure) = _
    simp only [Reader.read, hclosed]
    rfl
  | not _ hf ih =>
    exact leads_cons (p := .not) nofun (fun ps hps => if_pos hps) ih hf.level hf.level
  | negative _ hf ih =>
    exact leads_cons (p := .negative) nofun (fun ps _ => rfl) ih hf.level hf.level
  | @binary _ o _ _ l r _ ho hl hr ihl ihr =>
    have hclose : (Pending.operator o l).close r = .binary o l r := if_neg fun h => ho h.1
    exact hclose ▸ leads_operator ihl ihr hl.level hr.level
  | @comparison _ o _ _ l r _ ho hl hr ihl ihr =>
    have hclose : (Pending.operator o l).close r = .binary o l r :=
      if_neg fun h => Nat.not_le_of_lt hl.level (Nat.le_of_eq h.2)
    exact hclose ▸ leads_operator ihl ihr (ho ▸ Nat.le_of_lt hl.level) (ho ▸ hr.level)
  | @chained _ o _ _ l r _ ho hl hlevel hr ihl ihr =>
    have hclose : (Pending.operator o l).close r = .chained o l r := if_pos ⟨ho, hlevel⟩
    exact hclose ▸ leads_operator ihl ihr (ho ▸ hl.level) (ho ▸ hr.level)

/-! ### What is read follows the grammar -/

/-- The tokens that were read for something pending, where what binds as tight as a level may
    stand. -/
def Pending.Took (k : Nat) : Pending → List Sign → Prop
  | opening, ts => ts = [.opening]
  | not, ts => k ≤ 3 ∧ ts = [.not]
  | negative, ts => k ≤ 7 ∧ ts = [.operator .minus]
  | operator o l, ts => k ≤ o.level ∧ ∃ us, ts = us ++ [.operator o] ∧ ReadAs o.level us l

/-- The tokens that were read for all that is pending. -/
def Took : List Pending → List Sign → Prop
  | [], ts => ts = []
  | p :: ps, ts => ∃ us vs, ts = us ++ vs ∧ Took ps us ∧ p.Took (demand ps) vs

/-- The tokens that were read so far. -/
def Reader.Took (r : Reader) (ts : List Sign) : Prop :=
  match r.operand with
  | none => Target.Took r.pending ts
  | some f => ∃ us vs, ts = us ++ vs ∧ Target.Took r.pending us ∧ ReadAs 8 vs f

variable {vs : List Sign}

theorem demand_le (ps : List Pending) : demand ps ≤ 7 := by
  cases ps with
  | nil => decide
  | cons p ps =>
    cases p with
    | operator o l => exact o.level_bounds.2.2
    | opening => exact Nat.le_add_left 1 6
    | not => exact Nat.le_add_left 3 4
    | negative => exact Nat.le_refl 7

/-- What is closed is read as the grammar says. -/
theorem readAs_close (hp : p ≠ .opening) (hus : p.Took k us) (hf : ReadAs p.demand vs f) :
    ReadAs k (us ++ vs) (p.close f) := by
  cases p with
  | opening => exact absurd rfl hp
  | not =>
    obtain ⟨hk, rfl⟩ := hus
    exact .not hk hf
  | negative =>
    obtain ⟨hk, rfl⟩ := hus
    exact .negative hk hf
  | operator o l =>
    obtain ⟨hk, ws, rfl, hl⟩ := hus
    rw [List.append_assoc, List.singleton_append, Pending.close]
    -- A comparison makes a chain if what is to its left is one, or a comparison.
    by_cases ho : o.level = 4
    · have hf : ReadAs (o.level + 1) vs f := hf
      rw [ho] at hk hl hf
      by_cases hlevel : l.level = 4
      · rw [if_pos ⟨ho, hlevel⟩]
        exact .chained hk ho hl hlevel hf
      · rw [if_neg fun h => hlevel h.2]
        exact .comparison hk ho (hl.at (Nat.lt_of_le_of_ne hl.level (Ne.symm hlevel))) hf
    · rw [if_neg fun h => ho h.1]
      exact .binary hk ho hl hf

/-- Closing what is pending keeps to the grammar, and leaves nothing that binds as tight. -/
theorem took_closeTo (hk : 1 ≤ k) (hps : Took ps us) (hf : ReadAs (demand ps) vs f)
    (hlevel : k ≤ f.level) :
    ∃ us' vs', us ++ vs = us' ++ vs' ∧ Took (closeTo k ps f).1 us'
      ∧ ReadAs (demand (closeTo k ps f).1) vs' (closeTo k ps f).2
      ∧ k ≤ (closeTo k ps f).2.level ∧ demand (closeTo k ps f).1 ≤ k := by
  induction ps generalizing us vs f with
  | nil => exact ⟨us, vs, rfl, hps, hf, hlevel, hk⟩
  | cons p ps ih =>
    -- What binds as tight as `k` is closed, which a parenthesis never does.
    by_cases hp : k ≤ p.level
    · have hopening : p ≠ .opening := by
        rintro rfl
        exact Nat.not_succ_le_zero _ (Nat.le_trans hk hp)
      obtain ⟨us, ws, rfl, hus, hws⟩ := hps
      rw [closeTo, if_pos hp, List.append_assoc]
      exact ih hus (readAs_close hopening hws hf) (Pending.level_close hopening ▸ hp)
    · rw [closeTo, if_neg hp]
      refine ⟨us, vs, rfl, hps, hf, hlevel, ?_⟩
      cases p with
      | operator o l => exact Nat.lt_of_not_le hp
      | opening => exact hk
      | not => exact Nat.le_of_lt (Nat.lt_of_not_le hp)
      | negative => exact Nat.le_of_lt (Nat.lt_of_not_le hp)

/-- Reading a token keeps account of it. -/
theorem took_read {r r' : Reader} {t : Sign} (hr : r.Took ts) (h : r.read t = some r') :
    r'.Took (ts ++ [t]) := by
  obtain ⟨ps, operand⟩ := r
  -- Where an operand is due, only what begins one is read; after one, what closes or joins it.
  cases operand with
  | none =>
    have hps : Took ps ts := hr
    cases t with
    | word text =>
      cases h
      exact ⟨ts, _, rfl, hps, .word (Nat.le_refl 8)⟩
    | opening =>
      cases h
      exact ⟨ts, _, rfl, hps, rfl⟩
    | closing => cases h
    | not =>
      obtain ⟨hdemand, h⟩ := Option.ite_none_right_eq_some.mp h
      cases h
      exact ⟨ts, _, rfl, hps, hdemand, rfl⟩
    | operator o =>
      cases o with
      | minus =>
        cases h
        exact ⟨ts, _, rfl, hps, demand_le ps, rfl⟩
      | _ => cases h
  | some f =>
    obtain ⟨us, vs, rfl, hps, hf⟩ := hr
    have hatom : ReadAs (demand ps) vs f :=
      hf.at (Nat.le_trans (demand_le ps) (Nat.le_of_lt hf.level))
    cases t with
    | word text => cases h
    | opening => cases h
    | not => cases h
    | closing =>
      -- Everything back to the opening parenthesis is closed, and that comes off too.
      obtain ⟨us', vs', heq, hus', hvs', -⟩ :=
        took_closeTo (Nat.le_refl 1) hps hatom (Nat.le_trans (by decide) hf.level)
      rw [heq]
      simp only [Reader.read] at h
      split at h
      · rename_i qs g hclosed
        cases h
        rw [hclosed] at hus' hvs'
        obtain ⟨ws, xs, rfl, hws, rfl⟩ := hus'
        refine ⟨ws, .opening :: vs' ++ [.closing], ?_, hws, .group (Nat.le_refl 8) hvs'⟩
        simp
      · cases h
    | operator o =>
      cases h
      -- What binds at least so tight is closed before the operator is pushed.
      obtain ⟨us', vs', heq, hus', hvs', hlevel, hdemand⟩ := took_closeTo o.level_bounds.1 hps hatom
        (Nat.le_trans (Nat.le_of_lt (Nat.lt_succ_of_lt o.level_bounds.2.2)) hf.level)
      rw [heq, List.append_assoc]
      exact ⟨us', _, rfl, hus', hdemand, vs', rfl, hvs'.at hlevel⟩

theorem took_foldlM {r r' : Reader} (hr : r.Took us) (h : ts.foldlM Reader.read r = some r') :
    r'.Took (us ++ ts) := by
  induction ts generalizing r us with
  | nil =>
    cases h
    rwa [List.append_nil]
  | cons t ts ih =>
    obtain ⟨m, hread, hrest⟩ := Option.bind_eq_some_iff.mp h
    rw [← List.singleton_append, ← List.append_assoc]
    exact ih (took_read hr hread) hrest

/-- **Reading.**  The reader reads what the grammar says, and nothing else. -/
theorem readSigns_eq_some : readSigns ts = some f ↔ ReadAs 1 ts f := by
  constructor
  · intro h
    obtain ⟨⟨ps, operand⟩, hrun, hfinish⟩ := Option.bind_eq_some_iff.mp h
    obtain ⟨g, rfl, hclosed⟩ := Option.bind_eq_some_iff.mp hfinish
    have htook : Reader.Took ⟨ps, some g⟩ ([] ++ ts) := took_foldlM (r := {}) rfl hrun
    obtain ⟨us, vs, heq, hps, hg⟩ := htook
    obtain ⟨us', vs', heq', hus', hvs', -⟩ := took_closeTo (Nat.le_refl 1) hps
      (hg.at (Nat.le_trans (demand_le ps) (Nat.le_of_lt hg.level)))
      (Nat.le_trans (by decide) hg.level)
    split at hclosed
    · -- Nothing is pending any more, so that all tokens were read for the formula.
      rename_i g' hclosed'
      cases hclosed
      rw [hclosed'] at hus' hvs'
      obtain rfl : us' = [] := hus'
      rw [List.nil_append] at heq heq'
      rwa [heq, heq']
    · cases hclosed
  · intro h
    obtain ⟨qs, g, hrun, hclose, hqs⟩ := leads_of_readAs h [] h.level
    have hclosed : closeTo 1 (qs ++ []) g = ([], f) := by
      rw [closeTo_append fun q hq => Nat.le_trans h.level (hqs q hq), hclose]
      rfl
    rw [readSigns, hrun]
    simp only [Option.bind_some, Reader.finish, hclosed]

end Transcode.Target
