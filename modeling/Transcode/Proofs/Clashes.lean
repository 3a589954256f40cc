import Transcode.Proofs.Binding
import Transcode.Proofs.Formulas
import Transcode.Target.Backend

namespace Transcode.Target

open Script

/-!
# Clashing operators

An expression of a script is a formula of Python, if it has no operators but those of formulas
(`IsFormula`).  Its operators stand in the same order there, with no parentheses but those that the
script has.  Whether they are read as the same formula depends on how tight they bind, and Python
does not bind all of them as scripts do: a `not` takes what is compared to its right, and
comparisons make chains.  They are exactly if no two of them clash (`readSigns_eq_some_iff`).
-/

/-! ### Expressions as formulas -/

/-- The operator of Python for one of scripts. -/
def Operator.ofToken? : Token → Option Operator
  | .orOr => some .or
  | .andAnd => some .and
  | .equal | .strictEqual => some .equal
  | .notEqual | .strictNotEqual => some .notEqual
  | .less => some .less
  | .greater => some .greater
  | .lessEqual => some .lessEqual
  | .greaterEqual => some .greaterEqual
  | .plus => some .plus
  | .minus => some .minus
  | .star => some .times
  | .slash => some .divide
  | .percent => some .modulo
  | _ => none

/-- The formula that an expression is, if it is made of names, numbers, parentheses and operators
    other than assignments. -/
def formulaOf (source : String) : Ast → Option Formula
  | ⟨.identifier, _, start, stop, _⟩ => some (.word (snakeCase (Text.slice source start stop)))
  | ⟨.numericLiteral, _, start, stop, _⟩ => some (.word (Text.slice source start stop))
  | ⟨.parenthesized, _, _, _, [e]⟩ => (formulaOf source e).map .group
  | ⟨.prefixUnary, _, _, _, [operator, e]⟩ =>
    match operatorOf operator with
    | some .bang => (formulaOf source e).map .not
    | some .minus => (formulaOf source e).map .negative
    | _ => none
  | ⟨.binaryExpression, _, _, _, [l, operator, r]⟩ => do
    let o ← (operatorOf operator).bind Operator.ofToken?
    return .binary o (← formulaOf source l) (← formulaOf source r)
  | _ => none

/-- The expression that a file or a statement is nothing but. -/
def bare : Ast → Ast
  | ⟨.expressionStatement, _, _, _, [e]⟩ => e
  | ⟨.sourceFile, _, _, _, [s]⟩ => bare s
  | n => n

/-- Without its parentheses an expression is a node of itself. -/
theorem bare_mem_preorder (n : Ast) : bare n ∈ n.preorder := by
  fun_induction bare n with
  | case1 => exact Node.mem_preorder_of_mem_children List.mem_cons_self
  | case2 fullStart start stop s ih =>
    exact Node.mem_preorder_trans (Node.mem_preorder_of_mem_children List.mem_cons_self) ih
  | case3 n => exact n.self_mem_preorder

namespace Formula

/-- Whether a formula is a negation. -/
def isNot : Formula → Bool
  | not _ => true
  | _ => false

/-- Whether somewhere a comparison is an operand of a comparison, or a negation an operand of
    something other than `and`, `or` and a negation. -/
def clashes : Formula → Bool
  | word _ => false
  | group f | not f => f.clashes
  | negative f => f.isNot || f.clashes
  | binary o l r =>
    (o.level = 4 && (l.level = 4 || r.level = 4)) || (3 < o.level && (l.isNot || r.isNot))
      || l.clashes || r.clashes
  | chained _ l r => l.clashes || r.clashes

end Formula

/-- The node is a formula, with a rule for each way to be one. -/
inductive IsFormula (source : String) : Ast → Formula → Prop
  | name {n} : n.kind = .identifier → IsFormula source n (.word (snakeCase (n.textIn source)))
  | number {n} : n.kind = .numericLiteral → IsFormula source n (.word (n.textIn source))
  | group {n e f} : n.kind = .parenthesized → n.children = [e] → IsFormula source e f →
      IsFormula source n (.group f)
  | not {n operator e f} : n.kind = .prefixUnary → n.children = [operator, e] →
      operatorOf operator = some .bang → IsFormula source e f → IsFormula source n (.not f)
  | negative {n operator e f} : n.kind = .prefixUnary → n.children = [operator, e] →
      operatorOf operator = some .minus → IsFormula source e f → IsFormula source n (.negative f)
  | binary {n l operator r t o f g} : n.kind = .binaryExpression → n.children = [l, operator, r] →
      operatorOf operator = some t → Operator.ofToken? t = some o → IsFormula source l f →
      IsFormula source r g → IsFormula source n (.binary o f g)

/-- The formula found for an expression is one of it, -/
theorem isFormula_of_eq {source : String} {n : Ast} {f : Formula}
    (h : formulaOf source n = some f) : IsFormula source n f := by
  fun_induction formulaOf source n generalizing f with
  | case1 | case2 =>
    cases h
    first | exact .name rfl | exact .number rfl
  | case3 _ _ _ e ih =>
    obtain ⟨g, hg, rfl⟩ := Option.map_eq_some_iff.mp h
    exact .group rfl rfl (ih hg)
  | case4 _ _ _ operator e ht ih =>
    obtain ⟨g, hg, rfl⟩ := Option.map_eq_some_iff.mp h
    exact .not rfl rfl ht (ih hg)
  | case5 _ _ _ operator e ht ih =>
    obtain ⟨g, hg, rfl⟩ := Option.map_eq_some_iff.mp h
    exact .negative rfl rfl ht (ih hg)
  | case6 => cases h
  | case7 _ _ _ l operator r ihl ihr =>
    simp only [Option.bind_eq_bind, Option.bind_eq_some_iff] at h
    obtain ⟨o, ⟨t, ht, ho⟩, f, hf, g, hg, h⟩ := h
    cases h
    exact .binary rfl rfl ht ho (ihl hf) (ihr hg)
  | case8 => cases h

/-- A node is made of its fields. -/
theorem eq_mk : ∀ n : Ast, n = ⟨n.kind, n.fullStart, n.start, n.stop, n.children⟩
  | ⟨_, _, _, _, _⟩ => rfl

/-- and there is no other. -/
theorem IsFormula.formulaOf_eq {source : String} {n : Ast} {f : Formula}
    (h : IsFormula source n f) : formulaOf source n = some f := by
  induction h with
  | @name n hkind | @number n hkind =>
    rw [eq_mk n, hkind]
    rfl
  | @group n e f hkind hchildren _ ih =>
    rw [eq_mk n, hkind, hchildren, formulaOf, ih]
    rfl
  | @not n operator e f hkind hchildren ht _ ih
  | @negative n operator e f hkind hchildren ht _ ih =>
    rw [eq_mk n, hkind, hchildren, formulaOf, ht]
    exact congrArg (Option.map _) ih
  | @binary n l operator r t o f g hkind hchildren ht ho _ _ ihl ihr =>
    rw [eq_mk n, hkind, hchildren, formulaOf, ht, Option.bind_some, ho, ihl, ihr]
    rfl

/-! ### What is read has no clashes -/

section

variable {k : Nat} {ts : List Sign} {f l r : Formula} {o : Operator} {source : String} {n e : Ast}

/-- Only `not` has the third level. -/
theorem isNot_iff : f.isNot = true ↔ f.level = 3 := by
  cases f with
  | not f => exact iff_of_true rfl rfl
  | binary o l r => exact iff_of_false Bool.false_ne_true o.level_bounds.2.1
  | _ => exact iff_of_false Bool.false_ne_true nofun

/-- So what has another one is no `not`, -/
theorem isNot_of_level (h : f.level ≠ 3) : f.isNot = false :=
  Bool.eq_false_iff.mpr fun hnot => h (isNot_iff.mp hnot)

/-- and what is no `not` has another one. -/
theorem level_of_isNot (h : f.isNot = false) : f.level ≠ 3 := fun hlevel =>
  Bool.false_ne_true (h.symm.trans (isNot_iff.mpr hlevel))

/-- Levels are positive. -/
theorem level_pos (f : Formula) : 1 ≤ f.level := by
  cases f with
  | binary o l r => exact o.level_bounds.1
  | word | group => exact Nat.le_add_left 1 7
  | not => exact Nat.le_add_left 1 2
  | negative => exact Nat.le_add_left 1 6
  | chained => exact Nat.le_add_left 1 3

/-- Formulas that are read have no clashes. -/
theorem clashes_of_readAs (h : ReadAs k ts f) : f.clashes = false := by
  have hnot : ∀ {k ts f}, ReadAs k ts f → 3 < k → f.isNot = false := fun hf hk =>
    isNot_of_level (Nat.ne_of_gt (Nat.lt_of_lt_of_le hk hf.level))
  induction h with
  | word => rfl
  | group _ _ ih | not _ _ ih => exact ih
  | negative _ hf ih => rw [Formula.clashes, hnot hf (by decide), ih]; rfl
  | @binary k o ts us l r _ ho hl hr ihl ihr =>
    -- What binds tighter than a negation takes none as an operand.
    have hneg : (3 < o.level && (l.isNot || r.isNot)) = false := by
      by_cases hlevel : 3 < o.level
      · rw [hnot hl hlevel, hnot hr (Nat.lt_succ_of_lt hlevel)]
        exact Bool.and_false _
      · rw [decide_eq_false hlevel]
        rfl
    rw [Formula.clashes, hneg, ihl, ihr, decide_eq_false ho]
    rfl
  | @comparison k o ts us l r _ ho hl hr ihl ihr =>
    have hlevel : ∀ {ts f}, ReadAs 5 ts f → f.level ≠ 4 := fun hf =>
      Nat.ne_of_gt hf.level
    rw [Formula.clashes, ihl, ihr, hnot hl (by decide), hnot hr (by decide),
      decide_eq_false (hlevel hl), decide_eq_false (hlevel hr)]
    simp
  | chained _ _ _ _ _ ihl ihr => rw [Formula.clashes, ihl, ihr]; rfl

/-! ### What has no clashes is read -/

/-- The level of an operator with a precedence in scripts.  All comparisons are on one. -/
def levelAt : Nat → Nat
  | 1 => 1
  | 2 => 2
  | 3 | 4 => 4
  | 5 => 5
  | 6 => 6
  | _ => 7

/-- A tighter precedence has no lower level, -/
theorem levelAt_le : ∀ q ≤ tightest, ∀ p ≤ q, 0 < p → levelAt p ≤ levelAt q := by decide

/-- and a higher one unless both are those of comparisons. -/
theorem levelAt_lt : ∀ q ≤ tightest, ∀ p < q, 0 < p →
    levelAt p < levelAt q ∨ levelAt p = 4 ∧ levelAt q = 4 := by decide

/-- An operator has the level of its token. -/
theorem level_ofToken {t : Token} (h : Operator.ofToken? t = some o) :
    0 < t.precedence?.getD 0 ∧ o.level = levelAt (t.precedence?.getD 0) := by
  cases t <;> cases h <;> decide

/-- A formula binds as tight as its node does, unless it is a negation. -/
theorem IsFormula.level (h : IsFormula source n f) :
    f.level = 3 ∨ levelAt (tightness n) ≤ f.level := by
  have hseven : n.kind ≠ .binaryExpression → levelAt (tightness n) = 7 := fun hkind => by
    rw [tightness_of_ne hkind]
    rfl
  cases h with
  | name hkind | number hkind | group hkind =>
    rw [hseven (by rw [hkind]; nofun)]
    exact .inr (Nat.le_succ 7)
  | not => exact .inl rfl
  | negative hkind =>
    rw [hseven (by rw [hkind]; nofun)]
    exact .inr (Nat.le_refl 7)
  | @binary _ l operator r t o f g hkind hchildren ht ho =>
    have hgrade : tightness n = t.precedence?.getD 0 := by
      simp only [tightness, hkind, hchildren, precedenceOf, ht, Option.bind_some]
    rw [hgrade, ← (level_ofToken ho).2]
    exact .inr (Nat.le_refl _)

/-- A formula without clashes is read from its tokens, if its node binds as it should. -/
theorem readAs_of_isFormula (h : IsFormula source n f) (hbound : Bound n)
    (hclashes : f.clashes = false) : ReadAs f.level f.signs f := by
  have hbelow : ∀ {n e : Ast}, Bound n → e ∈ n.children → Bound e := fun hbound he m hm =>
    hbound m (Node.mem_preorder_of_child he hm)
  have hprefixed : ∀ {n operator e}, Bound n → n.kind = .prefixUnary →
      n.children = [operator, e] → tightness e = tightest := by
    intro n operator e hbound hkind hchildren
    have hbinds := hbound n n.self_mem_preorder
    rwa [Binds, hkind, hchildren] at hbinds
  induction h with
  | name | number => exact .word (Nat.le_refl 8)
  | @group n e f _ hchildren _ ih =>
    have hf := ih (hbelow hbound (by simp [hchildren])) hclashes
    exact .group (Nat.le_refl 8) (hf.at (level_pos f))
  | @not n operator e f hkind hchildren _ he ih =>
    have hf := ih (hbelow hbound (by simp [hchildren])) hclashes
    refine .not (Nat.le_refl 3) (hf.at ?_)
    rcases he.level with hlevel | hlevel
    · exact Nat.le_of_eq hlevel.symm
    · rw [hprefixed hbound hkind hchildren] at hlevel
      exact Nat.le_trans (by decide) hlevel
  | @negative n operator e f hkind hchildren _ he ih =>
    obtain ⟨hnot, hclashes⟩ := Bool.or_eq_false_iff.mp hclashes
    have hf := ih (hbelow hbound (by simp [hchildren])) hclashes
    refine .negative (Nat.le_refl 7) (hf.at ?_)
    rcases he.level with hlevel | hlevel
    · exact absurd hlevel (level_of_isNot hnot)
    · rwa [hprefixed hbound hkind hchildren] at hlevel
  | @binary n l operator r t o f g hkind hchildren ht ho hl hr ihl ihr =>
    simp only [Formula.clashes, Bool.or_eq_false_iff, Bool.and_eq_false_iff,
      decide_eq_false_iff_not] at hclashes
    obtain ⟨⟨⟨hcompare, hneg⟩, hclashf⟩, hclashg⟩ := hclashes
    have hf := ihl (hbelow hbound (by simp [hchildren])) hclashf
    have hg := ihr (hbelow hbound (by simp [hchildren])) hclashg
    obtain ⟨hpos, hlevel⟩ := level_ofToken ho
    obtain ⟨hleft, hright⟩ :
        t.precedence?.getD 0 ≤ tightness l ∧ t.precedence?.getD 0 < tightness r := by
      have hbinds := hbound n n.self_mem_preorder
      simp only [Binds, hkind, hchildren, precedenceOf, ht, Option.bind_some] at hbinds
      exact hbinds (Nat.ne_of_gt hpos)
    -- The order of the precedences is that of the levels, except that comparisons are on one level.
    have hle := levelAt_le _ (tightness_le l) _ hleft hpos
    have hlt := levelAt_lt _ (tightness_le r) _ hright hpos
    rw [← hlevel] at hle hlt
    have hnot : 3 < o.level → f.level ≠ 3 ∧ g.level ≠ 3 := fun hlevel => by
      obtain ⟨hnotf, hnotg⟩ := hneg.resolve_left (not_not_intro hlevel)
      exact ⟨level_of_isNot hnotf, level_of_isNot hnotg⟩
    have hlevelf := hl.level
    have hlevelg := hr.level
    by_cases hfour : o.level = 4
    · obtain ⟨hcomparef, hcompareg⟩ := hcompare.resolve_left (not_not_intro hfour)
      exact .comparison (Nat.le_of_eq hfour) hfour (hf.at (by omega)) (hg.at (by omega))
    · have hnothree := o.level_bounds.2.1
      exact .binary (Nat.le_refl _) hfour (hf.at (by omega)) (hg.at (by omega))

/-- **Clashes.**  The tokens of an expression are read as the formula that it is exactly if no
    operators in it clash. -/
theorem readSigns_eq_some_iff (h : IsFormula source n f) (hbound : Bound n) :
    readSigns f.signs = some f ↔ f.clashes = false := by
  rw [readSigns_eq_some]
  refine ⟨clashes_of_readAs, fun hclashes => ?_⟩
  exact (readAs_of_isFormula h hbound hclashes).at (level_pos f)

end

end Transcode.Target
