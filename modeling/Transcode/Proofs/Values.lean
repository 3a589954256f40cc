import Transcode.Proofs.Reading
import Transcode.Script.LiteralType
import Transcode.Text.Slice

/-!
# Values of literals

Expressions that are made of literals and operators alone have values (`evaluate`).  The type that
an expression is said to have should be the type of its value.

This is so of most operators: a comparison is a truth value, what is added to a string is a string,
and the rest are numbers.  But `&&` and `||` are said to be truth values as well, and their value is
that of one of their operands, whatever it is (`conjunction_misjudged`).  Nothing else is amiss:
where they only connect what is known to be a truth value, types are right (`type_of_value`).
-/

namespace Transcode.Script

open Text

/-! ### Values -/

/-- A value, with numbers from `ν`. -/
inductive Value (ν : Type)
  | string (text : String)
  | number (x : ν)
  | boolean (b : Bool)

/-- The type of a value. -/
def Value.type {ν : Type} : Value ν → LiteralType
  | string _ => .string
  | number _ => .number
  | boolean _ => .boolean

/-- How numbers are read, written, compared and calculated with, and how strings are read and
    compared.  Types depend on none of this. -/
structure Arithmetic (ν : Type) where
  /-- What a string literal stands for. -/
  stringOf : String → String
  /-- What a numeric literal stands for. -/
  numberOf : String → ν
  /-- The number that a string is made in a calculation. -/
  ofText : String → ν
  /-- The number that a truth value is made. -/
  ofBool : Bool → ν
  /-- How a number is written when it is added to a string. -/
  toText : ν → String
  /-- Whether a number counts as true. -/
  isTrue : ν → Bool
  neg : ν → ν
  add : ν → ν → ν
  sub : ν → ν → ν
  mul : ν → ν → ν
  div : ν → ν → ν
  mod : ν → ν → ν
  equal : ν → ν → Bool
  less : ν → ν → Bool
  /-- Whether a string comes before another one. -/
  textLess : String → String → Bool

namespace Arithmetic

variable {ν : Type} (N : Arithmetic ν)

/-- A value as a number. -/
def toNumber : Value ν → ν
  | .string s => N.ofText s
  | .number x => x
  | .boolean b => N.ofBool b

/-- A value as a text. -/
def write : Value ν → String
  | .string s => s
  | .number x => N.toText x
  | .boolean b => if b then "true" else "false"

/-- Whether a value counts as true. -/
def truth : Value ν → Bool
  | .string s => !s.isEmpty
  | .number x => N.isTrue x
  | .boolean b => b

/-- The sum of two values: a text if one of them is, and else a number. -/
def plus : Value ν → Value ν → Value ν
  | .string s, b => .string (s ++ N.write b)
  | a, .string s => .string (N.write a ++ s)
  | a, b => .number (N.add (N.toNumber a) (N.toNumber b))

/-- Whether two values are the same, of whatever types. -/
def same : Value ν → Value ν → Bool
  | .string s, .string s' => s == s'
  | .number x, .number y => N.equal x y
  | .boolean b, .boolean b' => b == b'
  | _, _ => false

/-- Whether two values are equal, as numbers if they have different types. -/
def alike (a b : Value ν) : Bool :=
  if a.type = b.type then N.same a b else N.equal (N.toNumber a) (N.toNumber b)

/-- Whether one value is less than another one: in the order of texts if both are, and as numbers
    otherwise. -/
def before : Value ν → Value ν → Bool
  | .string s, .string s' => N.textLess s s'
  | a, b => N.less (N.toNumber a) (N.toNumber b)

/-- Whether one value is at most another one.  Numbers need not be comparable. -/
def atMost : Value ν → Value ν → Bool
  | .string s, .string s' => !N.textLess s' s
  | a, b =>
    N.less (N.toNumber a) (N.toNumber b) || N.equal (N.toNumber a) (N.toNumber b)

/-- The value of two operands under a binary operator other than an assignment. -/
def combine (t : Token) (a b : Value ν) : Option (Value ν) :=
  match t with
  | .plus => some (N.plus a b)
  | .minus => some (.number (N.sub (N.toNumber a) (N.toNumber b)))
  | .star => some (.number (N.mul (N.toNumber a) (N.toNumber b)))
  | .slash => some (.number (N.div (N.toNumber a) (N.toNumber b)))
  | .percent => some (.number (N.mod (N.toNumber a) (N.toNumber b)))
  | .less => some (.boolean (N.before a b))
  | .greater => some (.boolean (N.before b a))
  | .lessEqual => some (.boolean (N.atMost a b))
  | .greaterEqual => some (.boolean (N.atMost b a))
  | .equal => some (.boolean (N.alike a b))
  | .notEqual => some (.boolean (!N.alike a b))
  | .strictEqual => some (.boolean (N.same a b))
  | .strictNotEqual => some (.boolean (!N.same a b))
  | .andAnd => some (if N.truth a then b else a)
  | .orOr => some (if N.truth a then a else b)
  | _ => none

/-- The value of an operand under a prefix operator. -/
def apply (t : Token) (a : Value ν) : Option (Value ν) :=
  match t with
  | .bang => some (.boolean (!N.truth a))
  | .minus => some (.number (N.neg (N.toNumber a)))
  | _ => none

end Arithmetic

/-- The value of an expression of a source, if it is made of literals and operators alone. -/
def evaluate {ν : Type} (N : Arithmetic ν) (source : String) : Ast → Option (Value ν)
  | ⟨.stringLiteral, _, start, stop, _⟩ => some (.string (N.stringOf (slice source start stop)))
  | ⟨.numericLiteral, _, start, stop, _⟩ => some (.number (N.numberOf (slice source start stop)))
  | ⟨.trueKeyword, _, _, _, _⟩ => some (.boolean true)
  | ⟨.falseKeyword, _, _, _, _⟩ => some (.boolean false)
  | ⟨.parenthesized, _, _, _, [e]⟩ => evaluate N source e
  | ⟨.prefixUnary, _, _, _, [operator, e]⟩ => do
    N.apply (← operatorOf operator) (← evaluate N source e)
  | ⟨.binaryExpression, _, _, _, [l, operator, r]⟩ => do
    N.combine (← operatorOf operator) (← evaluate N source l) (← evaluate N source r)
  | _ => none

/-! ### Constants -/

/-- The kinds of literals. -/
def literalKinds : List Kind :=
  [.stringLiteral, .numericLiteral, .trueKeyword, .falseKeyword]

/-- The expression is made of literals, parentheses and operators other than assignments. -/
inductive IsConstant : Ast → Prop
  | literal {e : Ast} : e.kind ∈ literalKinds → IsConstant e
  | parenthesized {fullStart start stop : Nat} {e : Ast} : IsConstant e →
      IsConstant ⟨.parenthesized, fullStart, start, stop, [e]⟩
  | sign {fullStart start stop : Nat} {operator e : Ast} {t : Token} :
      operatorOf operator = some t → t = .bang ∨ t = .minus → IsConstant e →
      IsConstant ⟨.prefixUnary, fullStart, start, stop, [operator, e]⟩
  | binary {fullStart start stop : Nat} {l operator r : Ast} {t : Token} :
      operatorOf operator = some t → t.precedence?.isSome = true → IsConstant l → IsConstant r →
      IsConstant ⟨.binaryExpression, fullStart, start, stop, [l, operator, r]⟩

/-- If the node is an `&&` or an `||`, both operands are known to be truth values. -/
def JoinsBooleans (n : Ast) : Prop :=
  ∀ l operator r, n.children = [l, operator, r] →
    operatorOf operator = some .andAnd ∨ operatorOf operator = some .orOr →
    LiteralType.ofNode? l = some .boolean ∧ LiteralType.ofNode? r = some .boolean

variable {ν : Type} (N : Arithmetic ν) {source : String} {e : Ast} {t : Token} {a b : Value ν}
  {τ : LiteralType} {known known' : Option LiteralType}

namespace Arithmetic

/-- Every operator gives a value. -/
theorem exists_combine (h : t.precedence?.isSome = true) (a b : Value ν) :
    ∃ v, N.combine t a b = some v := by
  cases t <;> first | exact ⟨_, rfl⟩ | simp [Token.precedence?] at h

theorem exists_apply (h : t = .bang ∨ t = .minus) (a : Value ν) : ∃ v, N.apply t a = some v := by
  rcases h with rfl | rfl
  · exact ⟨_, rfl⟩
  · exact ⟨_, rfl⟩

/-- A prefix operator makes a value of the type that is expected. -/
theorem type_apply {v : Value ν} (h : N.apply t a = some v)
    (hτ : LiteralType.ofPrefix? t = some τ) : v.type = τ := by
  cases t <;> simp_all [apply, LiteralType.ofPrefix?]
  all_goals
    subst h hτ
    rfl

/-- A sum with a text is a text. -/
theorem type_plus_string (h : a.type = .string ∨ b.type = .string) :
    (N.plus a b).type = .string := by
  cases a <;> cases b <;> simp_all [plus, Value.type]

theorem type_plus_number (ha : a.type = .number) (hb : b.type = .number) :
    (N.plus a b).type = .number := by
  cases a <;> cases b <;> simp_all [plus, Value.type]

/-- A binary operator makes a value of the type that is expected, if what is known of the operands is
    right and both of them are truth values where the operator is `&&` or `||`. -/
theorem type_combine {v : Value ν} (h : N.combine t a b = some v)
    (ha : ∀ τ, known = some τ → a.type = τ) (hb : ∀ τ, known' = some τ → b.type = τ)
    (hjoins : t = .andAnd ∨ t = .orOr → a.type = .boolean ∧ b.type = .boolean)
    (hτ : LiteralType.ofBinary? t known known' = some τ) : v.type = τ := by
  have hnumber : known = some .number ∧ known' = some .number →
      a.type = .number ∧ b.type = .number := fun hboth => ⟨ha _ hboth.1, hb _ hboth.2⟩
  cases t with
  | andAnd | orOr =>
    -- The value is that of one of the operands.
    obtain ⟨hta, htb⟩ := hjoins (by simp)
    simp only [combine, Option.some.injEq] at h
    simp only [LiteralType.ofBinary?, Token.precedence?, Option.any_some] at hτ
    subst h
    cases hτ
    split
    · assumption
    · assumption
  | plus =>
    simp only [combine, Option.some.injEq] at h
    subst h
    by_cases hstring : known = some .string ∨ known' = some .string
    · have hτ : some LiteralType.string = some τ := by
        simpa [LiteralType.ofBinary?, Token.precedence?, hstring] using hτ
      cases hτ
      exact N.type_plus_string (hstring.imp (ha _) (hb _))
    · have hτ : (known = some .number ∧ known' = some .number) ∧ LiteralType.number = τ := by
        simpa [LiteralType.ofBinary?, Token.precedence?, hstring] using hτ
      obtain ⟨hboth, rfl⟩ := hτ
      exact N.type_plus_number (hnumber hboth).1 (hnumber hboth).2
  | minus | star | slash | percent =>
    simp only [combine, Option.some.injEq] at h
    subst h
    have hτ : (known = some .number ∧ known' = some .number) ∧ LiteralType.number = τ := by
      simpa [LiteralType.ofBinary?, Token.precedence?] using hτ
    exact hτ.2
  | less | greater | lessEqual | greaterEqual | equal | notEqual | strictEqual | strictNotEqual =>
    simp only [combine, Option.some.injEq] at h
    simp only [LiteralType.ofBinary?, Token.precedence?, Option.any_some] at hτ
    subst h
    cases hτ
    rfl
  | _ => simp [combine] at h

end Arithmetic

/-! ### Expressions -/

/-- Constants have values. -/
theorem IsConstant.exists_evaluate (h : IsConstant e) (source : String) :
    ∃ v, evaluate N source e = some v := by
  induction h with
  | @literal e hkind =>
    obtain ⟨kind, fullStart, start, stop, children⟩ := e
    simp only [literalKinds, List.mem_cons, List.not_mem_nil, or_false] at hkind
    rcases hkind with rfl | rfl | rfl | rfl
    all_goals exact ⟨_, by rw [evaluate]⟩
  | parenthesized _ ih => exact ih
  | sign hoperator ht _ ih =>
    obtain ⟨a, ha⟩ := ih
    obtain ⟨v, hv⟩ := N.exists_apply ht a
    exact ⟨v, by simp [evaluate, hoperator, ha, hv]⟩
  | binary hoperator ht _ _ ihl ihr =>
    obtain ⟨a, ha⟩ := ihl
    obtain ⟨b, hb⟩ := ihr
    obtain ⟨v, hv⟩ := N.exists_combine ht a b
    exact ⟨v, by simp [evaluate, hoperator, ha, hb, hv]⟩

/-- **Types of constants.**  If `&&` and `||` connect only what is known to be a truth value, then a
    constant that is said to have a type has a value of that type. -/
theorem type_of_value (h : IsConstant e) (hjoins : ∀ n ∈ e.preorder, JoinsBooleans n)
    (hτ : LiteralType.ofNode? e = some τ) :
    ∃ v, evaluate N source e = some v ∧ v.type = τ := by
  suffices hall : ∀ v, evaluate N source e = some v → v.type = τ by
    obtain ⟨v, hv⟩ := h.exists_evaluate N source
    exact ⟨v, hv, hall v hv⟩
  induction h generalizing τ with
  | @literal e hkind =>
    obtain ⟨kind, fullStart, start, stop, children⟩ := e
    simp only [literalKinds, List.mem_cons, List.not_mem_nil, or_false] at hkind
    rcases hkind with rfl | rfl | rfl | rfl
    all_goals
      intro v hv
      simp only [evaluate, Option.some.injEq] at hv
      simp only [LiteralType.ofNode?, Option.some.injEq] at hτ
      rw [← hv, ← hτ, Value.type]
  | parenthesized _ ih =>
    exact ih (fun n hn => hjoins n (Node.mem_preorder_of_child (by simp) hn)) hτ
  | sign hoperator ht he ih =>
    intro v hv
    simp only [LiteralType.ofNode?, hoperator, Option.bind_some] at hτ
    simp only [evaluate, hoperator, Option.bind_eq_bind, Option.bind_some] at hv
    obtain ⟨a, ha, hv⟩ := Option.bind_eq_some_iff.mp hv
    exact N.type_apply hv hτ
  | @binary fullStart start stop l operator r t hoperator ht hl hr ihl ihr =>
    intro v hv
    simp only [LiteralType.ofNode?, hoperator, Option.bind_some] at hτ
    simp only [evaluate, hoperator, Option.bind_eq_bind, Option.bind_some] at hv
    obtain ⟨a, ha, hv⟩ := Option.bind_eq_some_iff.mp hv
    obtain ⟨b, hb, hv⟩ := Option.bind_eq_some_iff.mp hv
    have hinl := fun n (hn : n ∈ l.preorder) => hjoins n (Node.mem_preorder_of_child (by simp) hn)
    have hinr := fun n (hn : n ∈ r.preorder) => hjoins n (Node.mem_preorder_of_child (by simp) hn)
    refine N.type_combine hv (fun τ hτ => ihl hinl hτ a ha) (fun τ hτ => ihr hinr hτ b hb) ?_ hτ
    intro hlogic
    obtain ⟨hbl, hbr⟩ := hjoins _ (Node.self_mem_preorder _) l operator r rfl
      (by rw [hoperator]; simpa using hlogic)
    exact ⟨ihl hinl hbl a ha, ihr hinr hbr b hb⟩

/-- Two numbers that are joined with `&&` are said to be a truth value, and they make a number. -/
theorem conjunction_misjudged :
    ∃ root e, parse "1 && 2;" = .ok root ∧ e ∈ root.preorder ∧ IsConstant e
      ∧ LiteralType.ofNode? e = some .boolean
      ∧ ∀ (ν : Type) (N : Arithmetic ν), ∃ v, evaluate N "1 && 2;" e = some v
        ∧ v.type = .number := by
  let e : Ast := ⟨.binaryExpression, 0, 0, 6, [⟨.numericLiteral, 0, 0, 1, []⟩,
    ⟨.operator (some .andAnd), 1, 2, 4, []⟩, ⟨.numericLiteral, 4, 5, 6, []⟩]⟩
  let root : Ast := ⟨.sourceFile, 0, 0, 7, [⟨.expressionStatement, 0, 0, 7, [e]⟩]⟩
  have hparse : parse "1 && 2;" = .ok root := eq_ok_of_toOption (by decide +kernel)
  refine ⟨root, e, hparse, ?_, ?_, rfl, fun ν N => ?_⟩
  · have hstatement := Node.mem_preorder_of_mem_children (n := root) List.mem_cons_self
    exact Node.mem_preorder_child hstatement List.mem_cons_self
  · exact .binary rfl rfl (.literal (by decide)) (.literal (by decide))
  · refine ⟨_, rfl, ?_⟩
    split
    · rfl
    · rfl

end Transcode.Script
