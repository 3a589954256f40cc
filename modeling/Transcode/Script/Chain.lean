import Transcode.Script.Kind

namespace Transcode.Script

/-!
# Operator chains

A run of operands with binary operators in between makes one tree.  Operands and operators come
in one at a time: a new operator takes over the right end of the tree as far as what stands
there binds less tight, and all of it otherwise.  Operators of the same precedence therefore
group to the left.
-/

/-- A tree of binary operators over operands.  Each operator comes as its node and its
    precedence. -/
inductive Chain
  | operand (n : Ast)
  | binary (left : Chain) (operator : Ast) (precedence : Nat) (right : Chain)

namespace Chain

/-- Add an operator and the operand after it at the right end. -/
def push : Chain → Ast → Nat → Ast → Chain
  | operand n, operator, precedence, right =>
    binary (operand n) operator precedence (operand right)
  | binary l op p r, operator, precedence, right =>
    if p < precedence then binary l op p (r.push operator precedence right)
    else binary (binary l op p r) operator precedence (operand right)

/-- The operands and operators of a chain from left to right. -/
def inOrder : Chain → List Ast
  | operand n => [n]
  | binary l operator _ r => l.inOrder ++ operator :: r.inOrder

/-- What is added comes last, and nothing else moves. -/
theorem inOrder_push (c : Chain) (operator : Ast) (precedence : Nat) (right : Ast) :
    (c.push operator precedence right).inOrder = c.inOrder ++ [operator, right] := by
  induction c with
  | operand n => rfl
  | binary l op p r _ ih =>
    rw [push]
    split
    · rw [inOrder, ih, inOrder, List.append_assoc, List.cons_append]
    · rfl

/-- The syntax tree of a chain.  A binary expression reaches from its first operand to its
    last. -/
def toAst : Chain → Ast
  | operand n => n
  | binary l operator _ r =>
    let left := l.toAst
    let right := r.toAst
    { kind := .binaryExpression
      fullStart := left.fullStart
      start := left.start
      stop := right.stop
      children := [left, operator, right] }

/-- What holds all through the operands and operators of a chain holds all through its tree, if it
    passes from the left side of an operation to the whole. -/
theorem forall_preorder_toAst {P : Ast → Prop} {c : Chain}
    (hbinary : ∀ l operator p r, P (toAst l) → P (toAst (binary l operator p r)))
    (h : ∀ v ∈ c.inOrder, ∀ n ∈ v.preorder, P n) : ∀ n ∈ c.toAst.preorder, P n := by
  induction c with
  | operand n => exact h n (List.mem_singleton_self n)
  | binary l op p r ihl ihr =>
    simp only [inOrder, List.forall_mem_append, List.forall_mem_cons] at h
    have hleft := ihl h.1
    refine Node.forall_preorder (hbinary l op p r (hleft _ (Node.self_mem_preorder _))) ?_
    simp only [toAst, List.forall_mem_cons]
    exact ⟨hleft, h.2.1, ihr h.2.2, List.forall_mem_nil _⟩

end Chain

end Transcode.Script
