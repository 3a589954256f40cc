namespace Transcode

/-!
# Syntax nodes

A node of a syntax tree has a kind, its place in the source and its children in source order.
Its place is three byte offsets: where its leading whitespace and comments begin
(`fullStart`), where its first token begins (`start`) and where its last token ends (`stop`).
The engine only reads nodes, and expects nothing of the offsets.
-/

/-- A node whose kind is taken from `κ`. -/
structure Node (κ : Type) where
  kind : κ
  fullStart : Nat
  start : Nat
  stop : Nat
  children : List (Node κ)
  deriving Repr, Inhabited

/-- Kinds that have a name to show to people. -/
class Named (κ : Type) where
  name : κ → String

/-- A kind that is nothing but a name. -/
instance : Named String := ⟨id⟩

namespace Node

variable {κ : Type}

/-- The name of the node's kind. -/
def kindName [Named κ] (n : Node κ) : String :=
  Named.name n.kind

mutual

/-- The nodes of a tree in pre-order, each with its depth; the root has depth `depth`. -/
def preorderFrom (depth : Nat) : Node κ → List (Nat × Node κ)
  | ⟨kind, fullStart, start, stop, children⟩ =>
    (depth, ⟨kind, fullStart, start, stop, children⟩) :: preorderAll (depth + 1) children

/-- The nodes of some trees in pre-order, each with its depth. -/
def preorderAll (depth : Nat) : List (Node κ) → List (Nat × Node κ)
  | [] => []
  | n :: rest => preorderFrom depth n ++ preorderAll depth rest

end

/-- The nodes of a tree, parents before their children and in source order. -/
def preorder (n : Node κ) : List (Node κ) :=
  (n.preorderFrom 0).map (·.2)

mutual

/-- The depth is only a label. -/
theorem map_preorderFrom (depth : Nat) : ∀ n : Node κ,
    (n.preorderFrom depth).map (·.2) = (n.preorderFrom 0).map (·.2)
  | ⟨kind, fullStart, start, stop, children⟩ => by
    rw [preorderFrom, preorderFrom, List.map_cons, List.map_cons,
      map_preorderAll (depth + 1), map_preorderAll (0 + 1)]

/-- The nodes of several trees are visited tree by tree. -/
theorem map_preorderAll (depth : Nat) : ∀ ns : List (Node κ),
    (preorderAll depth ns).map (·.2) = ns.flatMap preorder
  | [] => rfl
  | n :: rest => by
    rw [preorderAll, List.map_append, map_preorderFrom depth n, map_preorderAll depth rest]
    rfl

end

/-- The nodes of a tree are its root and the nodes of its children. -/
theorem preorder_eq (n : Node κ) : n.preorder = n :: n.children.flatMap preorder := by
  obtain ⟨kind, fullStart, start, stop, children⟩ := n
  rw [preorder, preorderFrom, List.map_cons, map_preorderAll]

/-- A node of a tree is its root or a node of a child. -/
theorem mem_preorder {m n : Node κ} :
    m ∈ n.preorder ↔ m = n ∨ ∃ child ∈ n.children, m ∈ child.preorder := by
  rw [preorder_eq, List.mem_cons, List.mem_flatMap]

/-- The root is a node of its tree. -/
theorem self_mem_preorder (n : Node κ) : n ∈ n.preorder :=
  mem_preorder.mpr (.inl rfl)

/-- What is below a child is below the node. -/
theorem mem_preorder_of_child {child m n : Node κ} (h : child ∈ n.children)
    (hm : m ∈ child.preorder) : m ∈ n.preorder :=
  mem_preorder.mpr (.inr ⟨child, h, hm⟩)

/-- What holds of a node, and in the trees of its children, holds in its whole tree. -/
theorem forall_preorder {P : Node κ → Prop} {n : Node κ} (h : P n)
    (hchildren : ∀ child ∈ n.children, ∀ m ∈ child.preorder, P m) : ∀ m ∈ n.preorder, P m := by
  intro m hm
  rcases mem_preorder.mp hm with rfl | ⟨child, hchild, hm⟩
  · exact h
  · exact hchildren child hchild m hm

/-- What holds of a node as soon as it holds of its children holds of every node. -/
@[elab_as_elim]
theorem induction {motive : Node κ → Prop}
    (h : ∀ n : Node κ, (∀ child ∈ n.children, motive child) → motive n) : ∀ n, motive n
  | ⟨kind, fullStart, start, stop, children⟩ =>
    h ⟨kind, fullStart, start, stop, children⟩ fun child (_ : child ∈ children) =>
      induction h child

/-- The nodes of a tree inside a tree are nodes of that. -/
theorem mem_preorder_trans {k m n : Node κ} (hm : m ∈ n.preorder) (hk : k ∈ m.preorder) :
    k ∈ n.preorder := by
  induction n using Node.induction with
  | h n ih =>
    rcases mem_preorder.mp hm with rfl | ⟨child, hchild, hm⟩
    · exact hk
    · exact mem_preorder_of_child hchild (ih child hchild hm)

/-- What holds throughout a tree holds throughout the trees inside it. -/
theorem forall_preorder_of_mem {P : Node κ → Prop} {m n : Node κ} (h : ∀ k ∈ n.preorder, P k)
    (hm : m ∈ n.preorder) : ∀ k ∈ m.preorder, P k :=
  fun k hk => h k (mem_preorder_trans hm hk)

/-- Children are nodes of the tree. -/
theorem mem_preorder_of_mem_children {child n : Node κ} (h : child ∈ n.children) :
    child ∈ n.preorder :=
  mem_preorder_of_child h child.self_mem_preorder

/-- So are the children of its nodes. -/
theorem mem_preorder_child {child m n : Node κ} (hm : m ∈ n.preorder) (h : child ∈ m.children) :
    child ∈ n.preorder :=
  mem_preorder_trans hm (mem_preorder_of_mem_children h)

mutual

/-- Whether two trees are the same. -/
def decEq [DecidableEq κ] : (m n : Node κ) → Decidable (m = n)
  | ⟨kind, fullStart, start, stop, children⟩, ⟨kind', fullStart', start', stop', children'⟩ =>
    have := decEqAll children children'
    decidable_of_iff (kind = kind' ∧ fullStart = fullStart' ∧ start = start' ∧ stop = stop'
      ∧ children = children') (iff_of_eq (mk.injEq ..).symm)

/-- Whether two lists of trees are the same. -/
def decEqAll [DecidableEq κ] : (ms ns : List (Node κ)) → Decidable (ms = ns)
  | [], [] => isTrue rfl
  | [], _ :: _ => isFalse nofun
  | _ :: _, [] => isFalse nofun
  | m :: ms, n :: ns =>
    have := decEq m n
    have := decEqAll ms ns
    decidable_of_iff (m = n ∧ ms = ns) (iff_of_eq (List.cons.injEq ..).symm)

end

instance [DecidableEq κ] : DecidableEq (Node κ) := decEq

/-- The node that a path of child indices leads to. -/
def descend? (n : Node κ) : List Nat → Option (Node κ)
  | [] => some n
  | i :: path => n.children[i]?.bind (descend? · path)

end Node

end Transcode
