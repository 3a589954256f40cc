import Transcode.Proofs.CommentOrder

namespace Transcode.Target

open Script

/-!
# Parents

Nodes are values, and so it takes a word that a node stands in one place only.  In a source that
parses, siblings lie apart and every node below the root has some text, so that no node is in the
tree twice: its siblings are other nodes (`nodup_children_of_parse`) and it is a child of one node
only (`parent_unique`).
-/

/-- In a tree, one node is a child of another. -/
structure ChildOf (root m n : Ast) : Prop where
  parent : m ∈ root.preorder
  child : n ∈ m.children

section

variable {source : String} {root m n k d e : Ast}

/-- A tree is bigger than the trees below its root. -/
theorem length_preorder_lt (h : d ∈ n.children) : d.preorder.length < n.preorder.length := by
  obtain ⟨front, back, hchildren⟩ := List.append_of_mem h
  rw [Node.preorder_eq n, hchildren, List.flatMap_append, List.flatMap_cons]
  simp only [List.length_cons, List.length_append]
  omega

theorem length_preorder_le (h : k ∈ n.preorder) : k.preorder.length ≤ n.preorder.length := by
  induction n using Node.induction with
  | h n ih =>
    rcases Node.mem_preorder.mp h with rfl | ⟨child, hchild, hk⟩
    · exact Nat.le_refl _
    · exact Nat.le_trans (ih child hchild hk) (Nat.le_of_lt (length_preorder_lt hchild))

/-- No node is below itself. -/
theorem not_mem_children_of_mem_preorder (h : k ∈ d.preorder) : d ∉ k.children := fun hd =>
  Nat.not_le_of_lt (length_preorder_lt hd) (length_preorder_le h)

theorem ChildOf.mem_preorder (h : ChildOf root m n) : n ∈ root.preorder :=
  Node.mem_preorder_child h.parent h.child

variable (hparse : parse source = .ok root)

include hparse

/-- A node below the root has some text. -/
theorem ChildOf.start_lt_stop (h : ChildOf root m d) (hn : n ∈ d.preorder) : n.start < n.stop := by
  obtain ⟨v, hv, hd⟩ : ∃ v ∈ root.children, d ∈ v.preorder := by
    rcases Node.mem_preorder.mp h.parent with rfl | ⟨v, hv, hm⟩
    · exact ⟨d, h.child, d.self_mem_preorder⟩
    · exact ⟨v, hv, Node.mem_preorder_child hm h.child⟩
  exact (bounds_of_parse hparse v hv n (Node.mem_preorder_trans hd hn)).1

/-- The nodes of a tree lie within it. -/
theorem place_of_parse (hd : d ∈ root.preorder) (hn : n ∈ d.preorder) :
    d.fullStart ≤ n.fullStart ∧ n.fullStart ≤ n.start ∧ n.stop ≤ d.stop := by
  have hnests := Node.forall_preorder_of_mem (nests_of_parse hparse) hd
  obtain ⟨hfull, hstop, -⟩ := place_of_mem_preorder hnests hn
  exact ⟨hfull, (hnests n hn).fullStart_le, hstop⟩

/-- A node is below one child only. -/
theorem eq_of_mem_preorder (hd : ChildOf root m d) (he : ChildOf root m e) (hnd : n ∈ d.preorder)
    (hne : n ∈ e.preorder) : d = e := by
  have hsolid := hd.start_lt_stop hparse hnd
  have hplace := place_of_parse hparse hd.mem_preorder hnd
  have hplace' := place_of_parse hparse he.mem_preorder hne
  have hapart : m.children.Pairwise fun a b => a.stop ≤ b.fullStart ∨ b.stop ≤ a.fullStart :=
    (nests_of_parse hparse m hd.parent).apart.imp .inl
  by_contra hdiffer
  have : Std.Symm fun a b : Ast => a.stop ≤ b.fullStart ∨ b.stop ≤ a.fullStart :=
    ⟨fun _ _ => Or.symm⟩
  rcases hapart.forall hd.child he.child hdiffer with hbefore | hafter <;> omega

/-- The children of a node are different nodes. -/
theorem nodup_children_of_parse (hm : m ∈ root.preorder) : m.children.Nodup := by
  refine (nests_of_parse hparse m hm).apart.imp_of_mem fun {a b} ha _ hapart heq => ?_
  subst heq
  have hsolid := ChildOf.start_lt_stop hparse ⟨hm, ha⟩ a.self_mem_preorder
  have hplace := place_of_parse hparse (ChildOf.mem_preorder ⟨hm, ha⟩) a.self_mem_preorder
  omega

/-- **Parents.**  A node is a child of one node only. -/
theorem parent_unique (hm : ChildOf root m n) (hk : ChildOf root k n) : m = k := by
  -- The induction is on a tree that both nodes are in.
  suffices hbelow : ∀ v ∈ root.preorder, m ∈ v.preorder → k ∈ v.preorder → m = k from
    hbelow root root.self_mem_preorder hm.parent hk.parent
  intro v
  induction v using Node.induction with
  | h v ih =>
    intro hv hmv hkv
    rcases Node.mem_preorder.mp hmv with rfl | ⟨d, hd, hmd⟩
    · rcases Node.mem_preorder.mp hkv with rfl | ⟨e, he, hke⟩
      · rfl
      · have hne : n ∈ e.preorder :=
          Node.mem_preorder_child hke hk.child
        obtain rfl := eq_of_mem_preorder hparse hm ⟨hv, he⟩ n.self_mem_preorder hne
        exact absurd hk.child (not_mem_children_of_mem_preorder hke)
    · have hnd : n ∈ d.preorder :=
        Node.mem_preorder_child hmd hm.child
      rcases Node.mem_preorder.mp hkv with rfl | ⟨e, he, hke⟩
      · obtain rfl := eq_of_mem_preorder hparse hk ⟨hv, hd⟩ n.self_mem_preorder hnd
        exact absurd hm.child (not_mem_children_of_mem_preorder hmd)
      · have hne : n ∈ e.preorder :=
          Node.mem_preorder_child hke hk.child
        obtain rfl := eq_of_mem_preorder hparse ⟨hv, hd⟩ ⟨hv, he⟩ hnd hne
        exact ih d hd (ChildOf.mem_preorder ⟨hv, hd⟩) hmd hke

end

end Transcode.Target
