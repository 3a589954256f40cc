namespace Transcode.Output

/-!
# Output trees

A piece of output is a *fragment*: a text, or a tree of further fragments.  A tree has the
fragments it begins with (`lead`), the fragments it holds (`body`), and a `Layout` that says
how the body is indented, separated and closed.

Trees are built with `Tree.ofFragments` and the `with…` functions, which drop empty
fragments.  So an empty tree leaves no trace wherever it is put: it neither prints nor asks
for a separator.
-/

/-- How a tree lays out its body. -/
structure Layout where
  /-- Break the line before the body. -/
  newline : Bool := false
  /-- Spaces by which the lines of the body are indented further. -/
  indent : Int := 0
  /-- Stands between two fragments of the body when the first one shows something. -/
  separator : Option String := none
  /-- Follows the body, at the indentation outside it. -/
  suffix : Option String := none
  /-- Ask for the comments before the node that the tree was made from. -/
  attachComment : Bool := false
  /-- A key that lets only the first tree carrying it be written. -/
  renderOnce : Option String := none
  deriving DecidableEq, Repr

/-- A piece of output. -/
inductive Fragment
  | text (content : String)
  | node (lead body : List Fragment) (layout : Layout)
  deriving Repr, Inhabited

/-- A fragment that is a tree. -/
structure Tree where
  lead : List Fragment
  body : List Fragment
  layout : Layout
  deriving Repr

namespace Tree

/-- The tree as a piece of other output. -/
def toFragment (t : Tree) : Fragment :=
  .node t.lead t.body t.layout

instance : Coe Tree Fragment := ⟨toFragment⟩

/-- The tree without any content. -/
def empty : Tree := ⟨[], [], {}⟩

instance : Inhabited Tree := ⟨empty⟩

/-- A tree is empty when it has no fragments and nothing to close with; the rest of its
    layout prints nothing by itself. -/
def isEmpty (t : Tree) : Bool :=
  t.lead.isEmpty && t.body.isEmpty && t.layout.suffix.isNone

end Tree

/-- A fragment is empty when it adds nothing to the output. -/
def Fragment.isEmpty : Fragment → Bool
  | .text content => content.isEmpty
  | .node lead body layout => Tree.isEmpty ⟨lead, body, layout⟩

/-- The fragments of a list that add something. -/
def nonempty (fragments : List Fragment) : List Fragment :=
  fragments.filter (!·.isEmpty)

@[simp] theorem nonempty_append (a b : List Fragment) :
    nonempty (a ++ b) = nonempty a ++ nonempty b :=
  List.filter_append ..

/-- An empty fragment among others makes no difference. -/
theorem nonempty_cons_of_isEmpty {f : Fragment} (h : f.isEmpty = true) (fs : List Fragment) :
    nonempty (f :: fs) = nonempty fs := by
  simp [nonempty, h]

/-- Any other is kept. -/
theorem nonempty_cons {f : Fragment} (h : f.isEmpty = false) (fs : List Fragment) :
    nonempty (f :: fs) = f :: nonempty fs := by
  simp [nonempty, h]

/-- Where no fragment is empty, all are kept. -/
theorem nonempty_eq_self {fs : List Fragment} (h : ∀ f ∈ fs, f.isEmpty = false) :
    nonempty fs = fs := by
  induction fs with
  | nil => rfl
  | cons f fs ih =>
    obtain ⟨hf, hfs⟩ := List.forall_mem_cons.mp h
    rw [nonempty_cons hf, ih hfs]

/-- No fragment that is kept is empty. -/
theorem isEmpty_of_mem_nonempty {f : Fragment} {fs : List Fragment} (h : f ∈ nonempty fs) :
    f.isEmpty = false := by
  simpa [nonempty] using (List.mem_filter.mp h).2

namespace Tree

/-! ### Building trees -/

/-- A closing text, if it closes with anything. -/
def closing? (suffix : String) : Option String :=
  if suffix.isEmpty then none else some suffix

/-- A tree with all its parts at once. -/
def make (lead body : List Fragment) (layout : Layout) : Tree where
  lead := nonempty lead
  body := nonempty body
  layout := { layout with suffix := layout.suffix.bind closing? }

/-- A tree that begins with some fragments and holds nothing. -/
def ofFragments (fragments : List Fragment) : Tree :=
  { empty with lead := nonempty fragments }

/-- A tree of one text. -/
def ofText (content : String) : Tree :=
  ofFragments [.text content]

/-- Let the tree hold the given fragments. -/
def withBody (t : Tree) (fragments : List Fragment) : Tree :=
  { t with body := nonempty fragments }

/-- Break the line before the body. -/
def withNewline (t : Tree) : Tree :=
  { t with layout := { t.layout with newline := true } }

/-- Indent the lines of the body further. -/
def withIndent (t : Tree) (spaces : Int) : Tree :=
  { t with layout := { t.layout with indent := spaces } }

/-- Let a text stand between the fragments of the body. -/
def withSeparator (t : Tree) (separator : String) : Tree :=
  { t with layout := { t.layout with separator := some separator } }

/-- Close the tree with a text; an empty one closes it with nothing. -/
def withSuffix (t : Tree) (suffix : String) : Tree :=
  { t with layout := { t.layout with suffix := closing? suffix } }

/-- Ask for the comments before the node of the tree. -/
def withComments (t : Tree) : Tree :=
  { t with layout := { t.layout with attachComment := true } }

/-- Let the tree be written only if no tree with the same key was. -/
def withKey (t : Tree) (key : String) : Tree :=
  { t with layout := { t.layout with renderOnce := some key } }

/-- Whether the tree asks for the comments before its node. -/
def wantsComments (t : Tree) : Bool :=
  t.layout.attachComment

end Tree

/-! ### Counting -/

mutual

/-- The number of trees in a fragment. -/
def Fragment.treeCount : Fragment → Nat
  | .text _ => 0
  | .node lead body _ => 1 + treeCountAll lead + treeCountAll body

/-- The number of trees in a list of fragments. -/
def treeCountAll : List Fragment → Nat
  | [] => 0
  | f :: rest => f.treeCount + treeCountAll rest

end

/-- The number of trees in a tree, itself included. -/
def Tree.treeCount (t : Tree) : Nat :=
  t.toFragment.treeCount

-- Empty fragments are dropped, so a tree of nothing but them is empty itself.
example : (Tree.ofFragments [.text "", Tree.empty.withNewline]).isEmpty = true := by
  decide +kernel

end Transcode.Output
