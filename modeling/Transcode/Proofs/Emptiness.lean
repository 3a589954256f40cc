import Transcode.Proofs.Embedding

namespace Transcode.Output

open Text

/-!
# Empty output

A tree is built by calls, from within: what a tree begins with and what it holds was built before it
(`Recipe`).  Empty fragments are dropped where fragments are handed over, and a tree may be empty
because all that it was given is.  So it makes no difference where empty fragments were put in and
how many of them (`Recipe.Padded`), and no fragment at any depth of a tree that was built is empty
(`empty_fragments_vanish`).

A tree with nothing in it that is written by itself is not dropped.  It still breaks the line if its
layout says so, and adds nothing otherwise (`buffer_of_isEmpty`).
-/

/-! ### Ways of building a tree -/

/-- A call that changes the layout of a tree. -/
inductive LayoutChange
  | newline
  | indent (spaces : Int)
  | separator (content : String)
  | suffix (content : String)
  | comments
  | key (name : String)

/-- The tree with that layout. -/
def LayoutChange.apply (t : Tree) : LayoutChange → Tree
  | .newline => t.withNewline
  | .indent spaces => t.withIndent spaces
  | .separator content => t.withSeparator content
  | .suffix content => t.withSuffix content
  | .comments => t.withComments
  | .key name => t.withKey name

mutual

/-- A way of building a tree: the calls in order, the last one outermost. -/
inductive Recipe
  | empty
  | ofText (content : String)
  | ofFragments (items : List Ingredient)
  | withBody (r : Recipe) (items : List Ingredient)
  | change (r : Recipe) (c : LayoutChange)

/-- What is handed over where fragments are asked for.  It may be missing. -/
inductive Ingredient
  | missing
  | text (content : String)
  | tree (r : Recipe)

end

mutual

/-- The tree that is built. -/
def Recipe.build : Recipe → Tree
  | .empty => .empty
  | .ofText content => .ofText content
  | .ofFragments items => .ofFragments (Ingredient.fragments items)
  | .withBody r items => r.build.withBody (Ingredient.fragments items)
  | .change r c => c.apply r.build

/-- The fragment that is handed over.  What is missing is an empty text. -/
def Ingredient.fragment : Ingredient → Fragment
  | .missing => .text ""
  | .text content => .text content
  | .tree r => r.build.toFragment

/-- The fragments that are handed over. -/
def Ingredient.fragments : List Ingredient → List Fragment
  | [] => []
  | item :: rest => item.fragment :: Ingredient.fragments rest

end

mutual

/-- The second way of building a tree is the first one, with empty fragments put in here and
    there. -/
inductive Recipe.Padded : Recipe → Recipe → Prop
  | refl (r : Recipe) : Recipe.Padded r r
  | ofFragments {items items' : List Ingredient} :
      Padding items items' → Recipe.Padded (.ofFragments items) (.ofFragments items')
  | withBody {r r' : Recipe} {items items' : List Ingredient} :
      r.Padded r' → Padding items items' → Recipe.Padded (.withBody r items) (.withBody r' items')
  | change {r r' : Recipe} (c : LayoutChange) :
      r.Padded r' → Recipe.Padded (.change r c) (.change r' c)

/-- The second list is the first one with empty fragments put in, between its items or inside of
    them. -/
inductive Padding : List Ingredient → List Ingredient → Prop
  | nil : Padding [] []
  | keep (item : Ingredient) {items items' : List Ingredient} :
      Padding items items' → Padding (item :: items) (item :: items')
  | inside {r r' : Recipe} {items items' : List Ingredient} :
      r.Padded r' → Padding items items' → Padding (.tree r :: items) (.tree r' :: items')
  | insert {item : Ingredient} {items items' : List Ingredient} :
      item.fragment.isEmpty = true → Padding items items' → Padding items (item :: items')

end

/-! ### Padding makes no difference -/

/-- Which fragments of a list are kept depends on its first fragment and on those of the rest. -/
theorem nonempty_cons_congr (f : Fragment) {fs gs : List Fragment}
    (h : nonempty fs = nonempty gs) : nonempty (f :: fs) = nonempty (f :: gs) := by
  cases hf : f.isEmpty with
  | true => rw [nonempty_cons_of_isEmpty hf, nonempty_cons_of_isEmpty hf, h]
  | false => rw [nonempty_cons hf, nonempty_cons hf, h]

mutual

/-- With empty fragments put in, the same tree is built. -/
theorem Recipe.Padded.build_eq {r r' : Recipe} (h : r.Padded r') : r'.build = r.build := by
  match h with
  | .refl r => rfl
  | .ofFragments hitems =>
    rw [Recipe.build, Recipe.build, Tree.ofFragments, Tree.ofFragments, hitems.nonempty_eq]
  | .withBody hr hitems =>
    rw [Recipe.build, Recipe.build, Tree.withBody, Tree.withBody, hr.build_eq, hitems.nonempty_eq]
  | .change c hr => rw [Recipe.build, Recipe.build, hr.build_eq]

/-- The same fragments are kept. -/
theorem Padding.nonempty_eq {items items' : List Ingredient} (h : Padding items items') :
    nonempty (Ingredient.fragments items') = nonempty (Ingredient.fragments items) := by
  match h with
  | .nil => rfl
  | .keep item hitems =>
    rw [Ingredient.fragments, Ingredient.fragments]
    exact nonempty_cons_congr _ hitems.nonempty_eq
  | .inside hr hitems =>
    rw [Ingredient.fragments, Ingredient.fragments, Ingredient.fragment, Ingredient.fragment,
      hr.build_eq]
    exact nonempty_cons_congr _ hitems.nonempty_eq
  | .insert hitem hitems =>
    rw [Ingredient.fragments, nonempty_cons_of_isEmpty hitem]
    exact hitems.nonempty_eq

end

/-! ### No fragment inside is empty -/

mutual

/-- The fragments inside of a fragment, at any depth. -/
def Fragment.inner : Fragment → List Fragment
  | .text _ => []
  | .node lead body _ => innerAll lead ++ innerAll body

/-- Some fragments and those inside of them. -/
def innerAll : List Fragment → List Fragment
  | [] => []
  | f :: rest => f :: (f.inner ++ innerAll rest)

end

theorem mem_innerAll {f : Fragment} {fs : List Fragment} :
    f ∈ innerAll fs ↔ ∃ g ∈ fs, f = g ∨ f ∈ g.inner := by
  induction fs with
  | nil => simp [innerAll]
  | cons g fs ih => simp [innerAll, ih, or_assoc]

/-- No fragment inside is empty. -/
def Fragment.IsPure (f : Fragment) : Prop :=
  ∀ g ∈ f.inner, g.isEmpty = false

/-- What is kept of fragments in which none is empty. -/
theorem isEmpty_of_mem_innerAll {f : Fragment} {fs : List Fragment} (hfs : ∀ g ∈ fs, g.IsPure)
    (h : f ∈ innerAll (nonempty fs)) : f.isEmpty = false := by
  obtain ⟨g, hg, rfl | hinner⟩ := mem_innerAll.mp h
  · exact isEmpty_of_mem_nonempty hg
  · exact hfs g (List.mem_of_mem_filter hg) f hinner

/-- A layout change is none of what is inside. -/
theorem inner_apply (t : Tree) (c : LayoutChange) :
    (c.apply t).toFragment.inner = t.toFragment.inner := by
  cases c <;> rfl

mutual

theorem Recipe.isPure_build (r : Recipe) : r.build.toFragment.IsPure := by
  match r with
  | .empty => exact List.forall_mem_nil _
  | .ofText content =>
    intro f hf
    obtain hlead | hbody := List.mem_append.mp hf
    · have htext : ∀ f ∈ [Fragment.text content], f.IsPure :=
        List.forall_mem_singleton.mpr (List.forall_mem_nil _)
      exact isEmpty_of_mem_innerAll htext hlead
    · cases hbody
  | .ofFragments items =>
    intro f hf
    obtain hlead | hbody := List.mem_append.mp hf
    · exact isEmpty_of_mem_innerAll (isPure_of_mem_fragments items) hlead
    · cases hbody
  | .withBody r items =>
    intro f hf
    obtain hlead | hbody := List.mem_append.mp hf
    · exact r.isPure_build f (List.mem_append_left _ hlead)
    · exact isEmpty_of_mem_innerAll (isPure_of_mem_fragments items) hbody
  | .change r c =>
    rw [Recipe.build, Fragment.IsPure, inner_apply]
    exact r.isPure_build

theorem isPure_of_mem_fragments (items : List Ingredient) :
    ∀ f ∈ Ingredient.fragments items, f.IsPure := by
  match items with
  | [] => exact List.forall_mem_nil _
  | .missing :: rest | .text _ :: rest =>
    exact List.forall_mem_cons.mpr ⟨List.forall_mem_nil _, isPure_of_mem_fragments rest⟩
  | .tree r :: rest =>
    exact List.forall_mem_cons.mpr ⟨r.isPure_build, isPure_of_mem_fragments rest⟩

end

/-- **Empty fragments vanish.**  Wherever empty fragments are put in while a tree is built, at the
    beginning of a tree or in its body, at any depth and whatever layouts they have, the tree is the
    same in the end, and so is what becomes of a sink that it is written to: its text, its
    indentations and requests, and the keys that fired.  No fragment at any depth of a tree that was
    built is empty. -/
theorem empty_fragments_vanish :
    (∀ r r' : Recipe, r.Padded r' → r'.build = r.build
        ∧ ∀ (s : Sink) (strategy : Strategy),
          s.writeTreeWith r'.build strategy = s.writeTreeWith r.build strategy)
      ∧ ∀ r : Recipe, ∀ f ∈ r.build.toFragment.inner, f.isEmpty = false := by
  refine ⟨fun r r' h => ?_, Recipe.isPure_build⟩
  have hbuild := h.build_eq
  exact ⟨hbuild, fun s strategy => by rw [hbuild]⟩

/-- A list with empty fragments put in before and inside of its items: a missing one, a text, and
    trees with keys and layouts of which one is empty only because all that it was given is. -/
theorem empty_fragments_vanish_nested :
    let bare := Recipe.change (.change (.change .empty .newline) (.indent 2)) (.key "k")
    let hollow := Recipe.change (.withBody (.ofFragments [.tree bare, .text ""]) [.missing])
      (.separator ",")
    let inner := Recipe.withBody (.ofText "[") [.text "b"]
    let inner' := Recipe.withBody (.ofText "[") [.tree hollow, .text "b", .missing]
    let list := fun items => Recipe.change (.change (.withBody (.ofFragments items) items)
      (.separator ", ")) (.suffix ")")
    let r := list [.text "a", .tree inner]
    let r' := list [.tree bare, .text "a", .tree hollow, .text "", .tree inner']
    r.Padded r' ∧ hollow.build.isEmpty = true ∧ r'.build = r.build
      ∧ Sink.writeTreeWith {} r'.build .workList = Sink.writeTreeWith {} r.build .workList
      ∧ render r'.build = "a[ba, [b)"
      ∧ ∀ f ∈ r'.build.toFragment.inner, f.isEmpty = false := by
  intro bare hollow inner inner' list r r'
  have hinner : inner.Padded inner' :=
    .withBody (.refl _) (.insert (by decide +kernel) (.keep _ (.insert rfl .nil)))
  have hitems : Padding [.text "a", .tree inner]
      [.tree bare, .text "a", .tree hollow, .text "", .tree inner'] :=
    .insert (by decide +kernel) (.keep _ (.insert (by decide +kernel)
      (.insert (by decide +kernel) (.inside hinner .nil))))
  have hlist : r.Padded r' :=
    .change _ (.change _ (.withBody (.ofFragments hitems) hitems))
  obtain ⟨hsame, hwrite⟩ := empty_fragments_vanish.1 r r' hlist
  exact ⟨hlist, by decide +kernel, hsame, hwrite {} .workList, by decide +kernel,
    empty_fragments_vanish.2 r'⟩

/-! ### Empty trees by themselves -/

section

variable {t : Tree} {s : Sink}

/-- An empty tree has nothing to write but the line break before its body. -/
theorem writeTree_of_isEmpty (h : t.isEmpty = true) (s : Sink) :
    let recorded := s.recordKey t.layout.renderOnce
    s.writeTree t = if recorded.2 && t.layout.newline then
        (recorded.1.request t.layout.indent).1.newline.restore
          (recorded.1.request t.layout.indent).2
      else recorded.1 := by
  intro recorded
  obtain ⟨lead, body, layout⟩ := t
  simp only [Tree.isEmpty, Bool.and_eq_true, List.isEmpty_iff, Option.isNone_iff_eq_none] at h
  obtain ⟨⟨rfl, rfl⟩, hsuffix⟩ := h
  have hclose : ∀ (s : Sink) (restore : Restore),
      s.closeBody layout restore = s.restore restore := by
    intro s restore
    rw [Sink.closeBody, Sink.writeSuffix, hsuffix]
  show s.writeFragment (.node [] [] layout) = _
  rw [Sink.writeFragment, show s.recordKey layout.renderOnce = recorded from rfl]
  clear_value recorded
  obtain ⟨s', _ | _⟩ := recorded
  · rfl
  · show Sink.closeBody (s'.openBody layout).1 layout (s'.openBody layout).2 = _
    rw [hclose, Sink.openBody]
    cases hnewline : layout.newline with
    | false => exact s'.restore_request layout.indent
    | true => rfl

/-- **What an empty tree writes by itself.**  By either strategy and to any sink, it breaks the line
    if its layout says so and it has no key that fired before, and writes the indentation that
    follows; otherwise it adds nothing. -/
theorem buffer_of_isEmpty (h : t.isEmpty = true) (s : Sink) (strategy : Strategy) :
    let recorded := s.recordKey t.layout.renderOnce
    (s.writeTreeWith t strategy).buffer = if recorded.2 && t.layout.newline then
        s.buffer ++ "\n" ++ spaces (recorded.1.request t.layout.indent).1.applyPending.indentation
      else s.buffer := by
  intro recorded
  have hrecorded : recorded.1.buffer = s.buffer := buffer_recordKey s _
  have hbreak : ∀ s : Sink, s.newline.buffer
      = s.buffer ++ "\n" ++ spaces s.applyPending.indentation := by
    intro s
    rw [Sink.newline, write_eq]
    show s.buffer ++ indented s.applyPending.indentation "\n" = _
    rw [indented, String.append_assoc]
    simp [Sink.indentBreaks, spaces]
  rw [Sink.writeTreeWith_eq, writeTree_of_isEmpty h]
  split
  · rw [buffer_restore, hbreak, ← hrecorded]
    rfl
  · exact hrecorded

end

/-- An empty tree does not print nothing whatever its layout: it may break the line. -/
theorem empty_tree_breaks_line :
    ¬ ∀ (r : Recipe) (s : Sink), r.build.isEmpty = true →
      (s.writeTree r.build).buffer = s.buffer ∧ (s.writeTreeByWork r.build).buffer = s.buffer := by
  intro hclaim
  have hsame := hclaim (.change .empty .newline) {} rfl
  exact absurd hsame.1 (by decide +kernel)

end Transcode.Output
