import Mathlib.Data.List.Dedup
import Transcode.Proofs.Strategies

namespace Transcode.Output

/-!
# Which keys fire

A tree with a key is written only if no tree with the same key was.  `Fragment.keyed` lists the
trees with a key that rendering comes across, in the order in which it does; what is inside of
them is their own matter.  As long as they hold no keys themselves, the keys that a sink records
are the keys of this list, each where it occurs first (`fired_writeTreeWith`).
-/

/-! ### Trees with keys -/

mutual

/-- The trees with a key in a fragment, not counting those inside others. -/
def Fragment.keyed : Fragment → List Tree
  | .text _ => []
  | .node lead body layout =>
    match layout.renderOnce with
    | none => keyedAll lead ++ keyedAll body
    | some _ => [⟨lead, body, layout⟩]

/-- The trees with a key in some fragments. -/
def keyedAll : List Fragment → List Tree
  | [] => []
  | f :: rest => f.keyed ++ keyedAll rest

end

/-- The trees with a key in a tree. -/
def Tree.keyed (t : Tree) : List Tree :=
  t.toFragment.keyed

/-- No tree inside the tree has a key. -/
def Tree.IsFlat (t : Tree) : Prop :=
  keyedAll t.lead = [] ∧ keyedAll t.body = []

/-- The key of a fragment that is a tree. -/
def Fragment.key? : Fragment → Option String
  | .text _ => none
  | .node _ _ layout => layout.renderOnce

/-- The keys of some trees. -/
def keysOf (ts : List Tree) : List String :=
  ts.filterMap (·.layout.renderOnce)

variable {t : Tree} {ts ts' : List Tree} {f : Fragment} {fs gs : List Fragment} {key : String}

theorem keyedAll_append : keyedAll (fs ++ gs) = keyedAll fs ++ keyedAll gs := by
  induction fs with
  | nil => rfl
  | cons f fs ih => rw [List.cons_append, keyedAll, keyedAll, ih, List.append_assoc]

theorem keyedAll_eq_nil (h : ∀ f ∈ fs, f.keyed = []) : keyedAll fs = [] := by
  induction fs with
  | nil => rfl
  | cons f fs ih =>
    obtain ⟨hf, hfs⟩ := List.forall_mem_cons.mp h
    rw [keyedAll, hf, ih hfs]
    rfl

/-- A tree without a key is looked into. -/
theorem Tree.keyed_of_none (h : t.layout.renderOnce = none) :
    t.keyed = keyedAll t.lead ++ keyedAll t.body := by
  rw [keyed, toFragment, Fragment.keyed, h]

theorem keyed_ofFragments (h : nonempty fs = fs) : (Tree.ofFragments fs).keyed = keyedAll fs := by
  rw [Tree.keyed_of_none rfl]
  show keyedAll (nonempty fs) ++ [] = keyedAll fs
  rw [h, List.append_nil]

/-- An empty fragment without a key holds none. -/
theorem Fragment.keyed_of_isEmpty (h : f.key? = none) (he : f.isEmpty = true) : f.keyed = [] := by
  cases f with
  | text content => rfl
  | node lead body layout =>
    rw [isEmpty, Tree.isEmpty, Bool.and_eq_true, Bool.and_eq_true] at he
    obtain rfl := List.isEmpty_iff.mp he.1.1
    obtain rfl := List.isEmpty_iff.mp he.1.2
    have hkey : layout.renderOnce = none := h
    rw [keyed, hkey]
    rfl

/-- Dropping empty fragments drops no key, unless an empty one has a key. -/
theorem keyedAll_nonempty (h : ∀ f ∈ fs, f.isEmpty = true → f.keyed = []) :
    keyedAll (nonempty fs) = keyedAll fs := by
  induction fs with
  | nil => rfl
  | cons f fs ih =>
    obtain ⟨hf, hfs⟩ := List.forall_mem_cons.mp h
    cases he : f.isEmpty with
    | true => rw [nonempty_cons_of_isEmpty he, ih hfs, keyedAll, hf he, List.nil_append]
    | false =>
      rw [nonempty_cons he, keyedAll, keyedAll, ih hfs]

/-- Nor does it if none of them has a key. -/
theorem keyedAll_nonempty_of_key (h : ∀ f ∈ fs, f.key? = none) :
    keyedAll (nonempty fs) = keyedAll fs :=
  keyedAll_nonempty fun f hf => Fragment.keyed_of_isEmpty (h f hf)

/-- A tree is empty if all that it begins with is. -/
theorem Tree.isEmpty_ofFragments :
    (ofFragments fs).isEmpty = true ↔ ∀ f ∈ fs, f.isEmpty = true := by
  simp [ofFragments, isEmpty, nonempty, empty]

/-- A fragment that is not empty is kept. -/
theorem mem_nonempty (hf : f ∈ fs) (hsome : f.isEmpty = false) : f ∈ nonempty fs :=
  List.mem_filter.mpr ⟨hf, by rw [hsome]; rfl⟩

/-- A tree that begins with something is not empty. -/
theorem Tree.isEmpty_eq_false_of_mem (hlead : t.lead = nonempty fs) (hf : f ∈ fs)
    (hsome : f.isEmpty = false) : t.isEmpty = false := by
  have hmem : f ∈ t.lead := hlead ▸ mem_nonempty hf hsome
  cases he : t.lead with
  | nil =>
    rw [he] at hmem
    cases hmem
  | cons g gs => rw [isEmpty, he]; rfl

/-- A tree that begins with some text is not empty. -/
theorem Tree.isEmpty_eq_false_of_text {s : String} (hlead : t.lead = nonempty fs)
    (hs : .text s ∈ fs) (hne : s ≠ "") : t.isEmpty = false :=
  isEmpty_eq_false_of_mem hlead hs (by simpa [Fragment.isEmpty] using hne)

/-- A tree that closes with something is not empty. -/
theorem Tree.isEmpty_eq_false_of_closing {suffix : String} (ht : t.layout.suffix = closing? suffix)
    (hsome : suffix ≠ "") : t.isEmpty = false := by
  rw [closing?, if_neg (by rwa [String.isEmpty_iff])] at ht
  rw [isEmpty, ht]
  simp

theorem isEmpty_of_nonempty_eq_nil (h : nonempty fs = []) : ∀ f ∈ fs, f.isEmpty = true := by
  simpa [nonempty] using h

/-! ### Keys that a sink records -/

namespace Sink

variable (s : Sink)

theorem fired_write (text : String) : (s.write text).fired = s.fired := by
  have hpending : s.applyPending.fired = s.fired := by
    rw [applyPending]
    split <;> rfl
  rw [write]
  split
  · exact hpending
  · rfl

theorem fired_writeSeparator (layout : Layout) (m : Mark) :
    (s.writeSeparator layout m).fired = s.fired := by
  rw [writeSeparator]
  split
  · split
    · exact s.fired_write _
    · rfl
  · rfl

theorem fired_openBody (layout : Layout) : (s.openBody layout).1.fired = s.fired := by
  rw [openBody]
  split
  · exact fired_write _ _
  · rfl

theorem fired_closeBody (layout : Layout) (restore : Restore) :
    (s.closeBody layout restore).fired = s.fired := by
  have hrestore : (s.restore restore).fired = s.fired := by
    rw [Sink.restore]
    split <;> rfl
  rw [closeBody, writeSuffix]
  split
  · rw [fired_write, hrestore]
  · exact hrestore

end Sink

/-- More keys come on top of those before. -/
theorem append_union (a b c : List String) : (a ++ b) ∪ c = a ∪ (b ∪ c) :=
  List.foldr_append

theorem keysOf_append : keysOf (ts ++ ts') = keysOf ts ++ keysOf ts' :=
  List.filterMap_append

/-- The keys of two lists are recorded one list after the other. -/
theorem reverse_keysOf_append_union (fired : List String) :
    (keysOf (ts ++ ts')).reverse ∪ fired
      = (keysOf ts').reverse ∪ ((keysOf ts).reverse ∪ fired) := by
  rw [keysOf_append, List.reverse_append, append_union]

mutual

/-- What a sink has recorded after a fragment: the keys of its trees, unless they were recorded
    before. -/
theorem Sink.fired_writeFragment (s : Sink) (f : Fragment) (h : ∀ t ∈ f.keyed, t.IsFlat) :
    (s.writeFragment f).fired = (keysOf f.keyed).reverse ∪ s.fired := by
  match f with
  | .text content => exact s.fired_write content
  | .node lead body layout =>
    rw [writeFragment]
    rw [Fragment.keyed] at h ⊢
    cases hkey : layout.renderOnce with
    | none =>
      simp only [hkey, List.forall_mem_append] at h
      simp only [recordKey]
      rw [fired_closeBody, fired_writeBody _ layout _ body h.2, fired_openBody,
        fired_writeLead _ lead h.1, reverse_keysOf_append_union]
    | some key =>
      simp only [hkey, List.forall_mem_singleton] at h
      obtain ⟨hlead, hbody⟩ : keyedAll lead = [] ∧ keyedAll body = [] := h
      have hkeys : (keysOf [⟨lead, body, layout⟩]).reverse ∪ s.fired = s.fired.insert key := by
        simp [keysOf, hkey]
      simp only [recordKey, hkeys]
      -- A key is recorded before its tree is written; the tree itself adds none, as it is flat.
      cases hfired : s.fired.contains key with
      | true => rw [if_pos rfl, List.insert_of_mem (List.contains_iff_mem.mp hfired)]
      | false =>
        have hnot : key ∉ s.fired := fun hmem => by simp [hmem] at hfired
        rw [if_neg Bool.false_ne_true, List.insert_of_not_mem hnot]
        show (closeBody _ layout _).fired = _
        rw [fired_closeBody, fired_writeBody _ layout _ body (by rw [hbody]; nofun), fired_openBody,
          fired_writeLead _ lead (by rw [hlead]; nofun), hlead, hbody]
        rfl

theorem Sink.fired_writeLead (s : Sink) (fs : List Fragment) (h : ∀ t ∈ keyedAll fs, t.IsFlat) :
    (s.writeLead fs).fired = (keysOf (keyedAll fs)).reverse ∪ s.fired := by
  match fs with
  | [] => rfl
  | f :: rest =>
    rw [keyedAll, List.forall_mem_append] at h
    rw [writeLead, fired_writeLead _ rest h.2, fired_writeFragment s f h.1, keyedAll,
      reverse_keysOf_append_union]

theorem Sink.fired_writeBody (s : Sink) (layout : Layout) (m : Mark) (fs : List Fragment)
    (h : ∀ t ∈ keyedAll fs, t.IsFlat) :
    (s.writeBody layout m fs).fired = (keysOf (keyedAll fs)).reverse ∪ s.fired := by
  match fs with
  | [] => rfl
  | f :: rest =>
    rw [keyedAll, List.forall_mem_append] at h
    rw [writeBody, fired_writeBody _ layout _ rest h.2, fired_writeFragment _ f h.1,
      fired_writeSeparator, keyedAll, reverse_keysOf_append_union]

end

/-- A new sink records the keys of a tree in the order in which they occur first, the newest
    first. -/
theorem fired_writeTreeWith (strategy : Strategy) (h : ∀ u ∈ t.keyed, u.IsFlat) :
    (Sink.writeTreeWith {} t strategy).fired = (keysOf t.keyed).reverse.dedup := by
  rw [Sink.writeTreeWith_eq, Sink.writeTree, Sink.fired_writeFragment _ _ h]
  have hdedup := List.dedup_append (keysOf t.keyed).reverse []
  rw [List.append_nil] at hdedup
  exact hdedup.symm

end Transcode.Output
