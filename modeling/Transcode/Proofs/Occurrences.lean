import Transcode.Proofs.Margins

namespace Transcode.Output

/-!
# First occurrences

A tree with a key is written once.  Which of several trees with the same key it is, is decided by a
walk: the leading fragments of a tree come before its body, and a tree whose key fired before is not
entered, so that keys inside of it stay unseen.  `Fragment.encounters` lists the keys that the walk
comes across, and `Fragment.firsts` is what the walk makes of a fragment: all keys are erased, and
something else stands in the stead of a tree whose key fired before.

Neither mentions a sink.  Writing a fragment is writing its first occurrences with an empty text
for each of the others (`writeFragment_firsts`), and the empty texts can be left out where no
separator would show that something was there.  `writes_first_occurrences` puts this together.
-/

/-- The key of a tree with this layout is one of those. -/
def Layout.isIn (layout : Layout) (seen : List String) : Bool :=
  layout.renderOnce.any seen.contains

mutual

/-- The keys that a walk through a fragment comes across, in order, where the keys `seen` fired
    before. -/
def Fragment.encounters (seen : List String) : Fragment → List String
  | .text _ => []
  | .node lead body layout =>
    let key := layout.renderOnce.toList
    if layout.isIn seen then key
    else
      let first := encountersAll (key ++ seen) lead
      key ++ (first ++ encountersAll (first ++ (key ++ seen)) body)

/-- The keys that a walk through some fragments comes across. -/
def encountersAll (seen : List String) : List Fragment → List String
  | [] => []
  | f :: rest =>
    let first := f.encounters seen
    first ++ encountersAll (first ++ seen) rest

end

mutual

/-- A fragment without keys, and with `stead` for every tree whose key fired before, where the keys
    `seen` did so at the beginning. -/
def Fragment.firsts (stead : List Fragment) (seen : List String) : Fragment → List Fragment
  | .text content => [.text content]
  | .node lead body layout =>
    if layout.isIn seen then stead
    else
      let opened := layout.renderOnce.toList ++ seen
      [.node (firstsAll stead opened lead)
        (firstsAll stead (encountersAll opened lead ++ opened) body)
        { layout with renderOnce := none }]

/-- Some fragments without keys, and with `stead` for every tree whose key fired before. -/
def firstsAll (stead : List Fragment) (seen : List String) : List Fragment → List Fragment
  | [] => []
  | f :: rest => f.firsts stead seen ++ firstsAll stead (f.encounters seen ++ seen) rest

end

/-- A tree without keys, and with later occurrences deleted. -/
def Tree.firsts (t : Tree) : Tree where
  lead := firstsAll [] t.layout.renderOnce.toList t.lead
  body :=
    let key := t.layout.renderOnce.toList
    firstsAll [] (encountersAll key t.lead ++ key) t.body
  layout := { t.layout with renderOnce := none }

mutual

/-- No tree of a fragment has a separator. -/
def Fragment.IsUnseparated : Fragment → Prop
  | .text _ => True
  | .node lead body layout =>
    layout.separator = none ∧ AllUnseparated lead ∧ AllUnseparated body

/-- No tree of some fragments has a separator. -/
def AllUnseparated : List Fragment → Prop
  | [] => True
  | f :: rest => f.IsUnseparated ∧ AllUnseparated rest

end

/-! ### Sinks with other keys -/

namespace Sink

variable {s : Sink} {keys : List String}

/-- The sink with other keys. -/
def withFired (s : Sink) (keys : List String) : Sink :=
  { s with fired := keys }

/-- With the keys that it has, a sink is as it was. -/
theorem withFired_fired (s : Sink) : s.withFired s.fired = s := rfl

/-- Marks do not depend on keys, -/
@[simp] theorem mark_withFired : (s.withFired keys).mark = s.mark := rfl

/-- and neither does text, -/
@[simp] theorem write_withFired (text : String) :
    (s.withFired keys).write text = (s.write text).withFired keys := by
  have happly : (s.withFired keys).applyPending = s.applyPending.withFired keys := by
    by_cases h : s.pending = 0 <;> simp [applyPending, withFired, h, indentation]
  rw [write, write]
  split
  · rw [happly]
    rfl
  · rfl

/-- a separator, -/
@[simp] theorem writeSeparator_withFired (layout : Layout) (m : Mark) :
    (s.withFired keys).writeSeparator layout m = (s.writeSeparator layout m).withFired keys := by
  have hsince : (s.withFired keys).wroteSince m = s.wroteSince m := rfl
  rw [writeSeparator, writeSeparator, hsince]
  cases layout.separator with
  | none => rfl
  | some separator =>
    cases s.wroteSince m with
    | true => exact write_withFired separator
    | false => rfl

/-- a body that is opened -/
@[simp] theorem openBody_withFired (layout : Layout) :
    (s.withFired keys).openBody layout
      = ((s.openBody layout).1.withFired keys, (s.openBody layout).2) := by
  rw [openBody, openBody]
  cases layout.newline with
  | true => exact Prod.ext (write_withFired (s := (s.request layout.indent).1) "\n") rfl
  | false => rfl

/-- or one that is closed. -/
@[simp] theorem closeBody_withFired (layout : Layout) (r : Restore) :
    (s.withFired keys).closeBody layout r = (s.closeBody layout r).withFired keys := by
  have hrestore : (s.withFired keys).restore r = (s.restore r).withFired keys := by
    rw [restore, restore]
    split <;> rfl
  rw [closeBody, closeBody, hrestore, writeSuffix, writeSuffix]
  cases layout.suffix with
  | none => rfl
  | some suffix => exact write_withFired suffix

end Sink

/-! ### Writing first occurrences -/

section

variable {s : Sink} {seen keys : List String} {stead : List Fragment} {layout : Layout} {p q : Prop}

/-- A layout repeats a key if its own was seen. -/
theorem isIn_eq_true : layout.isIn seen = true ↔ ∃ key ∈ layout.renderOnce, key ∈ seen := by
  cases h : layout.renderOnce <;> simp [Layout.isIn, h]

/-- The sink decides like the walk whether a tree is written. -/
theorem recordKey_eq (hseen : ∀ key, key ∈ s.fired ↔ key ∈ seen) :
    s.recordKey layout.renderOnce = if layout.isIn seen then (s, false)
      else (s.withFired (layout.renderOnce.toList ++ s.fired), true) := by
  cases hkey : layout.renderOnce with
  | none => simp [Sink.recordKey, Layout.isIn, hkey, Sink.withFired]
  | some key =>
    have hcontains : s.fired.contains key = seen.contains key := by
      rw [Bool.eq_iff_iff, List.contains_iff_mem, List.contains_iff_mem]
      exact hseen key
    simp only [Sink.recordKey, Layout.isIn, hkey, Option.any_some, hcontains]
    rfl

/-- With one thing in the stead of each later occurrence there are as many fragments as before. -/
theorem exists_firsts (g f : Fragment) (seen : List String) : ∃ h, f.firsts [g] seen = [h] := by
  cases f with
  | text content => exact ⟨_, rfl⟩
  | node lead body layout =>
    rw [Fragment.firsts]
    split
    · exact ⟨_, rfl⟩
    · exact ⟨_, rfl⟩

/-- What stands in the stead of later occurrences leaves no trace: it is an empty text, or nothing
    at all, where there are no separators. -/
def Traceless (stead : List Fragment) (unseparated : Prop) : Prop :=
  stead = [.text ""] ∨ stead = [] ∧ unseparated

/-- What leaves no trace under a condition leaves none under one that follows from it. -/
theorem Traceless.mono (h : Traceless stead p) (hpq : p → q) : Traceless stead q :=
  h.imp_right fun h => ⟨h.1, hpq h.2⟩

/-- What leaves no trace is written without one. -/
theorem Traceless.writeLead (h : Traceless stead p) (s : Sink) : s.writeLead stead = s := by
  rcases h with rfl | ⟨rfl, -⟩
  · exact s.write_empty
  · rfl

/-- The sink `s'` is the sink `s` but for the keys that fired: in one they are as before, in the
    other those have come on top that a walk came across. -/
structure Tells (seen encounters keys : List String) (s s' : Sink) : Prop where
  same : s' = s.withFired keys
  fired : ∀ key, key ∈ s.fired ↔ key ∈ encounters ++ seen

/-- A tree is written like its first occurrences, if what it begins with and what it holds are. -/
theorem tells_node {lead body : List Fragment} (hstead : Traceless stead p)
    (hseen : ∀ key, key ∈ s.fired ↔ key ∈ seen)
    (hlead : ∀ {s : Sink} {seen : List String}, (∀ key, key ∈ s.fired ↔ key ∈ seen) →
      Tells seen (encountersAll seen lead) keys (s.writeLead lead)
        ((s.withFired keys).writeLead (firstsAll stead seen lead)))
    (hbody : ∀ {s : Sink} {seen : List String} (m : Mark), (∀ key, key ∈ s.fired ↔ key ∈ seen) →
      Tells seen (encountersAll seen body) keys (s.writeBody layout m body)
        ((s.withFired keys).writeBody { layout with renderOnce := none } m
          (firstsAll stead seen body))) :
    Tells seen (Fragment.encounters seen (.node lead body layout)) keys
      (s.writeFragment (.node lead body layout))
      ((s.withFired keys).writeLead (Fragment.firsts stead seen (.node lead body layout))) := by
  rw [Fragment.firsts, Fragment.encounters, Sink.writeFragment, recordKey_eq hseen]
  by_cases hin : layout.isIn seen = true
  · simp only [if_pos hin]
    obtain ⟨fired, hkey, hfired⟩ := isIn_eq_true.mp hin
    refine ⟨hstead.writeLead _, fun key => ?_⟩
    rw [hseen, List.mem_append, Option.mem_toList]
    exact ⟨.inr, fun h => h.elim (fun h => Option.mem_unique hkey h ▸ hfired) id⟩
  · simp only [if_neg hin]
    -- The tree is opened under its key, and closed again when its body is written.
    have hopened : ∀ key, key ∈ (s.withFired (layout.renderOnce.toList ++ s.fired)).fired
        ↔ key ∈ layout.renderOnce.toList ++ seen := fun key => by
      show key ∈ layout.renderOnce.toList ++ s.fired ↔ _
      rw [List.mem_append, List.mem_append, hseen]
    obtain ⟨hwrite, hkeys⟩ := hlead hopened
    generalize Sink.writeLead (s.withFired (layout.renderOnce.toList ++ s.fired)) lead = begun at *
    obtain ⟨hwrite', hkeys'⟩ := hbody (s := (begun.openBody layout).1)
      (begun.openBody layout).1.mark (by rwa [Sink.fired_openBody])
    refine ⟨?_, fun key => ?_⟩
    · have hlead' : (s.withFired keys).writeLead
          (firstsAll stead (layout.renderOnce.toList ++ seen) lead) = begun.withFired keys := hwrite
      have hopen : (begun.withFired keys).openBody { layout with renderOnce := none }
          = ((begun.openBody layout).1.withFired keys, (begun.openBody layout).2) :=
        Sink.openBody_withFired layout
      rw [Sink.writeLead, Sink.writeLead, Sink.writeFragment]
      simp only [Sink.recordKey, hlead', hopen, Sink.mark_withFired, hwrite']
      exact Sink.closeBody_withFired layout _
    · rw [Sink.fired_closeBody, hkeys']
      simp only [List.mem_append]
      tauto

end

mutual

/-- Writing a fragment is writing its first occurrences, and the keys that fire are those that the
    walk comes across. -/
theorem writeFragment_firsts {stead : List Fragment} {s : Sink} {seen : List String} (f : Fragment)
    (hstead : Traceless stead f.IsUnseparated) (hseen : ∀ key, key ∈ s.fired ↔ key ∈ seen)
    (keys : List String) :
    Tells seen (f.encounters seen) keys (s.writeFragment f)
      ((s.withFired keys).writeLead (f.firsts stead seen)) := by
  match f with
  | .text content =>
    refine ⟨Sink.write_withFired content, fun key => ?_⟩
    rw [Sink.writeFragment, Sink.fired_write, hseen]
    rfl
  | .node lead body layout =>
    refine tells_node hstead hseen ?_ ?_
    · intro s seen hseen
      exact writeLead_firsts lead (hstead.mono fun h => h.2.1) hseen keys
    · intro s seen m hseen
      rcases hstead with hblank | ⟨hnothing, hnone, -, hbody⟩
      · rw [hblank]
        exact writeBody_firsts layout m body hseen keys
      · have hnone' : { layout with renderOnce := none : Layout }.separator = none := hnone
        rw [writeBody_eq_writeLead hnone, writeBody_eq_writeLead hnone']
        exact writeLead_firsts body (.inr ⟨hnothing, hbody⟩) hseen keys

/-- Fragments at the beginning of a tree, with what repeats a key left out. -/
theorem writeLead_firsts {stead : List Fragment} {s : Sink} {seen : List String}
    (fs : List Fragment)
    (hstead : Traceless stead (AllUnseparated fs)) (hseen : ∀ key, key ∈ s.fired ↔ key ∈ seen)
    (keys : List String) :
    Tells seen (encountersAll seen fs) keys (s.writeLead fs)
      ((s.withFired keys).writeLead (firstsAll stead seen fs)) := by
  match fs with
  | [] => exact ⟨rfl, hseen⟩
  | f :: rest =>
    obtain ⟨hwrite, hkeys⟩ := writeFragment_firsts f (hstead.mono And.left) hseen keys
    obtain ⟨hwrite', hkeys'⟩ := writeLead_firsts rest (hstead.mono And.right) hkeys keys
    refine ⟨?_, fun key => ?_⟩
    · rw [firstsAll, writeLead_append, hwrite, hwrite']
      rfl
    · rw [Sink.writeLead, hkeys', encountersAll]
      simp only [List.mem_append]
      tauto

/-- With an empty text in the stead of later occurrences, separators come where they came before. -/
theorem writeBody_firsts {s : Sink} {seen : List String} (layout : Layout) (m : Mark)
    (fs : List Fragment) (hseen : ∀ key, key ∈ s.fired ↔ key ∈ seen) (keys : List String) :
    Tells seen (encountersAll seen fs) keys (s.writeBody layout m fs)
      ((s.withFired keys).writeBody { layout with renderOnce := none } m
        (firstsAll [.text ""] seen fs)) := by
  match fs with
  | [] => exact ⟨rfl, hseen⟩
  | f :: rest =>
    obtain ⟨hwrite, hkeys⟩ := writeFragment_firsts (s := s.writeSeparator layout m) f (.inl rfl)
      (by rwa [Sink.fired_writeSeparator]) keys
    obtain ⟨hwrite', hkeys'⟩ := writeBody_firsts layout (s.writeSeparator layout m).mark rest
      hkeys keys
    obtain ⟨g, hg⟩ := exists_firsts (.text "") f seen
    refine ⟨?_, fun key => ?_⟩
    · have hseparator : (s.withFired keys).writeSeparator { layout with renderOnce := none } m
          = (s.writeSeparator layout m).withFired keys := Sink.writeSeparator_withFired layout m
      have hg' : ((s.writeSeparator layout m).withFired keys).writeFragment g
          = ((s.writeSeparator layout m).writeFragment f).withFired keys := by
        rw [hg] at hwrite
        exact hwrite
      rw [firstsAll, hg, List.singleton_append, Sink.writeBody]
      simp only [hseparator, hg', Sink.mark_withFired, hwrite']
      rfl
    · rw [Sink.writeBody, hkeys', encountersAll]
      simp only [List.mem_append]
      tauto

end

/-- Of the layout, writing a body minds the separator. -/
theorem writeBody_congr {layout layout' : Layout} (h : layout.separator = layout'.separator)
    (s : Sink) (m : Mark) (fs : List Fragment) :
    s.writeBody layout m fs = s.writeBody layout' m fs := by
  induction fs generalizing s m with
  | nil => rfl
  | cons f fs ih =>
    have hseparator : s.writeSeparator layout m = s.writeSeparator layout' m := by
      rw [Sink.writeSeparator, Sink.writeSeparator, h]
    rw [Sink.writeBody, Sink.writeBody, hseparator]
    exact ih _ _

/-- A tree is written under a new key like without one. -/
theorem writeTree_withKey {s : Sink} {t : Tree} {key : String} (hkey : key ∉ s.fired)
    (hnone : t.layout.renderOnce = none) :
    s.writeTree (t.withKey key) = (s.withFired (key :: s.fired)).writeTree t := by
  have hnew : s.fired.contains key = false := by simpa using hkey
  have hbody : ∀ (s : Sink) (m : Mark) (fs : List Fragment),
      s.writeBody { t.layout with renderOnce := some key } m fs = s.writeBody t.layout m fs :=
    writeBody_congr rfl
  show Sink.writeFragment s (.node t.lead t.body { t.layout with renderOnce := some key })
    = Sink.writeFragment _ (.node t.lead t.body t.layout)
  rw [Sink.writeFragment, Sink.writeFragment, hnone]
  simp only [Sink.recordKey, hnew, Bool.false_eq_true, if_false, hbody]
  rfl

/-- A tree without keys is rendered like the tree of which it has the first occurrences, if there
    are no separators. -/
theorem render_firsts {t : Tree} (h : t.toFragment.IsUnseparated) : render t.firsts = render t := by
  obtain ⟨hsame, -⟩ : Tells [] (t.toFragment.encounters []) [] (Sink.writeFragment {} t.toFragment)
      ((Sink.withFired {} []).writeLead (t.toFragment.firsts [] [])) :=
    writeFragment_firsts (s := {}) t.toFragment (.inr ⟨rfl, h⟩) (fun _ => Iff.rfl) []
  have hfirsts : t.toFragment.firsts [] [] = [t.firsts.toFragment] := by
    have hnew : t.layout.isIn [] = false := by
      cases h : t.layout.renderOnce <;> simp [Layout.isIn, h]
    rw [Tree.toFragment, Fragment.firsts, hnew, if_neg Bool.false_ne_true, List.append_nil]
    rfl
  rw [hfirsts] at hsame
  have hwrite : Sink.writeTree {} t.firsts = (Sink.writeTree {} t).withFired [] := hsame
  rw [render, render, hwrite]
  rfl

/-- **What has a key is written where it occurs first.**  Writing a tree to any sink comes to the
    same as writing it with all keys erased and nothing in the stead of each tree whose key fired
    before, in the sink or earlier in the walk; the keys that fire are those that the walk comes
    across.  A tree whose key fired leaves the sink as it is, and any other tree with a key is
    written like one without.  So if there are no separators, later occurrences can be deleted. -/
theorem writes_first_occurrences :
    (∀ (s : Sink) (t : Tree),
        (s.writeTree t).withFired s.fired = s.writeLead (t.toFragment.firsts [.text ""] s.fired)
          ∧ ∀ key, key ∈ (s.writeTree t).fired
              ↔ key ∈ s.fired ∨ key ∈ t.toFragment.encounters s.fired)
      ∧ (∀ (s : Sink) (t : Tree) (key : String), key ∈ s.fired → s.writeTree (t.withKey key) = s)
      ∧ (∀ (s : Sink) (t : Tree) (key : String), key ∉ s.fired → t.layout.renderOnce = none →
          s.writeTree (t.withKey key) = (s.withFired (key :: s.fired)).writeTree t)
      ∧ ∀ t : Tree, t.toFragment.IsUnseparated → render t = render t.firsts := by
  refine ⟨fun s t => ?_, fun s t key => writeFragment_of_fired, fun s t key hkey hnone => ?_,
    fun t h => (render_firsts h).symm⟩
  · obtain ⟨hsame, hkeys⟩ : Tells s.fired (t.toFragment.encounters s.fired) s.fired (s.writeTree t)
        ((s.withFired s.fired).writeLead (t.toFragment.firsts [.text ""] s.fired)) :=
      writeFragment_firsts t.toFragment (.inl rfl) (fun key => Iff.rfl) s.fired
    refine ⟨hsame.symm, fun key => ?_⟩
    rw [hkeys, List.mem_append, or_comm]
  · exact writeTree_withKey hkey hnone

/-- A tree that is passed over hides the key inside of it, and so the last tree is the first one
    that is come across with that key. -/
theorem writes_first_occurrences_hidden :
    let inner := (Tree.ofText "y").withKey "b"
    let t := Tree.ofFragments [(Tree.ofText "x").withKey "a",
      (Tree.ofFragments [inner.toFragment]).withKey "a", inner.toFragment]
    let begun := Sink.writeTree {} t
    "a" ∈ begun.fired ∧ "c" ∉ begun.fired
      ∧ begun.writeTree ((Tree.ofText "z").withKey "a") = begun
      ∧ begun.writeTree ((Tree.ofText "z").withKey "c")
          = (begun.withFired ("c" :: begun.fired)).writeTree (.ofText "z")
      ∧ t.toFragment.IsUnseparated
      ∧ t.toFragment.encounters [] = ["a", "a", "b"]
      ∧ render t = render t.firsts ∧ render t.firsts = "xy" := by
  intro inner t begun
  have hold : "a" ∈ begun.fired := by decide +kernel
  have hnew : "c" ∉ begun.fired := by decide +kernel
  have hunseparated : t.toFragment.IsUnseparated := by
    simp [t, inner, Tree.ofText, Tree.ofFragments, Tree.withKey, Tree.toFragment, nonempty,
      Fragment.isEmpty, Tree.isEmpty, Tree.empty, Fragment.IsUnseparated, AllUnseparated]
  obtain ⟨-, hskip, hwrite, hrender⟩ := writes_first_occurrences
  exact ⟨hold, hnew, hskip begun _ "a" hold, hwrite begun (.ofText "z") "c" hnew rfl, hunseparated,
    by decide +kernel, hrender t hunseparated, by decide +kernel⟩

end Transcode.Output
