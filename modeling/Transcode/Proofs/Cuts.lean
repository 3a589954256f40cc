import Mathlib.Logic.Relation
import Transcode.Proofs.Visibility

namespace Transcode.Output

open Text

/-!
# Cutting texts

A text can be written at once or in two parts.  Written at once it takes the indentation once, lets
a pending request take effect before its first character, and is looked at as a whole to see whether
it shows anything; in two parts all of this is done twice.  The sinks that come of it are the same
but for the place where what shows has ended, which is after the first part if the second one is
blank (`alike_write_append`).  No mark can tell that place from the end of the text: the marks taken
before see the same (`Sink.Adds.wroteSince_eq`), and none is taken in between.

For trees it is enough to look at a writer that reads its own output and does not ask the sink
(`Sink.compose`).  It takes sinks that are alike to sinks that are alike
(`Sink.Alike.composeFragment`), and so it does not matter where the texts are cut with which a tree
begins, at any depth (`writeTree_alike`).
-/

/-- Two sinks are the same, but for the place where what shows has ended. -/
def Sink.Alike (s s' : Sink) : Prop :=
  { s with inkEnd := 0 } = { s' with inkEnd := 0 }

/-- Of two texts next to each other, with which a tree begins, the first fragment makes one. -/
inductive Cuts : Fragment → Fragment → Prop
  | here {before after body : List Fragment} {layout : Layout} (a b : String) :
      Cuts (.node (before ++ .text (a ++ b) :: after) body layout)
        (.node (before ++ .text a :: .text b :: after) body layout)
  | lead {before after body : List Fragment} {layout : Layout} {f g : Fragment} :
      Cuts f g →
      Cuts (.node (before ++ f :: after) body layout) (.node (before ++ g :: after) body layout)
  | body {lead before after : List Fragment} {layout : Layout} {f g : Fragment} :
      Cuts f g →
      Cuts (.node lead (before ++ f :: after) layout) (.node lead (before ++ g :: after) layout)

section

variable {s s' s'' : Sink} {text text' : String} {m : Mark}

/-! ### Sinks that are alike -/

namespace Sink.Alike

/-- A sink is like itself, -/
theorem refl (s : Sink) : s.Alike s := rfl

/-- the other way round, -/
theorem symm (h : s.Alike s') : s'.Alike s := Eq.symm h

/-- and through a third one. -/
theorem trans (h : s.Alike s') (h' : s'.Alike s'') : s.Alike s'' := Eq.trans h h'

/-- A sink that is alike has another number in one place. -/
theorem exists_eq (h : s.Alike s') : ∃ n, s' = { s with inkEnd := n } := by
  obtain ⟨buffer, levels, pending, applied, inkEnd, fired⟩ := s'
  unfold Alike at h
  simp only [mk.injEq] at h
  obtain ⟨hbuffer, hlevels, hpending, happlied, -, hfired⟩ := h
  exact ⟨inkEnd, by rw [hbuffer, hlevels, hpending, happlied, hfired]⟩

/-- Sinks that are alike have one text, -/
theorem buffer (h : s.Alike s') : s'.buffer = s.buffer := by
  obtain ⟨n, rfl⟩ := h.exists_eq
  rfl

/-- stay alike with more text, -/
theorem write (h : s.Alike s') (text : String) : (s.write text).Alike (s'.write text) := by
  obtain ⟨n, rfl⟩ := h.exists_eq
  unfold Alike Sink.write applyPending
  split
  · split <;> rfl
  · rfl

/-- with a request, -/
theorem request (h : s.Alike s') (delta : Int) :
    (s.request delta).1.Alike (s'.request delta).1
      ∧ (s.request delta).2 = (s'.request delta).2 := by
  obtain ⟨n, rfl⟩ := h.exists_eq
  exact ⟨rfl, rfl⟩

/-- with one undone -/
theorem restore (h : s.Alike s') (r : Restore) : (s.restore r).Alike (s'.restore r) := by
  obtain ⟨n, rfl⟩ := h.exists_eq
  unfold Alike Sink.restore
  split <;> rfl

/-- and with a key that fires in both or in neither. -/
theorem recordKey (h : s.Alike s') (key : Option String) :
    (s.recordKey key).1.Alike (s'.recordKey key).1
      ∧ (s.recordKey key).2 = (s'.recordKey key).2 := by
  obtain ⟨n, rfl⟩ := h.exists_eq
  cases key with
  | none => exact ⟨rfl, rfl⟩
  | some key =>
    unfold Alike
    by_cases hfired : key ∈ s.fired <;> simp [Sink.recordKey, hfired]

/-- They open a body alike -/
theorem openBody (h : s.Alike s') (layout : Layout) :
    (s.openBody layout).1.Alike (s'.openBody layout).1
      ∧ (s.openBody layout).2 = (s'.openBody layout).2 := by
  obtain ⟨hrequest, hrestore⟩ := h.request layout.indent
  unfold Sink.openBody
  split
  · exact ⟨hrequest.write "\n", hrestore⟩
  · exact ⟨hrequest, hrestore⟩

/-- and close it alike. -/
theorem closeBody (h : s.Alike s') (layout : Layout) (r : Restore) :
    (s.closeBody layout r).Alike (s'.closeBody layout r) := by
  unfold Sink.closeBody writeSuffix
  split
  · exact (h.restore r).write _
  · exact h.restore r

/-- A separator goes by the text written, so both get it or neither does. -/
theorem separate (h : s.Alike s') (layout : Layout) (before : Option String) :
    (s.separate layout before).Alike (s'.separate layout before) := by
  unfold Sink.separate
  split
  · split
    · exact h.write _
    · exact h
  · exact h

/-- What was written between two places can be read in either sink. -/
theorem textSince (h : s.Alike s') (m : Mark) : s.textSince m = s'.textSince m := by
  unfold Sink.textSince
  rw [h.buffer]

/-- Their marks are the same. -/
theorem mark (h : s.Alike s') : s.mark = s'.mark := by
  unfold Sink.mark
  rw [h.buffer]

mutual

/-- A writer that does not ask a sink what shows makes no difference between them. -/
theorem composeFragment {s s' : Sink} (h : s.Alike s') (f : Fragment) :
    (s.composeFragment f).Alike (s'.composeFragment f) := by
  match f with
  | .text content => exact h.write content
  | .node lead body layout =>
    obtain ⟨hrecord, hverdict⟩ := h.recordKey layout.renderOnce
    rw [Sink.composeFragment, Sink.composeFragment]
    rcases hs : s.recordKey layout.renderOnce with ⟨r, verdict⟩
    rcases hs' : s'.recordKey layout.renderOnce with ⟨r', verdict'⟩
    rw [hs, hs'] at hrecord hverdict
    obtain rfl : verdict = verdict' := hverdict
    cases verdict with
    | false => exact hrecord
    | true =>
      obtain ⟨hopened, hrestore⟩ := (hrecord.composeLead lead).openBody layout
      have hbody := hopened.composeBody layout none body
      simp only [hrestore]
      exact hbody.closeBody layout _

/-- Fragments composed at the beginning of a tree keep sinks alike, -/
theorem composeLead {s s' : Sink} (h : s.Alike s') (fs : List Fragment) :
    (s.composeLead fs).Alike (s'.composeLead fs) := by
  match fs with
  | [] => exact h
  | f :: rest => exact (h.composeFragment f).composeLead rest

/-- and so do those of a body. -/
theorem composeBody {s s' : Sink} (h : s.Alike s') (layout : Layout) (before : Option String)
    (fs : List Fragment) :
    (s.composeBody layout before fs).Alike (s'.composeBody layout before fs) := by
  match fs with
  | [] => exact h
  | f :: rest =>
    have hbegun := h.separate layout before
    have hwritten := hbegun.composeFragment f
    rw [Sink.composeBody, Sink.composeBody]
    simp only [hbegun.mark, hwritten.textSince]
    exact hwritten.composeBody layout _ rest

end

end Sink.Alike

/-! ### Texts in two parts -/

/-- The buffer of a sink after a text that has no line break. -/
theorem alike_write_of_notMem (h : '\n' ∉ text.toList) (s : Sink) :
    (s.write text).Alike { s with buffer := s.buffer ++ text } := by
  have hnone : text.toList.contains '\n' = false := by simpa using h
  unfold Sink.Alike Sink.write
  simp only [hnone, Bool.false_eq_true, if_false, Sink.indentBreaks_eq_self h, String.ofList_toList]

/-- After one that has, the pending request has taken effect. -/
theorem alike_write_of_mem (h : '\n' ∈ text.toList) (s : Sink) :
    (s.write text).Alike { s.applyPending with
      buffer := s.buffer ++ indented s.applyPending.indentation text } := by
  have hsome : text.toList.contains '\n' = true := by simpa using h
  unfold Sink.Alike Sink.write
  simp only [hsome, if_true, buffer_applyPending]
  rfl

/-- Nothing pending is nothing to apply. -/
theorem applyPending_of_pending_eq (h : s.pending = 0) : s.applyPending = s := by
  rw [Sink.applyPending, if_pos h]

/-- A text without line breaks is not moved. -/
theorem indented_of_notMem (h : '\n' ∉ text.toList) (spaces : Nat) :
    indented spaces text = text := by
  rw [indented, Sink.indentBreaks_eq_self h, String.ofList_toList]

/-- Written in two parts, a text does the same to a sink as at once, but that what shows may have
    ended earlier. -/
theorem alike_write_append (s : Sink) (a b : String) :
    ((s.write a).write b).Alike (s.write (a ++ b)) := by
  by_cases ha : '\n' ∈ a.toList
  · have hab : '\n' ∈ (a ++ b).toList := by simp [ha]
    have hfirst := alike_write_of_mem ha s
    have hwhole := alike_write_of_mem hab s
    refine (hfirst.write b).trans (.trans ?_ hwhole.symm)
    -- The request has taken effect with the first part, and nothing is pending for the second.
    by_cases hb : '\n' ∈ b.toList
    · refine (alike_write_of_mem hb _).trans ?_
      rw [applyPending_of_pending_eq (by exact pending_applyPending s), indented_append,
        ← String.append_assoc]
      rfl
    · refine (alike_write_of_notMem hb _).trans ?_
      rw [indented_append, indented_of_notMem hb, ← String.append_assoc]
      rfl
  · by_cases hb : '\n' ∈ b.toList
    · have hab : '\n' ∈ (a ++ b).toList := by simp [hb]
      have hfirst := alike_write_of_notMem ha s
      have hwhole := alike_write_of_mem hab s
      refine (hfirst.write b).trans (.trans ?_ hwhole.symm)
      refine (alike_write_of_mem hb _).trans ?_
      rw [indented_append, indented_of_notMem ha, ← String.append_assoc]
      unfold Sink.Alike Sink.applyPending
      split <;> rfl
    · have hab : '\n' ∉ (a ++ b).toList := by simp [ha, hb]
      have hfirst := alike_write_of_notMem ha s
      have hwhole := alike_write_of_notMem hab s
      refine (hfirst.write b).trans (.trans ?_ hwhole.symm)
      refine (alike_write_of_notMem hb _).trans ?_
      rw [String.append_assoc]
      rfl

/-- A mark taken before sees what showed since then, and the text that was added. -/
theorem Sink.Adds.wroteSince_eq (h : s.Adds text s') (hm : m.offset ≤ s.mark.offset) :
    s'.wroteSince m = (s.wroteSince m || hasInk text) := by
  have hbuffer : m.offset ≤ s.buffer.utf8ByteSize := hm
  unfold Sink.wroteSince
  cases htext : hasInk text with
  | true =>
    have hshows := h.shows htext
    rw [Bool.or_true]
    exact decide_eq_true (by omega)
  | false => rw [h.blank htext, Bool.or_false]

/-- Sinks that are alike after something was written answer alike to marks taken before. -/
theorem Sink.Alike.wroteSince_eq (h : s'.Alike s'') (hadds : s.Adds text s')
    (hadds' : s.Adds text' s'') (hm : m.offset ≤ s.mark.offset) :
    s'.wroteSince m = s''.wroteSince m := by
  have hsame : text = text' := by
    have hbuffer := h.buffer
    rw [hadds.buffer, hadds'.buffer] at hbuffer
    exact ((String.append_right_inj _).mp hbuffer).symm
  rw [hadds.wroteSince_eq hm, hadds'.wroteSince_eq hm, hsame]

/-! ### Trees with cuts -/

/-- Fragments that come to alike sinks, wherever they are written. -/
def Fragment.Alike (f g : Fragment) : Prop :=
  ∀ s : Sink, (s.composeFragment f).Alike (s.composeFragment g)

/-- Fragments are composed part by part. -/
theorem composeLead_append (fs gs : List Fragment) (s : Sink) :
    s.composeLead (fs ++ gs) = (s.composeLead fs).composeLead gs := by
  induction fs generalizing s with
  | nil => rfl
  | cons f fs ih => exact ih _

/-- One of the fragments of a body is exchanged. -/
theorem alike_composeBody {f g : Fragment} (h : f.Alike g) (layout : Layout)
    (front after : List Fragment) (before : Option String) (s : Sink) :
    (s.composeBody layout before (front ++ f :: after)).Alike
      (s.composeBody layout before (front ++ g :: after)) := by
  induction front generalizing s before with
  | nil =>
    have hwritten := h (s.separate layout before)
    rw [List.nil_append, List.nil_append, Sink.composeBody, Sink.composeBody]
    simp only [hwritten.textSince]
    exact hwritten.composeBody layout _ after
  | cons e front ih => exact ih _ _

/-- Trees with the same body, whose leading fragments come to alike sinks. -/
theorem alike_node {lead lead' body : List Fragment} {layout : Layout}
    (h : ∀ s : Sink, (s.composeLead lead).Alike (s.composeLead lead')) :
    Fragment.Alike (.node lead body layout) (.node lead' body layout) := by
  intro s
  rw [Sink.composeFragment, Sink.composeFragment]
  rcases s.recordKey layout.renderOnce with ⟨r, _ | _⟩
  · exact .refl r
  · obtain ⟨hopened, hrestore⟩ := (h r).openBody layout
    have hbody := hopened.composeBody layout none body
    simp only [hrestore]
    exact hbody.closeBody layout _

/-- Where a text is cut makes no difference to what a fragment comes to. -/
theorem Cuts.alike {f g : Fragment} (h : Cuts f g) : f.Alike g := by
  induction h with
  | @here before after body layout a b =>
    refine alike_node fun s => ?_
    rw [composeLead_append, composeLead_append]
    exact ((alike_write_append _ a b).symm).composeLead after
  | @lead before after body layout f g _ ih =>
    refine alike_node fun s => ?_
    rw [composeLead_append, composeLead_append]
    exact (ih _).composeLead after
  | @body lead before after layout f g _ ih =>
    intro s
    rw [Sink.composeFragment, Sink.composeFragment]
    rcases s.recordKey layout.renderOnce with ⟨r, _ | _⟩
    · exact .refl r
    · exact (alike_composeBody ih layout before after none _).closeBody layout _

/-- However often the texts are cut or put together. -/
theorem alike_of_eqvGen {f g : Fragment} (h : Relation.EqvGen Cuts f g) : f.Alike g := by
  induction h with
  | rel f g h => exact h.alike
  | refl f => exact fun s => .refl _
  | symm f g _ ih => exact fun s => (ih s).symm
  | trans f g e _ _ ih ih' => exact fun s => (ih s).trans (ih' s)

/-- Written to a sink in which what shows is part of the text, as in every session. -/
theorem writeTree_alike {t u : Tree} (h : Relation.EqvGen Cuts t.toFragment u.toFragment)
    (hink : s.inkEnd ≤ s.buffer.utf8ByteSize) : (s.writeTree t).Alike (s.writeTree u) := by
  unfold Sink.writeTree
  rw [writeFragment_eq_compose _ hink, writeFragment_eq_compose _ hink]
  exact alike_of_eqvGen h s

/-- **Writing does not depend on how text is cut.**  Whatever the state of a sink, a text written in
    two parts leaves the same text, indentations, pending request, count of applied requests and
    keys as the text written at once, and every mark taken before gets the same answer.

    So a tree is rendered to the same text if texts next to each other, with which it or a tree
    inside of it begins, are put together, or one of them is cut in two, and however often this is
    done. -/
theorem cuts_make_no_difference :
    (∀ (s : Sink) (a b : String),
      let once := s.write (a ++ b)
      let twice := (s.write a).write b
      twice.buffer = once.buffer ∧ twice.levels = once.levels ∧ twice.pending = once.pending
        ∧ twice.applied = once.applied ∧ twice.fired = once.fired
        ∧ ∀ m : Mark, m.offset ≤ s.mark.offset → twice.wroteSince m = once.wroteSince m)
    ∧ ∀ t u : Tree, Relation.EqvGen Cuts t.toFragment u.toFragment →
      ∀ strategy : Strategy, renderWith strategy t = renderWith strategy u := by
  constructor
  · intro s a b once twice
    have halike : twice.Alike once := alike_write_append s a b
    obtain ⟨first, hfirst⟩ := respects_shows.write s a
    obtain ⟨second, hsecond⟩ := respects_shows.write (s.write a) b
    obtain ⟨whole, hwhole⟩ := respects_shows.write s (a ++ b)
    have hmarks : ∀ m : Mark, m.offset ≤ s.mark.offset → twice.wroteSince m = once.wroteSince m :=
      fun m hm => halike.wroteSince_eq (hfirst.trans hsecond) hwhole hm
    obtain ⟨n, hn⟩ := halike.exists_eq
    rw [hn] at hmarks ⊢
    exact ⟨rfl, rfl, rfl, rfl, rfl, hmarks⟩
  · intro t u h strategy
    have halike := writeTree_alike (s := {}) h (Nat.le_refl 0)
    rw [renderWith_eq, renderWith_eq, render, render, Sink.finish, Sink.finish, halike.buffer]

/-- A text cut between two line breaks, after which the first part alone shows something; and a list
    of which the first item begins with it, with a comma after what shows. -/
theorem cuts_make_no_difference_breaks :
    let s : Sink := ((({} : Sink).write "(").request 2).1
    let item (texts : List Fragment) : Fragment := .node texts [] {}
    let list (texts : List Fragment) : Tree :=
      ⟨[.text "["], [item texts, .text "b"], { indent := 2, separator := some "," }⟩
    (⟨1⟩ : Mark).offset ≤ s.mark.offset
      ∧ ((s.write "a\n").write "\n").inkEnd = 5 ∧ (s.write ("a\n" ++ "\n")).inkEnd = 8
      ∧ ((s.write "a\n").write "\n").buffer = (s.write ("a\n" ++ "\n")).buffer
      ∧ ((s.write "a\n").write "\n").wroteSince ⟨1⟩ = (s.write ("a\n" ++ "\n")).wroteSince ⟨1⟩
      ∧ Relation.EqvGen Cuts (list [.text "a\n", .text "\n"]).toFragment
        (list [.text ("a\n" ++ "\n")]).toFragment
      ∧ renderWith .workList (list [.text "a\n", .text "\n"])
        = renderWith .workList (list [.text ("a\n" ++ "\n")])
      ∧ renderWith .workList (list [.text "a\n", .text "\n"]) = "[a\n\n  ,b" := by
  intro s item list
  have hmark : (⟨1⟩ : Mark).offset ≤ s.mark.offset := by decide +kernel
  have hitem : Cuts (item [.text ("a\n" ++ "\n")]) (item [.text "a\n", .text "\n"]) := by
    show Cuts (.node ([] ++ .text ("a\n" ++ "\n") :: []) [] {})
      (.node ([] ++ .text "a\n" :: .text "\n" :: []) [] {})
    exact .here "a\n" "\n"
  have hlist : Cuts (list [.text ("a\n" ++ "\n")]).toFragment
      (list [.text "a\n", .text "\n"]).toFragment := by
    show Cuts (.node [.text "["] ([] ++ item [.text ("a\n" ++ "\n")] :: [.text "b"]) _)
      (.node [.text "["] ([] ++ item [.text "a\n", .text "\n"] :: [.text "b"]) _)
    exact .body hitem
  have hcut : Relation.EqvGen Cuts (list [.text "a\n", .text "\n"]).toFragment
      (list [.text ("a\n" ++ "\n")]).toFragment :=
    .symm _ _ (.rel _ _ hlist)
  obtain ⟨hwrite, hrender⟩ := cuts_make_no_difference
  obtain ⟨hbuffer, -, -, -, -, hmarks⟩ := hwrite s "a\n" "\n"
  exact ⟨hmark, by decide +kernel, by decide +kernel, hbuffer, hmarks ⟨1⟩ hmark, hcut,
    hrender _ _ hcut .workList, by decide +kernel⟩

end

end Transcode.Output
