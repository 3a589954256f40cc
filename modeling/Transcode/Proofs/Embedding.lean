import Transcode.Proofs.Margins

namespace Transcode.Output

open Text

/-!
# Output inside of other output

What a tree comes to depends on the sink that it is written to: each line is indented as the sink
says, and separators ask what shows since a mark, which is a place in a text that was begun by
others.  If no indentation of a tree goes back to the left (`Fragment.GoesRight`), this is no more
than a difference of margins.  The tree can be written to a sink of its own, and the text moved to
the right as far as the other sink is indented (`indented`).

`Sink.Holds` relates a sink to such a sink of its own: the text of the one ends in the indented text
of the other, and the levels of the other are on top of its own.  Writing keeps this
(`Sink.Holds.writeFragment`).  Separators come at the same places, because what is asked of a mark
is only whether the text after it shows anything (`respects_shows`), and spaces at the beginnings of
lines do not.
-/

/-- The text with so many spaces more after each of its line breaks. -/
def indented (spaces : Nat) (text : String) : String :=
  String.ofList (Sink.indentBreaks spaces text.toList)

/-- Text is indented part by part. -/
theorem indented_append (spaces : Nat) (a b : String) :
    indented spaces (a ++ b) = indented spaces a ++ indented spaces b := by
  rw [indented, String.toList_append, Sink.indentBreaks_append, String.ofList_append]
  rfl

/-- Indented by nothing it is as it was. -/
theorem indented_zero (text : String) : indented 0 text = text := by
  have hchars : ∀ cs : List Char, Sink.indentBreaks 0 cs = cs := fun cs => by
    rw [Sink.indentBreaks]
    refine (List.flatMap_congr fun c _ => ?_).trans (List.flatMap_singleton' cs)
    split
    · rename_i hc
      rw [hc, List.replicate_zero]
    · rfl
  rw [indented, hchars, String.ofList_toList]

/-- Moved to the right twice, a text is moved as far as both times together. -/
theorem indented_indented (j k : Nat) (text : String) :
    indented k (indented j text) = indented (k + j) text := by
  have hspaces : Sink.indentBreaks k (List.replicate j ' ') = List.replicate j ' ' :=
    Sink.indentBreaks_eq_self (by simp [List.mem_replicate]) k
  rw [indented, indented, indented, String.toList_ofList]
  congr 1
  induction text.toList with
  | nil => rfl
  | cons c cs ih =>
    have hcons : ∀ n, Sink.indentBreaks n (c :: cs)
        = (if c = '\n' then '\n' :: List.replicate n ' ' else [c]) ++ Sink.indentBreaks n cs :=
      fun _ => List.flatMap_cons
    rw [hcons j, hcons (k + j), Sink.indentBreaks_append, ih]
    congr 1
    by_cases hc : c = '\n'
    · rw [if_pos hc, if_pos hc, ← List.singleton_append, Sink.indentBreaks_append, hspaces,
        List.replicate_add]
      simp [Sink.indentBreaks]
    · simp [Sink.indentBreaks, hc]

/-- It shows no more and no less than before. -/
theorem hasInk_indented (spaces : Nat) (text : String) :
    hasInk (indented spaces text) = hasInk text := by
  rw [hasInk, hasInk, indented, String.toList_ofList, Sink.indentBreaks, List.any_flatMap]
  refine List.any_congr rfl fun c => ?_
  split
  · rename_i hc
    have hblank : (List.replicate spaces ' ').any (!isBlank ·) = false := by
      simp [List.any_replicate, isBlank]
    rw [List.any_cons, hblank, hc]
    rfl
  · simp

mutual

/-- No indentation anywhere in a fragment goes back to the left. -/
def Fragment.GoesRight : Fragment → Prop
  | .text _ => True
  | .node lead body layout => 0 ≤ layout.indent ∧ AllGoRight lead ∧ AllGoRight body

/-- No indentation anywhere in some fragments goes back to the left. -/
def AllGoRight : List Fragment → Prop
  | [] => True
  | f :: rest => f.GoesRight ∧ AllGoRight rest

end

section

variable {s s' r r' : Sink}

/-! ### What shows -/

/-- Some text was added to a sink, and the end of what shows has moved if that text shows
    anything. -/
structure Sink.Adds (s : Sink) (text : String) (s' : Sink) : Prop where
  buffer : s'.buffer = s.buffer ++ text
  shows : hasInk text = true → s.buffer.utf8ByteSize < s'.inkEnd
  blank : hasInk text = false → s'.inkEnd = s.inkEnd

/-- Nothing is added where text and ink are as they were. -/
theorem Sink.Adds.none (hbuffer : s'.buffer = s.buffer) (hink : s'.inkEnd = s.inkEnd) :
    s.Adds "" s' :=
  ⟨hbuffer.trans String.append_empty.symm, by rw [hasInk_empty]; exact nofun, fun _ => hink⟩

/-- Texts added one after the other are added together. -/
theorem Sink.Adds.trans {s'' : Sink} {text text' : String} (h : s.Adds text s')
    (h' : s'.Adds text' s'') : s.Adds (text ++ text') s'' := by
  refine ⟨by rw [h'.buffer, h.buffer, String.append_assoc], fun hink => ?_, fun hblank => ?_⟩
  · cases htext' : hasInk text' with
    | true =>
      have hsize := h'.shows htext'
      rw [h.buffer, String.utf8ByteSize_append] at hsize
      omega
    | false =>
      rw [hasInk_append, htext', Bool.or_false] at hink
      rw [h'.blank htext']
      exact h.shows hink
  · rw [hasInk_append, Bool.or_eq_false_iff] at hblank
    rw [h'.blank hblank.2, h.blank hblank.1]

/-- Since a mark something shows exactly if the text written since does. -/
theorem Sink.Adds.wroteSince_mark {text : String} (h : s.Adds text s')
    (hink : s.inkEnd ≤ s.buffer.utf8ByteSize) : s'.wroteSince s.mark = hasInk text := by
  show decide (s.buffer.utf8ByteSize < s'.inkEnd) = hasInk text
  cases htext : hasInk text with
  | true => exact decide_eq_true (h.shows htext)
  | false =>
    rw [h.blank htext]
    exact decide_eq_false (Nat.not_lt.mpr hink)

/-- What shows is where it was when a request is applied -/
theorem inkEnd_applyPending (s : Sink) : s.applyPending.inkEnd = s.inkEnd := by
  rw [Sink.applyPending]
  split <;> rfl

/-- or undone. -/
theorem inkEnd_restore (s : Sink) (restore : Restore) : (s.restore restore).inkEnd = s.inkEnd := by
  rw [Sink.restore]
  split <;> rfl

/-- A text is added with the indentation that is in force once the pending request is applied. -/
theorem write_eq (s : Sink) (text : String) :
    let applied := if text.toList.contains '\n' then s.applyPending else s
    s.write text = { applied with
      buffer := s.buffer ++ indented applied.indentation text
      inkEnd := if hasInk text then (s.buffer ++ indented applied.indentation text).utf8ByteSize
        else s.inkEnd } := by
  intro applied
  have hbuffer : applied.buffer = s.buffer := by
    show (if _ then _ else _ : Sink).buffer = _
    split
    · exact buffer_applyPending s
    · rfl
  have hink : applied.inkEnd = s.inkEnd := by
    show (if _ then _ else _ : Sink).inkEnd = _
    split
    · exact inkEnd_applyPending s
    · rfl
  rw [← hbuffer, ← hink]
  rfl

/-- Whatever is written, the end of what shows goes with it. -/
theorem respects_shows : Sink.Respects fun s s' => ∃ text, s.Adds text s' where
  refl s := ⟨"", .none rfl rfl⟩
  trans := fun ⟨text, h⟩ ⟨text', h'⟩ => ⟨text ++ text', h.trans h'⟩
  write s text := by
    refine ⟨_, congrArg Sink.buffer (write_eq s text), fun hink => ?_, fun hblank => ?_⟩
    · rw [hasInk_indented] at hink
      rw [write_eq, if_pos hink]
      have hne : indented (if text.toList.contains '\n' then s.applyPending else s).indentation text
          ≠ "" := Sink.ne_empty_of_hasInk hink
      have hsize := Nat.pos_of_ne_zero (mt String.utf8ByteSize_eq_zero_iff.mp hne)
      rw [String.utf8ByteSize_append]
      exact Nat.lt_add_of_pos_right hsize
    · rw [hasInk_indented] at hblank
      rw [write_eq, hblank]
      rfl
  recordKey s key := by
    refine ⟨"", .none (buffer_recordKey s key) ?_⟩
    cases key with
    | none => rfl
    | some key =>
      rw [Sink.recordKey]
      split <;> rfl
  restore {s s'} delta h := by
    obtain ⟨text, hbuffer, hshows, hblank⟩ := h
    have hink := inkEnd_restore s' (s.request delta).2
    exact ⟨text, (buffer_restore _ _).trans hbuffer, fun h => hink ▸ hshows h,
      fun h => hink.trans (hblank h)⟩

/-! ### A sink that holds another one -/

/-- The sink `s`, which was `past` when it began, holds what the sink `r` was written: its text goes
    on with the text of `r`, indented as `past` is, and so does everything else. -/
structure Sink.Holds (past s r : Sink) : Prop where
  buffer : s.buffer = past.buffer ++ indented past.indentation r.buffer
  levels : s.levels = r.levels.map (past.indentation + ·) ++ past.levels
  pending : s.pending = r.pending
  nonneg : 0 ≤ r.pending
  applied : s.applied = past.applied + r.applied
  fired : ∀ key, key ∈ s.fired ↔ key ∈ r.fired
  ink_le : s.inkEnd ≤ s.buffer.utf8ByteSize
  ink_le' : r.inkEnd ≤ r.buffer.utf8ByteSize

namespace Sink.Holds

variable {past : Sink}

/-- The indentations add up. -/
theorem indentation (h : past.Holds s r) : s.indentation = past.indentation + r.indentation := by
  rw [Sink.indentation, h.levels]
  show _ = past.indentation + r.levels.headD 0
  cases r.levels with
  | nil => rfl
  | cons level levels => rfl

/-- Both apply what is pending. -/
theorem applyPending (h : past.Holds s r) : past.Holds s.applyPending r.applyPending := by
  rw [Sink.applyPending, Sink.applyPending, h.pending]
  split
  · exact h
  · have hlevel : (s.indentation + r.pending).toNat
        = past.indentation + (r.indentation + r.pending).toNat := by
      have hnonneg := h.nonneg
      rw [h.indentation]
      omega
    refine ⟨h.buffer, ?_, rfl, Int.le_refl 0, congrArg (· + 1) h.applied, h.fired, h.ink_le,
      h.ink_le'⟩
    show _ :: s.levels = _
    rw [hlevel, h.levels]
    rfl

/-- Both write the same text, one of them indented further. -/
theorem write (h : past.Holds s r) (text : String) : past.Holds (s.write text) (r.write text) := by
  have happlied : past.Holds (if text.toList.contains '\n' then s.applyPending else s)
      (if text.toList.contains '\n' then r.applyPending else r) := by
    split
    · exact h.applyPending
    · exact h
  have hink := respects_ink.write s text h.ink_le
  have hink' := respects_ink.write r text h.ink_le'
  rw [write_eq] at hink hink'
  rw [write_eq, write_eq]
  generalize (if text.toList.contains '\n' then s.applyPending else s) = s' at *
  generalize (if text.toList.contains '\n' then r.applyPending else r) = r' at *
  refine ⟨?_, happlied.levels, happlied.pending, happlied.nonneg, happlied.applied, happlied.fired,
    hink, hink'⟩
  rw [indented_append, indented_indented, ← happlied.indentation, ← String.append_assoc, h.buffer]

/-- A key fires for both or for neither. -/
theorem recordKey (h : past.Holds s r) (key : Option String) :
    past.Holds (s.recordKey key).1 (r.recordKey key).1
      ∧ (s.recordKey key).2 = (r.recordKey key).2 := by
  cases key with
  | none => exact ⟨h, rfl⟩
  | some key =>
    have hcontains : s.fired.contains key = r.fired.contains key := by
      rw [Bool.eq_iff_iff, List.contains_iff_mem, List.contains_iff_mem]
      exact h.fired key
    rw [Sink.recordKey, Sink.recordKey, hcontains]
    split
    · exact ⟨h, rfl⟩
    · refine ⟨{ h with fired := fun key' => ?_ }, rfl⟩
      rw [List.mem_cons, List.mem_cons, h.fired]

/-- Both take a request that goes right. -/
theorem request (h : past.Holds s r) {delta : Int} (hdelta : 0 ≤ delta) :
    past.Holds (s.request delta).1 (r.request delta).1 := by
  refine { h with pending := ?_, nonneg := ?_ }
  · rw [Sink.request, Sink.request, h.pending]
  · rw [Sink.request]
    dsimp only
    split
    · exact h.nonneg
    · exact hdelta

/-- A request is restored in the one sink as in the other. -/
theorem restore (h : past.Holds s r) (h' : past.Holds s' r') (delta : Int) :
    past.Holds (s'.restore (s.request delta).2) (r'.restore (r.request delta).2) := by
  by_cases hdelta : delta = 0
  · subst hdelta
    exact h'
  · have hsame : s'.applied = s.applied ↔ r'.applied = r.applied := by
      rw [h.applied, h'.applied]
      omega
    rw [restore_of_ne hdelta, restore_of_ne hdelta]
    refine ⟨h'.buffer, ?_, ?_, ?_, h'.applied, h'.fired, h'.ink_le, h'.ink_le'⟩
    · have hlength : s'.levels.length - s.levels.length = r'.levels.length - r.levels.length := by
        rw [h.levels, h'.levels, List.length_append, List.length_append, List.length_map,
          List.length_map]
        omega
      show s'.levels.drop _ = (r'.levels.drop _).map _ ++ past.levels
      rw [hlength, h'.levels, List.drop_append_of_le_length, List.map_drop]
      rw [List.length_map]
      exact Nat.sub_le _ _
    · exact if_congr hsame h.pending rfl
    · show 0 ≤ (if _ then _ else _ : Int)
      split
      · exact h.nonneg
      · exact Int.le_refl 0

/-- Both open a body, -/
theorem openBody (h : past.Holds s r) {layout : Layout} (hlayout : 0 ≤ layout.indent) :
    past.Holds (s.openBody layout).1 (r.openBody layout).1 := by
  rw [Sink.openBody, Sink.openBody]
  split
  · exact (h.request hlayout).write "\n"
  · exact h.request hlayout

/-- close it as they opened it, -/
theorem closeBody (h : past.Holds s r) (h' : past.Holds s' r') (layout : Layout) :
    past.Holds (s'.closeBody layout (s.openBody layout).2)
      (r'.closeBody layout (r.openBody layout).2) := by
  have hrestore := h.restore h' layout.indent
  show past.Holds ((s'.restore (s.request layout.indent).2).writeSuffix layout)
    ((r'.restore (r.request layout.indent).2).writeSuffix layout)
  rw [Sink.writeSuffix, Sink.writeSuffix]
  split
  · exact hrestore.write _
  · exact hrestore

/-- and write a separator if something was written to both. -/
theorem writeSeparator (h : past.Holds s r) (layout : Layout) {m m' : Mark}
    (hsince : s.wroteSince m = r.wroteSince m') :
    past.Holds (s.writeSeparator layout m) (r.writeSeparator layout m') := by
  rw [Sink.writeSeparator, Sink.writeSeparator, hsince]
  split
  · split
    · exact h.write _
    · exact h
  · exact h

/-- Something was written to both since the beginning, or to neither. -/
theorem wroteSince_mark (h : past.Holds s r) : s.wroteSince s.mark = r.wroteSince r.mark := by
  have hnone : s.wroteSince s.mark = false := decide_eq_false (Nat.not_lt.mpr h.ink_le)
  have hnone' : r.wroteSince r.mark = false := decide_eq_false (Nat.not_lt.mpr h.ink_le')
  rw [hnone, hnone']

/-- After a fragment, something shows in the one sink exactly if it does in the other. -/
theorem wroteSince (h : past.Holds s r) (f : Fragment)
    (h' : past.Holds (s.writeFragment f) (r.writeFragment f)) :
    (s.writeFragment f).wroteSince s.mark = (r.writeFragment f).wroteSince r.mark := by
  obtain ⟨text, hadds⟩ := respects_shows.writeFragment s f
  obtain ⟨text', hadds'⟩ := respects_shows.writeFragment r f
  have htext : text = indented past.indentation text' := by
    have hbuffer := h'.buffer
    rw [hadds.buffer, hadds'.buffer, h.buffer, indented_append, ← String.append_assoc] at hbuffer
    exact (String.append_right_inj _).mp hbuffer
  rw [hadds.wroteSince_mark h.ink_le, hadds'.wroteSince_mark h.ink_le', htext, hasInk_indented]

mutual

/-- Writing the same to a sink and to one that it holds. -/
theorem writeFragment {s r : Sink} (h : past.Holds s r) (f : Fragment) (hf : f.GoesRight) :
    past.Holds (s.writeFragment f) (r.writeFragment f) := by
  match f with
  | .text content => exact h.write content
  | .node lead body layout =>
    obtain ⟨hlayout, hlead, hbody⟩ := hf
    obtain ⟨hrecord, hverdict⟩ := h.recordKey layout.renderOnce
    rw [Sink.writeFragment, Sink.writeFragment]
    rcases hs : s.recordKey layout.renderOnce with ⟨s', verdict⟩
    rcases hr : r.recordKey layout.renderOnce with ⟨r', verdict'⟩
    rw [hs, hr] at hrecord hverdict
    obtain rfl : verdict = verdict' := hverdict
    cases verdict with
    | false => exact hrecord
    | true =>
      have hbegun : past.Holds (s'.writeLead lead) (r'.writeLead lead) :=
        hrecord.writeLead lead hlead
      have hopened := hbegun.openBody hlayout
      exact hbegun.closeBody (hopened.writeBody layout body hbody hopened.wroteSince_mark) layout

/-- Both write the fragments at the beginning of a tree, if none goes left. -/
theorem writeLead {s r : Sink} (h : past.Holds s r) (fs : List Fragment) (hfs : AllGoRight fs) :
    past.Holds (s.writeLead fs) (r.writeLead fs) := by
  match fs with
  | [] => exact h
  | f :: rest =>
    rw [Sink.writeLead, Sink.writeLead]
    exact (h.writeFragment f hfs.1).writeLead rest hfs.2

/-- Both write a body, if none of its fragments goes left. -/
theorem writeBody {s r : Sink} (h : past.Holds s r) (layout : Layout) (fs : List Fragment)
    (hfs : AllGoRight fs) {m m' : Mark} (hsince : s.wroteSince m = r.wroteSince m') :
    past.Holds (s.writeBody layout m fs) (r.writeBody layout m' fs) := by
  match fs with
  | [] => exact h
  | f :: rest =>
    have hbegun := h.writeSeparator layout hsince
    have hwritten := hbegun.writeFragment f hfs.1
    rw [Sink.writeBody, Sink.writeBody]
    exact hwritten.writeBody layout rest hfs.2 (hbegun.wroteSince f hwritten)

end

end Sink.Holds

/-- A sink with nothing pending holds a new one in which the same keys fired. -/
theorem holds_new (hpending : s.pending = 0) (hink : s.inkEnd ≤ s.buffer.utf8ByteSize)
    {keys : List String} (hfired : ∀ key, key ∈ s.fired ↔ key ∈ keys) :
    s.Holds s { fired := keys } where
  buffer := String.append_empty.symm
  levels := rfl
  pending := hpending
  nonneg := Int.le_refl 0
  applied := rfl
  fired := hfired
  ink_le := hink
  ink_le' := Nat.le_refl 0

/-- Throughout a session, what shows is part of the text. -/
theorem ink_le_runAll {session : Session}
    (h : session.sink.inkEnd ≤ session.sink.buffer.utf8ByteSize) (cs : List Command) :
    (session.runAll cs).sink.inkEnd ≤ (session.runAll cs).sink.buffer.utf8ByteSize := by
  refine respects_ink.runAll (fun _ _ => id) (fun s restore hink => ?_) session cs h
  rwa [buffer_restore, inkEnd_restore]

/-- **Rendering is compositional in indentation.**  Let a tree have no indentation that goes back to
    the left, and let it be written to two sinks in which nothing is pending and the same keys
    fired, whatever else was written to them.  If the one is not indented, what the tree adds to the
    other is what it adds to this one, with the indentation of the other after every line break;
    and the same keys have fired afterwards. -/
theorem text_moves_right (before before' : List Command) (t : Tree)
    (ht : t.toFragment.GoesRight) :
    let s := (Session.runAll {} before).sink
    let s' := (Session.runAll {} before').sink
    s.pending = 0 → s'.pending = 0 → s'.indentation = 0 →
      (∀ key, key ∈ s.fired ↔ key ∈ s'.fired) →
      ∃ text, (s'.writeTree t).buffer = s'.buffer ++ text
        ∧ (s.writeTree t).buffer = s.buffer ++ indented s.indentation text
        ∧ ∀ key, key ∈ (s.writeTree t).fired ↔ key ∈ (s'.writeTree t).fired := by
  intro s s' hpending hpending' hzero hfired
  have hink : s.inkEnd ≤ s.buffer.utf8ByteSize := ink_le_runAll (Nat.le_refl 0) before
  have hink' : s'.inkEnd ≤ s'.buffer.utf8ByteSize := ink_le_runAll (Nat.le_refl 0) before'
  have hholds : s.Holds (s.writeTree t) _ :=
    (holds_new hpending hink hfired).writeFragment t.toFragment ht
  have hholds' : s'.Holds (s'.writeTree t) _ :=
    (holds_new hpending' hink' fun _ => .rfl).writeFragment t.toFragment ht
  refine ⟨_, ?_, hholds.buffer, fun key => (hholds.fired key).trans (hholds'.fired key).symm⟩
  rw [hholds'.buffer, hzero, indented_zero]

/-- A list inside of a list, with a comma only after what shows; the tree under the key was written
    to both sinks before. -/
theorem text_moves_right_nested :
    let once := (Tree.ofText "c").withKey "k"
    let inner := (Tree.ofText "[").withBody [.text "\nb", once, .text "\nd"]
      |>.withSeparator ","
      |>.withIndent 2
      |>.withSuffix "\n]"
    let t := (Tree.ofText "[").withBody [.text "\na", .text "\n", inner]
      |>.withSeparator ","
      |>.withIndent 2
      |>.withSuffix "\n]"
    let s := (Session.runAll {} [.recordKey (some "k"), .write "x", .request 4, .newline]).sink
    let s' := (Session.runAll {} [.write "\n", .recordKey (some "k")]).sink
    t.toFragment.GoesRight
      ∧ s.pending = 0 ∧ s'.pending = 0 ∧ s.indentation = 4 ∧ s'.indentation = 0
      ∧ (∀ key, key ∈ s.fired ↔ key ∈ s'.fired)
      ∧ (∃ text, (s'.writeTree t).buffer = s'.buffer ++ text
        ∧ (s.writeTree t).buffer = s.buffer ++ indented s.indentation text
        ∧ ∀ key, key ∈ (s.writeTree t).fired ↔ key ∈ (s'.writeTree t).fired)
      ∧ (s'.writeTree t).buffer = "\n[\n  a,\n  [\n    b,\n    d\n  ]\n]"
      ∧ (s.writeTree t).buffer
        = "x\n    [\n      a,\n      [\n        b,\n        d\n      ]\n    ]" := by
  intro once inner t s s'
  have hright : t.toFragment.GoesRight := by
    simp [t, inner, once, Tree.ofText, Tree.ofFragments, Tree.withBody, Tree.withSeparator,
      Tree.withIndent, Tree.withSuffix, Tree.closing?, Tree.withKey, Tree.toFragment, nonempty,
      Fragment.isEmpty, Tree.isEmpty, Tree.empty, Fragment.GoesRight, AllGoRight]
  have hpending : s.pending = 0 := by decide +kernel
  have hpending' : s'.pending = 0 := by decide +kernel
  have hzero : s'.indentation = 0 := by decide +kernel
  have hfired : s.fired = s'.fired := by decide +kernel
  exact ⟨hright, hpending, hpending', by decide +kernel, hzero, fun key => by rw [hfired],
    text_moves_right _ _ t hright hpending hpending' hzero fun key => by rw [hfired],
    by decide +kernel, by decide +kernel⟩

end

end Transcode.Output
