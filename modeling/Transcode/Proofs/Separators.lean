import Transcode.Proofs.Occurrences

namespace Transcode.Output

/-!
# Separators around what writes nothing

The separator before a fragment of a body is written when the fragment before it showed something.
It is written before the sink comes to the fragment, and so before it turns out whether that one
writes anything.  If it does not, the separator is there already, and the next fragment goes without
one.  So a fragment that writes nothing can be left out of a body where another one follows it
(`writeFragment_of_omits`): the separators around it are one separator, or none.

At the end of a body no other fragment makes up for it.  There the separator before a fragment that
writes nothing stays behind (`writeBody_concat`, `separator_dangles`).
-/

/-! ### Fragments that write nothing -/

/-- Written to the sink, the fragment adds no text, and no key fires that had not fired before. -/
structure Fragment.IsSilentIn (f : Fragment) (s : Sink) : Prop where
  buffer : (s.writeFragment f).buffer = s.buffer
  fired : (s.writeFragment f).fired = s.fired

/-- A sink to which no text was added is the same but for its keys. -/
def Sink.Idles (s s' : Sink) : Prop :=
  s.Grows s' ∧ (s'.buffer = s.buffer → s' = s.withFired s'.fired)

section

variable {s s' s'' : Sink}

theorem Sink.Grows.buffer_eq (h : s.Grows s') (h' : s'.Grows s'') (hsame : s''.buffer = s.buffer) :
    s'.buffer = s.buffer ∧ s''.buffer = s'.buffer := by
  obtain ⟨text, htext⟩ := h
  obtain ⟨text', htext'⟩ := h'
  have hsize := congrArg String.utf8ByteSize hsame
  rw [htext', htext, String.utf8ByteSize_append, String.utf8ByteSize_append] at hsize
  have hnone : text = "" := String.utf8ByteSize_eq_zero_iff.mp (by omega)
  have hnone' : text' = "" := String.utf8ByteSize_eq_zero_iff.mp (by omega)
  subst hnone hnone'
  exact ⟨htext.trans String.append_empty, htext'.trans String.append_empty⟩

/-- A text that adds nothing is empty, as even a line break alone is something. -/
theorem eq_empty_of_buffer_write {text : String} (h : (s.write text).buffer = s.buffer) :
    text = "" := by
  obtain ⟨k, hk⟩ := exists_buffer_write s text
  have hsize := congrArg String.utf8ByteSize (hk.symm.trans h)
  rw [String.utf8ByteSize_append] at hsize
  have hempty := String.utf8ByteSize_eq_zero_iff.mp
    (show (String.ofList (Sink.indentBreaks k text.toList)).utf8ByteSize = 0 by omega)
  rw [String.ofList_eq_empty_iff] at hempty
  cases htext : text.toList with
  | nil => exact String.toList_eq_nil_iff.mp htext
  | cons c cs =>
    rw [htext, Sink.indentBreaks, List.flatMap_cons] at hempty
    split at hempty <;> simp at hempty

/-- What writes nothing changes nothing but the keys that fired. -/
theorem respects_idles : Sink.Respects Sink.Idles where
  refl s := ⟨.refl s, fun _ => rfl⟩
  trans := by
    rintro s s' s'' ⟨hgrows, hidles⟩ ⟨hgrows', hidles'⟩
    refine ⟨hgrows.trans hgrows', fun hsame => ?_⟩
    obtain ⟨hfirst, hsecond⟩ := hgrows.buffer_eq hgrows' hsame
    rw [hidles' hsecond, hidles hfirst]
    rfl
  write s text := by
    refine ⟨grows_write text, fun hsame => ?_⟩
    rw [eq_empty_of_buffer_write hsame, Sink.write_empty]
    rfl
  recordKey s key := by
    refine ⟨⟨"", by rw [buffer_recordKey, String.append_empty]⟩, fun _ => ?_⟩
    cases key with
    | none => rfl
    | some key =>
      rw [Sink.recordKey]
      split <;> rfl
  restore {s s'} delta h := by
    obtain ⟨hgrows, hidles⟩ := h
    refine ⟨respects_grows.restore delta hgrows, fun hsame => ?_⟩
    rw [buffer_restore] at hsame
    -- Nothing was applied, and so the request is undone without a trace.
    have hrestore : s'.restore (s.request delta).2
        = ((s.request delta).1.restore (s.request delta).2).withFired s'.fired := by
      rw [hidles hsame, Sink.restore, Sink.restore]
      split <;> rfl
    rw [hrestore, Sink.restore_request]
    rfl

/-- A fragment that writes nothing leaves the sink as it is. -/
theorem Fragment.IsSilentIn.writeFragment_eq {f : Fragment} (h : f.IsSilentIn s) :
    s.writeFragment f = s := by
  have hidles := (respects_idles.writeFragment s f).2 h.buffer
  rwa [h.fired, Sink.withFired_fired] at hidles

end

/-! ### Bodies without them -/

/-- The sink in which writing a body comes to the fragment after the given ones, the separator
    before it included. -/
def Sink.reach (s : Sink) (layout : Layout) (m : Mark) : List Fragment → Sink
  | [] => s.writeSeparator layout m
  | f :: rest =>
    let s := s.writeSeparator layout m
    (s.writeFragment f).reach layout s.mark rest

section

variable {s s' : Sink} {f g : Fragment} {before after : List Fragment} {layout : Layout} {m : Mark}

/-- A body is written up to one of its fragments, and on from there. -/
theorem writeBody_append_cons (s : Sink) (layout : Layout) (m : Mark) (before : List Fragment)
    (f : Fragment) (after : List Fragment) :
    s.writeBody layout m (before ++ f :: after)
      = ((s.reach layout m before).writeFragment f).writeBody layout
          (s.reach layout m before).mark after := by
  induction before generalizing s m with
  | nil => rfl
  | cons g before ih => exact ih _ _

theorem ink_reach (s : Sink) (layout : Layout) (m : Mark) (before : List Fragment) :
    s.inkEnd ≤ s.buffer.utf8ByteSize →
      (s.reach layout m before).inkEnd ≤ (s.reach layout m before).buffer.utf8ByteSize := by
  induction before generalizing s m with
  | nil => exact respects_ink.writeSeparator s layout m
  | cons g before ih =>
    intro hink
    exact ih _ _ (respects_ink.writeFragment _ g (respects_ink.writeSeparator s layout m hink))

/-- No separator comes where nothing was written since the mark. -/
theorem writeSeparator_mark (hink : s.inkEnd ≤ s.buffer.utf8ByteSize) (layout : Layout) :
    s.writeSeparator layout s.mark = s := by
  have hsince : s.wroteSince s.mark = false := decide_eq_false (Nat.not_lt.mpr hink)
  rw [Sink.writeSeparator]
  cases layout.separator with
  | none => rfl
  | some separator =>
    rw [hsince]
    rfl

/-- What writes nothing can be left out where another fragment follows. -/
theorem writeBody_of_silent (hink : s.inkEnd ≤ s.buffer.utf8ByteSize)
    (hsilent : f.IsSilentIn (s.reach layout m before)) (g : Fragment) (after : List Fragment) :
    s.writeBody layout m (before ++ f :: g :: after)
      = s.writeBody layout m (before ++ g :: after) := by
  have hreach := ink_reach s layout m before hink
  rw [writeBody_append_cons, writeBody_append_cons, hsilent.writeFragment_eq, Sink.writeBody,
    writeSeparator_mark hreach]

/-- At the end of a body it leaves the separator before it behind. -/
theorem writeBody_concat (hsilent : f.IsSilentIn (s.reach layout m before)) :
    s.writeBody layout m (before ++ [f]) = s.reach layout m before := by
  rw [writeBody_append_cons, hsilent.writeFragment_eq]
  rfl

end

/-! ### Trees without them -/

/-- The sink in which the body of a tree begins. -/
def Sink.opened (s : Sink) (lead : List Fragment) (layout : Layout) : Sink :=
  ((s.writeLead lead).openBody layout).1

/-- The sink in which writing a tree comes to the fragment of its body after the given ones. -/
def Sink.reachIn (s : Sink) (lead : List Fragment) (layout : Layout) (before : List Fragment) :
    Sink :=
  (s.opened lead layout).reach layout (s.opened lead layout).mark before

/-- In the body of a tree, a separator is written after the given fragments. -/
def Sink.separates (s : Sink) (lead : List Fragment) (layout : Layout) (before : List Fragment) :
    Bool :=
  s.reachIn lead layout before
    != (s.opened lead layout).writeBody layout (s.opened lead layout).mark before

/-- The second fragment is the first without one fragment of a body, which writes nothing when
    writing the first one to the sink comes to it.  It is told whether that one is the last of its
    body and has a separator before it. -/
inductive Omits : Sink → Fragment → Fragment → Bool → Prop
  | here {s s' : Sink} {lead before after : List Fragment} {f : Fragment} {layout : Layout} :
      s.recordKey layout.renderOnce = (s', true) → f.IsSilentIn (s'.reachIn lead layout before) →
      Omits s (.node lead (before ++ f :: after) layout) (.node lead (before ++ after) layout)
        (after.isEmpty && s'.separates lead layout before)
  | lead {s s' : Sink} {before after body : List Fragment} {f g : Fragment} {layout : Layout}
      {dangling : Bool} :
      s.recordKey layout.renderOnce = (s', true) → Omits (s'.writeLead before) f g dangling →
      Omits s (.node (before ++ f :: after) body layout) (.node (before ++ g :: after) body layout)
        dangling
  | body {s s' : Sink} {lead before after : List Fragment} {f g : Fragment} {layout : Layout}
      {dangling : Bool} :
      s.recordKey layout.renderOnce = (s', true) →
      Omits (s'.reachIn lead layout before) f g dangling →
      Omits s (.node lead (before ++ f :: after) layout) (.node lead (before ++ g :: after) layout)
        dangling

section

variable {s s' : Sink} {lead body body' : List Fragment} {layout : Layout}

theorem ink_of_recordKey {key : Option String} (hkey : s.recordKey key = (s', true))
    (hink : s.inkEnd ≤ s.buffer.utf8ByteSize) : s'.inkEnd ≤ s'.buffer.utf8ByteSize := by
  have hrecorded := respects_ink.recordKey s key hink
  rwa [hkey] at hrecorded

theorem ink_opened (lead : List Fragment) (layout : Layout)
    (hink : s.inkEnd ≤ s.buffer.utf8ByteSize) :
    (s.opened lead layout).inkEnd ≤ (s.opened lead layout).buffer.utf8ByteSize := by
  have hlead := respects_ink.writeLead s lead hink
  rw [Sink.opened, Sink.openBody]
  split
  · exact respects_ink.write _ "\n" hlead
  · exact hlead

theorem writeFragment_node (hkey : s.recordKey layout.renderOnce = (s', true)) :
    s.writeFragment (.node lead body layout)
      = ((s'.opened lead layout).writeBody layout (s'.opened lead layout).mark body).closeBody layout
          ((s'.writeLead lead).openBody layout).2 := by
  rw [Sink.writeFragment, hkey]
  rfl

/-- Trees with different bodies are written alike if the bodies are. -/
theorem writeFragment_congr (hkey : s.recordKey layout.renderOnce = (s', true))
    (h : (s'.opened lead layout).writeBody layout (s'.opened lead layout).mark body
      = (s'.opened lead layout).writeBody layout (s'.opened lead layout).mark body') :
    s.writeFragment (.node lead body layout) = s.writeFragment (.node lead body' layout) := by
  rw [writeFragment_node hkey, writeFragment_node hkey, h]

/-- What writes nothing can be left out of a body anywhere in a tree, unless it is the last of its
    body and comes after a separator.  No separator is left over in front of it or after it. -/
theorem writeFragment_of_omits {f g : Fragment} {dangling : Bool} (h : Omits s f g dangling)
    (hnot : dangling = false) (hink : s.inkEnd ≤ s.buffer.utf8ByteSize) :
    s.writeFragment f = s.writeFragment g := by
  induction h with
  | @here s s' lead before after f layout hkey hsilent =>
    refine writeFragment_congr hkey ?_
    cases after with
    | nil =>
      rw [List.isEmpty_nil, Bool.true_and, Sink.separates, bne_eq_false_iff_eq] at hnot
      rw [writeBody_concat hsilent, List.append_nil]
      exact hnot
    | cons g after =>
      exact writeBody_of_silent (ink_opened lead layout (ink_of_recordKey hkey hink)) hsilent g after
  | @lead s s' before after body f g layout dangling hkey _ ih =>
    have hbefore := respects_ink.writeLead s' before (ink_of_recordKey hkey hink)
    have hlead : s'.writeLead (before ++ f :: after) = s'.writeLead (before ++ g :: after) := by
      rw [writeLead_append, writeLead_append, Sink.writeLead, Sink.writeLead, ih hnot hbefore]
    rw [writeFragment_node hkey, writeFragment_node hkey, Sink.opened, Sink.opened, hlead]
  | @body s s' lead before after f g layout dangling hkey _ ih =>
    have hopened := ink_opened lead layout (ink_of_recordKey hkey hink)
    refine writeFragment_congr hkey ?_
    rw [writeBody_append_cons, writeBody_append_cons]
    exact congrArg (Sink.writeBody · layout _ after)
      (ih hnot (ink_reach _ layout _ before hopened))

/-- Leaving out what writes nothing does not change the text of a tree, unless a separator before it
    would stay behind at the end of a body. -/
theorem render_of_omits {t u : Tree} (h : Omits {} t.toFragment u.toFragment false) :
    render t = render u :=
  congrArg Sink.finish (writeFragment_of_omits h rfl (Nat.le_refl _))

end

/-- The separator before a tree that was written already stays behind at the end of a body. -/
theorem separator_dangles :
    ¬ ∀ (t u : Tree) (dangling : Bool), Omits {} t.toFragment u.toFragment dangling →
      render t = render u := by
  let once := ((Tree.ofText "a").withKey "k").toFragment
  let layout : Layout := { separator := some ", " }
  have hsilent : once.IsSilentIn (Sink.reachIn {} [] layout [once]) :=
    ⟨by decide +kernel, by decide +kernel⟩
  intro hclaim
  have hsame := hclaim ⟨[], [once] ++ [once], layout⟩ ⟨[], [once] ++ [], layout⟩ _
    (.here rfl hsilent)
  exact absurd hsame (by decide +kernel)

end Transcode.Output
