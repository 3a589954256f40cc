import Transcode.Proofs.Embedding
import Transcode.Proofs.Separators

namespace Transcode.Output

open Text

/-!
# What shows since a mark

A sink keeps one number about what shows: where the last piece of text that shows anything ended.
It moves to the end of the whole piece, also if only a part of the piece shows.  That is enough
because marks come between pieces: every mark, old or new, knows whether the text after it shows
anything (`Sink.Sees`), through all that is done in a session.

So the separators in a tree go by what can be read in the output.  `Sink.compose` writes a tree and
does not ask the sink: it looks at the text that a fragment of a body came to, and writes the
separator before the next one if a character of that text shows.  Writing a tree is the same
(`marks_see`).
-/

section

variable {s s' : Sink} {m : Mark} {text after : String}

/-! ### Marks -/

/-- The text `after` was written after the mark, and the sink tells whether it shows anything. -/
structure Sink.Sees (s : Sink) (m : Mark) (after : String) : Prop where
  split : ∃ before, s.buffer = before ++ after ∧ before.utf8ByteSize = m.offset
  wroteSince : s.wroteSince m = hasInk after

/-- A mark is taken before something is written. -/
theorem Sink.Adds.sees (h : s.Adds text s') (hink : s.inkEnd ≤ s.buffer.utf8ByteSize) :
    s'.Sees s.mark text :=
  ⟨⟨s.buffer, h.buffer, rfl⟩, h.wroteSince_mark hink⟩

/-- Something more is written. -/
theorem Sink.Sees.adds (h : s.Sees m after) (hadds : s.Adds text s') :
    s'.Sees m (after ++ text) := by
  obtain ⟨before, hbuffer, hbefore⟩ := h.split
  refine ⟨⟨before, by rw [hadds.buffer, hbuffer, String.append_assoc], hbefore⟩, ?_⟩
  rw [hasInk_append]
  cases htext : hasInk text with
  | true =>
    have hshows := hadds.shows htext
    rw [hbuffer, String.utf8ByteSize_append] at hshows
    rw [Bool.or_true]
    exact decide_eq_true (by omega)
  | false =>
    show decide (m.offset < s'.inkEnd) = _
    rw [hadds.blank htext, Bool.or_false]
    exact h.wroteSince

/-! ### Sessions -/

/-- Whatever is done to a sink, the end of what shows goes with the text. -/
theorem exists_adds_run (session : Session) (c : Command) :
    ∃ text, session.sink.Adds text (session.run c).1.sink :=
  respects_shows.run session c (fun _ _ => ⟨"", .none rfl rfl⟩)
    fun _ _ _ => ⟨"", .none (buffer_restore _ _) (inkEnd_restore _ _)⟩

/-- A mark was there before a command, or it was taken by the command. -/
theorem mem_marks_run {session : Session} {c : Command} (hm : m ∈ (session.run c).1.marks) :
    m ∈ session.marks ∨ m = session.sink.mark := by
  cases c with
  | mark => exact (List.mem_append.mp hm).imp_right List.mem_singleton.mp
  | restore n =>
    rw [Session.run] at hm
    split at hm <;> exact .inl hm
  | wroteSince n =>
    rw [Session.run] at hm
    split at hm <;> exact .inl hm
  | write _ | newline | writeTree _ _ | request _ | recordKey _ => exact .inl hm

/-- Marks go on to see through a command. -/
theorem sees_run {session : Session} (hink : session.sink.inkEnd ≤ session.sink.buffer.utf8ByteSize)
    (h : ∀ m ∈ session.marks, ∃ after, session.sink.Sees m after) (c : Command) :
    ∀ m ∈ (session.run c).1.marks, ∃ after, (session.run c).1.sink.Sees m after := by
  intro m hm
  obtain ⟨text, hadds⟩ := exists_adds_run session c
  rcases mem_marks_run hm with hm | rfl
  · obtain ⟨after, hafter⟩ := h m hm
    exact ⟨after ++ text, hafter.adds hadds⟩
  · exact ⟨text, hadds.sees hink⟩

/-- So they do through a session. -/
theorem sees_runAll {session : Session}
    (hink : session.sink.inkEnd ≤ session.sink.buffer.utf8ByteSize)
    (h : ∀ m ∈ session.marks, ∃ after, session.sink.Sees m after) (cs : List Command) :
    ∀ m ∈ (session.runAll cs).marks, ∃ after, (session.runAll cs).sink.Sees m after := by
  induction cs generalizing session with
  | nil => exact h
  | cons c cs ih => exact ih (ink_le_runAll hink [c]) (sees_run hink h c)

/-! ### Separators by what is read -/

namespace Sink

/-- The text written after a mark. -/
def textSince (s : Sink) (m : Mark) : String :=
  slice s.buffer m.offset s.buffer.utf8ByteSize

/-- Write the separator of `layout`, if it has one and there is a text before it that shows
    something. -/
def separate (s : Sink) (layout : Layout) (before : Option String) : Sink :=
  match layout.separator with
  | some separator => if before.any hasInk then s.write separator else s
  | none => s

mutual

/-- Write a fragment, with separators by what can be read. -/
def composeFragment (s : Sink) : Fragment → Sink
  | .text content => s.write content
  | .node lead body layout =>
    match s.recordKey layout.renderOnce with
    | (s, false) => s
    | (s, true) =>
      let opened := (composeLead s lead).openBody layout
      (composeBody opened.1 layout none body).closeBody layout opened.2

/-- Write the fragments that a tree begins with. -/
def composeLead (s : Sink) : List Fragment → Sink
  | [] => s
  | f :: rest => composeLead (composeFragment s f) rest

/-- Write the fragments of a body; `before` is the text of the previous one, if there is one. -/
def composeBody (s : Sink) (layout : Layout) (before : Option String) : List Fragment → Sink
  | [] => s
  | f :: rest =>
    let begun := s.separate layout before
    let written := composeFragment begun f
    composeBody written layout (some (written.textSince begun.mark)) rest

end

/-- Write a tree, with separators by what can be read. -/
def compose (s : Sink) (t : Tree) : Sink :=
  s.composeFragment t.toFragment

end Sink

theorem Sink.Adds.textSince (h : s.Adds text s') : s'.textSince s.mark = text := by
  have hslice := slice_append s.buffer.toList text.toList []
  rw [List.append_nil, String.ofList_append, String.ofList_toList, String.ofList_toList,
    ← utf8ByteSize_eq_byteLength, ← utf8ByteSize_eq_byteLength] at hslice
  rw [Sink.textSince, h.buffer, String.utf8ByteSize_append]
  exact hslice

theorem writeSeparator_eq_separate {before : Option String} (layout : Layout)
    (h : s.wroteSince m = before.any hasInk) :
    s.writeSeparator layout m = s.separate layout before := by
  rw [Sink.writeSeparator, h]
  rfl

mutual

/-- The sink and the reader agree on every separator. -/
theorem writeFragment_eq_compose {s : Sink} (f : Fragment)
    (hink : s.inkEnd ≤ s.buffer.utf8ByteSize) :
    s.writeFragment f = s.composeFragment f := by
  match f with
  | .text content => rfl
  | .node lead body layout =>
    rcases hkey : s.recordKey layout.renderOnce with ⟨s', _ | _⟩
    · rw [Sink.writeFragment, Sink.composeFragment, hkey]
    · have hink' := ink_of_recordKey hkey hink
      have hopened := ink_opened lead layout hink'
      have hnone : (s'.opened lead layout).wroteSince (s'.opened lead layout).mark
          = (none : Option String).any hasInk := decide_eq_false (Nat.not_lt.mpr hopened)
      rw [writeFragment_node hkey, writeBody_eq_compose body layout hopened hnone, Sink.opened,
        writeLead_eq_compose lead hink', Sink.composeFragment, hkey]

theorem writeLead_eq_compose {s : Sink} (fs : List Fragment)
    (hink : s.inkEnd ≤ s.buffer.utf8ByteSize) :
    s.writeLead fs = s.composeLead fs := by
  match fs with
  | [] => rfl
  | f :: rest =>
    have hwritten := respects_ink.writeFragment s f hink
    rw [Sink.writeLead, Sink.composeLead, writeLead_eq_compose rest hwritten,
      writeFragment_eq_compose f hink]

/-- What the sink is asked about the mark is what is read in the text of the previous fragment. -/
theorem writeBody_eq_compose {s : Sink} {m : Mark} {before : Option String} (fs : List Fragment)
    (layout : Layout) (hink : s.inkEnd ≤ s.buffer.utf8ByteSize)
    (h : s.wroteSince m = before.any hasInk) :
    s.writeBody layout m fs = s.composeBody layout before fs := by
  match fs with
  | [] => rfl
  | f :: rest =>
    have hbegun := respects_ink.writeSeparator s layout m hink
    rw [Sink.writeBody, Sink.composeBody]
    rw [writeSeparator_eq_separate layout h] at hbegun ⊢
    generalize s.separate layout before = begun at hbegun ⊢
    obtain ⟨text, hadds⟩ := respects_shows.writeFragment begun f
    have hwritten := respects_ink.writeFragment begun f hbegun
    have hnext : (begun.writeFragment f).wroteSince begun.mark
        = (some ((begun.writeFragment f).textSince begun.mark)).any hasInk := by
      rw [hadds.wroteSince_mark hbegun, hadds.textSince]
      rfl
    rw [writeBody_eq_compose rest layout hwritten hnext, writeFragment_eq_compose f hbegun]

end

/-- **Marks see what shows.**  At the end of any session, the text before a mark that was taken
    during it and the text written after the mark make up the whole text, and the sink says that
    something shows since the mark exactly if the text after it has a character that is not blank.

    So writing a tree at the end of any session puts a separator before a fragment of a body exactly
    if the text that the fragment before it came to has such a character, and none before the first
    fragment; and this is so for the trees inside of it, at any depth. -/
theorem marks_see (cs : List Command) :
    let session := Session.runAll {} cs
    (∀ m ∈ session.marks, ∃ before after, session.sink.buffer = before ++ after
        ∧ before.utf8ByteSize = m.offset
        ∧ (session.sink.wroteSince m = true ↔ ∃ c ∈ after.toList, isBlank c = false))
      ∧ ∀ t : Tree, session.sink.writeTree t = session.sink.compose t := by
  intro session
  have hink : session.sink.inkEnd ≤ session.sink.buffer.utf8ByteSize :=
    ink_le_runAll (Nat.le_refl 0) cs
  have hsees : ∀ m ∈ session.marks, ∃ after, session.sink.Sees m after :=
    sees_runAll (Nat.le_refl 0) (List.forall_mem_nil _) cs
  refine ⟨fun m hm => ?_, fun t => writeFragment_eq_compose t.toFragment hink⟩
  obtain ⟨after, ⟨before, hbuffer, hbefore⟩, hwrote⟩ := hsees m hm
  refine ⟨before, after, hbuffer, hbefore, ?_⟩
  rw [hwrote, hasInk, List.any_eq_true]
  simp

/-- Marks before and after what shows, and a separator that comes after a fragment that shows but
    not after a blank one. -/
theorem marks_see_list :
    let t := (Tree.ofText "(").withBody [.text " ", .text "b", .text "c"] |>.withSeparator ","
    let session := Session.runAll {}
      [.write "a", .mark, .write " \n", .mark, .writeTree t .recursive, .mark, .write " "]
    session.marks = [⟨1⟩, ⟨3⟩, ⟨8⟩] ∧ session.sink.buffer = "a \n( b,c "
      ∧ (∃ before after, session.sink.buffer = before ++ after ∧ before.utf8ByteSize = 3
        ∧ (session.sink.wroteSince ⟨3⟩ = true ↔ ∃ c ∈ after.toList, isBlank c = false))
      ∧ (∃ before after, session.sink.buffer = before ++ after ∧ before.utf8ByteSize = 8
        ∧ (session.sink.wroteSince ⟨8⟩ = true ↔ ∃ c ∈ after.toList, isBlank c = false))
      ∧ session.sink.wroteSince ⟨3⟩ = true ∧ session.sink.wroteSince ⟨8⟩ = false
      ∧ session.sink.writeTree t = session.sink.compose t := by
  intro t session
  have hmarks : session.marks = [⟨1⟩, ⟨3⟩, ⟨8⟩] := by decide +kernel
  obtain ⟨hsee, hcompose⟩ := marks_see
    [.write "a", .mark, .write " \n", .mark, .writeTree t .recursive, .mark, .write " "]
  exact ⟨hmarks, by decide +kernel, hsee ⟨3⟩ (by rw [hmarks]; simp),
    hsee ⟨8⟩ (by rw [hmarks]; simp), by decide +kernel, by decide +kernel, hcompose t⟩

end

end Transcode.Output
