import Mathlib.Data.List.Forall2
import Transcode.Proofs.Strategies

namespace Transcode.Output

/-!
# What writing does to a sink

A relation between sinks that every operation respects holds between a sink and what writing makes
of it (`Sink.Respects.writeFragment`).  For one, writing only ever adds text (`respects_grows`).
What it adds depends on the sink: line breaks are followed by the indentation, separators ask
whether something shows, and a tree with a key is passed over if the key fired before.  Where none
of this matters, a fragment `Shows` one text in every sink, and its text is what rendering gives
(`Shows.render`).
-/

/-! ### What writing respects -/

/-- Whatever is done to a sink in order to write something, the relation holds between it and what
    becomes of it.  A request is undone by the time that the writing is over. -/
structure Sink.Respects (P : Sink → Sink → Prop) : Prop where
  refl : ∀ s, P s s
  trans : ∀ {s s' s''}, P s s' → P s' s'' → P s s''
  write : ∀ s text, P s (s.write text)
  recordKey : ∀ s key, P s (s.recordKey key).1
  restore : ∀ {s s'} delta, P (s.request delta).1 s' → P s (s'.restore (s.request delta).2)

section

variable {s s' s'' : Sink} {P : Sink → Sink → Prop}

namespace Sink.Respects

/-- Writing a separator is respected, -/
theorem writeSeparator (h : Respects P) (s : Sink) (layout : Layout) (m : Mark) :
    P s (s.writeSeparator layout m) := by
  rw [Sink.writeSeparator]
  split
  · split
    · exact h.write s _
    · exact h.refl s
  · exact h.refl s

/-- What is written between opening a body and closing it. -/
theorem closeBody (h : Respects P) (s : Sink) (layout : Layout)
    (hbody : P (s.openBody layout).1 s') : P s (s'.closeBody layout (s.openBody layout).2) := by
  have hopen : P (s.request layout.indent).1 (s.openBody layout).1 := by
    rw [Sink.openBody]
    split
    · exact h.write _ "\n"
    · exact h.refl _
  have hrestore := h.restore layout.indent (h.trans hopen hbody)
  show P s ((s'.restore (s.request layout.indent).2).writeSuffix layout)
  rw [writeSuffix]
  split
  · exact h.trans hrestore (h.write _ _)
  · exact hrestore

mutual

/-- A relation that writing respects holds between a sink and what becomes of it when a fragment
    is written. -/
theorem writeFragment (h : Respects P) (s : Sink) (f : Fragment) : P s (s.writeFragment f) := by
  match f with
  | .text content => exact h.write s content
  | .node lead body layout =>
    have hnew : ∀ s' : Sink, P s s' →
        P s ((Sink.writeBody ((s'.writeLead lead).openBody layout).1 layout
          ((s'.writeLead lead).openBody layout).1.mark body).closeBody layout
            ((s'.writeLead lead).openBody layout).2) := fun s' hs' =>
      h.trans hs' (h.trans (h.writeLead s' lead)
        (h.closeBody _ layout (h.writeBody _ layout _ body)))
    have hrecord := h.recordKey s layout.renderOnce
    rw [Sink.writeFragment]
    rcases hkey : s.recordKey layout.renderOnce with ⟨s', _ | _⟩
    · rw [hkey] at hrecord
      exact hrecord
    · rw [hkey] at hrecord
      exact hnew s' hrecord

/-- writing the fragments at the beginning of a tree is, -/
theorem writeLead (h : Respects P) (s : Sink) (fs : List Fragment) : P s (s.writeLead fs) := by
  match fs with
  | [] => exact h.refl s
  | f :: rest =>
    rw [Sink.writeLead]
    exact h.trans (h.writeFragment s f) (h.writeLead _ rest)

/-- and writing a body. -/
theorem writeBody (h : Respects P) (s : Sink) (layout : Layout) (m : Mark) (fs : List Fragment) :
    P s (s.writeBody layout m fs) := by
  match fs with
  | [] => exact h.refl s
  | f :: rest =>
    rw [Sink.writeBody]
    exact h.trans (h.writeSeparator s layout m)
      (h.trans (h.writeFragment _ f) (h.writeBody _ layout _ rest))

end

end Sink.Respects

/-- It holds between the sinks of a session before and after a command, if that is no request and
    restores none, or else the relation holds there. -/
theorem Sink.Respects.run (h : Respects P) (session : Session) (c : Command)
    (hrequest : ∀ delta, c = .request delta → P session.sink (session.sink.request delta).1)
    (hrestore : ∀ n restore, c = .restore n → P session.sink (session.sink.restore restore)) :
    P session.sink (session.run c).1.sink := by
  cases c with
  | write text => exact h.write _ text
  | newline => exact h.write _ "\n"
  | writeTree t strategy =>
    rw [Session.run, Sink.writeTreeWith_eq]
    exact h.writeFragment _ t.toFragment
  | request delta => exact hrequest delta rfl
  | restore n =>
    rw [Session.run]
    split
    · exact hrestore n _ rfl
    · exact h.refl _
  | mark => exact h.refl _
  | wroteSince n =>
    rw [Session.run]
    split <;> exact h.refl _
  | recordKey key => exact h.recordKey _ key

/-- It holds throughout a session, if requests and restoring them by themselves respect it too. -/
theorem Sink.Respects.runAll (h : Respects P) (hrequest : ∀ s delta, P s (s.request delta).1)
    (hrestore : ∀ s restore, P s (s.restore restore)) (session : Session) (cs : List Command) :
    P session.sink (session.runAll cs).sink := by
  induction cs generalizing session with
  | nil => exact h.refl _
  | cons c cs ih =>
    have hstep := h.run session c (fun delta _ => hrequest _ delta) fun _ restore _ =>
      hrestore _ restore
    exact h.trans hstep (ih _)

/-! ### Sinks grow -/

/-- Some text was added to a sink, and none was taken away. -/
def Sink.Grows (s s' : Sink) : Prop :=
  ∃ text, s'.buffer = s.buffer ++ text

/-- A sink grows by nothing -/
theorem Sink.Grows.refl (s : Sink) : s.Grows s :=
  ⟨"", String.append_empty.symm⟩

/-- and by one text after another. -/
theorem Sink.Grows.trans (h : s.Grows s') (h' : s'.Grows s'') : s.Grows s'' := by
  obtain ⟨text, htext⟩ := h
  obtain ⟨text', htext'⟩ := h'
  exact ⟨text ++ text', by rw [htext', htext, String.append_assoc]⟩

/-- To apply a request writes no text -/
theorem buffer_applyPending (s : Sink) : s.applyPending.buffer = s.buffer := by
  rw [Sink.applyPending]
  split <;> rfl

/-- and leaves none pending. -/
theorem pending_applyPending (s : Sink) : s.applyPending.pending = 0 := by
  rw [Sink.applyPending]
  split
  · assumption
  · rfl

/-- Undoing one writes nothing, either, -/
theorem buffer_restore (s : Sink) (restore : Restore) : (s.restore restore).buffer = s.buffer := by
  rw [Sink.restore]
  split <;> rfl

/-- nor does a key that fires. -/
theorem buffer_recordKey (s : Sink) (key : Option String) :
    (s.recordKey key).1.buffer = s.buffer := by
  cases key with
  | none => rfl
  | some key =>
    rw [Sink.recordKey]
    split <;> rfl

/-- Text is added at the end, -/
theorem grows_write (text : String) : s.Grows (s.write text) := by
  rw [Sink.write]
  split
  · exact ⟨_, congrArg (· ++ _) (buffer_applyPending s)⟩
  · exact ⟨_, rfl⟩

/-- and so is the line break before a body is closed. -/
theorem grows_closeBody (layout : Layout) (restore : Restore) :
    s.Grows (s.closeBody layout restore) := by
  have hrestore : s.Grows (s.restore restore) :=
    ⟨"", by rw [buffer_restore, String.append_empty]⟩
  rw [Sink.closeBody, Sink.writeSuffix]
  split
  · exact hrestore.trans (grows_write _)
  · exact hrestore

/-- Writing adds to a sink. -/
theorem respects_grows : Sink.Respects Sink.Grows where
  refl := .refl
  trans := .trans
  write _ text := grows_write text
  recordKey s key := ⟨"", by rw [buffer_recordKey, String.append_empty]⟩
  restore {s s'} delta h := by
    obtain ⟨text, htext⟩ := h
    exact ⟨text, by rw [buffer_restore, htext]; rfl⟩

/-- Fragments are written part by part. -/
theorem writeLead_append (fs gs : List Fragment) (s : Sink) :
    s.writeLead (fs ++ gs) = (s.writeLead fs).writeLead gs := by
  induction fs generalizing s with
  | nil => rfl
  | cons f fs ih => exact ih _

/-! ### Keys -/

/-- What is written under a key that is new. -/
theorem writeFragment_withKey {key : String} {fs : List Fragment} (hkey : key ∉ s.fired) :
    s.writeFragment ((Tree.ofFragments fs).withKey key).toFragment
      = Sink.writeLead { s with fired := key :: s.fired } (nonempty fs) := by
  have hnew : s.fired.contains key = false := by simpa using hkey
  show s.writeFragment (.node (nonempty fs) [] { renderOnce := some key }) = _
  rw [Sink.writeFragment]
  simp only [Sink.recordKey, hnew, Bool.false_eq_true, if_false]
  rfl

/-- What was written once is not written again. -/
theorem writeFragment_of_fired {key : String} {t : Tree} (hkey : key ∈ s.fired) :
    s.writeFragment (t.withKey key).toFragment = s := by
  have hold : s.fired.contains key = true := by simpa using hkey
  show s.writeFragment (.node t.lead t.body { t.layout with renderOnce := some key }) = s
  rw [Sink.writeFragment]
  simp only [Sink.recordKey, hold, if_true]

end

/-! ### Text on one line -/

/-- A fragment is written as a text, wherever it stands. -/
structure Shows (f : Fragment) (text : String) : Prop where
  isEmpty : f.isEmpty = false
  buffer : ∀ s : Sink, (s.writeFragment f).buffer = s.buffer ++ text

variable {f : Fragment} {fs : List Fragment} {text : String} {texts : List String} {t : Tree}

/-- A text without line breaks is written as it is. -/
theorem shows_text (hne : text.isEmpty = false) (hbreak : '\n' ∉ text.toList) :
    Shows (.text text) text := by
  refine ⟨hne, fun s => ?_⟩
  have hnone : text.toList.contains '\n' = false := by simpa using hbreak
  simp only [Sink.writeFragment, Sink.write, hnone, Sink.indentBreaks_eq_self hbreak,
    Bool.false_eq_true, if_false, String.ofList_toList]

/-- What shows one text each shows them all in turn. -/
theorem buffer_writeLead (h : List.Forall₂ Shows fs texts) (s : Sink) :
    (s.writeLead fs).buffer = s.buffer ++ String.join texts := by
  induction h generalizing s with
  | nil => simp [Sink.writeLead, String.join]
  | cons hf _ ih =>
    rw [Sink.writeLead, ih, hf.buffer, String.join_cons, String.append_assoc]

/-- What shows a text is not empty. -/
theorem nonempty_of_shows (h : List.Forall₂ Shows fs texts) : nonempty fs = fs := by
  induction h with
  | nil => rfl
  | cons hf _ ih =>
    rw [nonempty_cons hf.isEmpty, ih]

/-- Fragments one after the other are written as their texts. -/
theorem shows_ofFragments (h : List.Forall₂ Shows fs texts) (hne : fs ≠ []) :
    Shows (Tree.ofFragments fs).toFragment (String.join texts) := by
  rw [Tree.ofFragments, nonempty_of_shows h]
  refine ⟨?_, buffer_writeLead h⟩
  show (fs.isEmpty && true && true) = false
  rw [List.isEmpty_eq_false_iff.mpr hne]
  rfl

/-- A tree made from a fragment shows what that shows. -/
theorem shows_ofFragment (h : Shows f text) : Shows (Tree.ofFragments [f]).toFragment text := by
  have hone := shows_ofFragments (.cons h .nil) (List.cons_ne_nil f [])
  rwa [String.join_cons, String.join_nil, String.append_empty] at hone

/-- Comments that are asked for are not written by the tree itself. -/
theorem Shows.withComments (h : Shows (Tree.ofFragments fs).toFragment text) :
    Shows (Tree.ofFragments fs).withComments.toFragment text :=
  ⟨h.isEmpty, h.buffer⟩

/-- Nothing is stripped from a line that does not end in blanks. -/
theorem stripLineEnds_eq_self {cs : List Char} (hbreak : '\n' ∉ cs)
    (hlast : ∀ c ∈ cs.getLast?, c ≠ ' ' ∧ c ≠ '\t') : Sink.stripLineEnds cs = cs := by
  have hend : Text.dropEndWhile (fun c => c == ' ' || c == '\t') cs = cs := by
    rw [Text.dropEndWhile]
    rw [← List.head?_reverse] at hlast
    cases hreverse : cs.reverse with
    | nil => exact (List.reverse_eq_nil_iff.mp hreverse).symm
    | cons c rest =>
      rw [hreverse] at hlast
      rw [List.dropWhile_cons_of_neg (by simp [hlast c rfl]), ← hreverse, List.reverse_reverse]
  rw [Sink.stripLineEnds, List.splitOn_eq_singleton hbreak, List.map_singleton, hend,
    List.intercalate_singleton]

/-- A tree that is written as one line is rendered as that line. -/
theorem Shows.render (h : Shows t.toFragment text) (hbreak : '\n' ∉ text.toList)
    (hlast : ∀ c ∈ text.toList.getLast?, c ≠ ' ' ∧ c ≠ '\t') : render t = text := by
  rw [Output.render, Sink.finish, Sink.writeTree, h.buffer]
  show String.ofList (Sink.stripLineEnds ("" ++ text).toList) = text
  rw [String.empty_append, stripLineEnds_eq_self hbreak hlast, String.ofList_toList]

end Transcode.Output
