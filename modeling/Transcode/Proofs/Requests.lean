import Transcode.Proofs.Margins

namespace Transcode.Output

/-!
# Requests come undone

An indentation request waits for a line break.  Before one comes, another request may take its
place, and the break applies whichever is pending.  So what undoing a request has to do depends on
what was written since.  It always works out, as long as requests are properly nested
(`Nested`): each is restored with its own record, after those that were made since.

One command of a session settles the sink, in the sense of `Sink.Settles`, and so does a request
with all that is done until it is restored (`settles_restore`).  Hence a nested run settles it
(`Nested.keeps`), and where nothing was pending before, nothing is afterwards and the indentations
are the old ones.  Writing a tree is a case of this, because a tree nests its requests.
-/

/-- The command has nothing to do with requests. -/
def Command.isWriting : Command → Bool
  | .request _ | .restore _ => false
  | _ => true

/-- The requests of some commands are properly nested: each is restored once, with its own record
    and after those made since.  So many records were handed out before the commands, and so many
    afterwards. -/
inductive Nested : Nat → List Command → Nat → Prop
  | nil {made : Nat} : Nested made [] made
  | writing {made made' : Nat} {c : Command} {cs : List Command} :
      c.isWriting = true → Nested made cs made' → Nested made (c :: cs) made'
  | scope {made inner made' : Nat} {delta : Int} {inside rest : List Command} :
      Nested (made + 1) inside inner → Nested inner rest made' →
      Nested made (.request delta :: (inside ++ .restore made :: rest)) made'

namespace Session

variable {s s' s'' : Session}

/-- A session went on without a trace of its requests: the sink is settled, and the records that
    were there before still are. -/
structure Keeps (s s' : Session) : Prop where
  settles : s.sink.Settles s'.sink
  restores : s.restores <+: s'.restores

theorem Keeps.refl (s : Session) : s.Keeps s :=
  ⟨respects_settles.refl _, List.prefix_refl _⟩

theorem Keeps.trans (h : s.Keeps s') (h' : s'.Keeps s'') : s.Keeps s'' :=
  ⟨h.settles.trans h'.settles, h.restores.trans h'.restores⟩

theorem runAll_append (s : Session) (cs ds : List Command) :
    s.runAll (cs ++ ds) = (s.runAll cs).runAll ds :=
  List.foldl_append

/-- A command that has nothing to do with requests hands out no record. -/
theorem restores_run {c : Command} (hc : c.isWriting = true) :
    (s.run c).1.restores = s.restores := by
  cases c with
  | request delta => cases hc
  | restore n => cases hc
  | wroteSince n =>
    rw [run]
    split <;> rfl
  | write text => rfl
  | newline => rfl
  | writeTree t strategy => rfl
  | mark => rfl
  | recordKey key => rfl

/-- It settles the sink. -/
theorem settles_run {c : Command} (hc : c.isWriting = true) :
    s.sink.Settles (s.run c).1.sink := by
  refine respects_settles.run s c ?_ ?_
  · rintro delta rfl
    cases hc
  · rintro n restore rfl
    cases hc

theorem keeps_run {c : Command} (hc : c.isWriting = true) : s.Keeps (s.run c).1 :=
  ⟨settles_run hc, by rw [restores_run hc]⟩

/-- A session after a request. -/
theorem run_request (s : Session) (delta : Int) :
    (s.run (.request delta)).1 = { s with
      sink := (s.sink.request delta).1
      restores := s.restores ++ [some (s.sink.request delta).2] } := rfl

/-- A request is restored with the record that it gave. -/
theorem run_restore {delta : Int} (h : (s.run (.request delta)).1.Keeps s') :
    s'.run (.restore s.restores.length) = ({ s' with
      sink := s'.sink.restore (s.sink.request delta).2
      restores := s'.restores.set s.restores.length none }, .verdict true) := by
  obtain ⟨later, hlater⟩ := h.restores
  have hrecord : s'.restores[s.restores.length]? = some (some (s.sink.request delta).2) := by
    rw [← hlater, run_request]
    simp
  simp only [run, hrecord, Option.join_some]

/-- After that the request has left no trace. -/
theorem keeps_restore {delta : Int} (h : (s.run (.request delta)).1.Keeps s') :
    s.Keeps (s'.run (.restore s.restores.length)).1 := by
  obtain ⟨later, hlater⟩ := h.restores
  rw [run_restore h]
  refine ⟨settles_restore delta h.settles, ?_⟩
  rw [← hlater, run_request]
  simp

end Session

variable {made made' : Nat} {cs : List Command} {s : Session}

/-- Where requests are properly nested, they leave no trace in a session. -/
theorem Nested.keeps (h : Nested made cs made') (hs : s.restores.length = made) :
    s.Keeps (s.runAll cs) ∧ (s.runAll cs).restores.length = made' := by
  induction h generalizing s with
  | nil => exact ⟨.refl s, hs⟩
  | @writing made made' c cs hc _ ih =>
    obtain ⟨hkeeps, hlength⟩ := ih (s := (s.run c).1) (by rw [Session.restores_run hc, hs])
    exact ⟨(Session.keeps_run hc).trans hkeeps, hlength⟩
  | @scope made inner made' delta inside rest _ _ ihInside ihRest =>
    subst hs
    obtain ⟨hinside, hinner⟩ := ihInside (s := (s.run (.request delta)).1)
      (by rw [Session.run_request, List.length_append]; rfl)
    have hrestored : (((s.run (.request delta)).1.runAll inside).run
        (.restore s.restores.length)).1.restores.length = inner := by
      rw [Session.run_restore hinside, ← hinner]
      exact List.length_set
    obtain ⟨hrest, hlength⟩ := ihRest hrestored
    have hall : s.runAll (.request delta :: (inside ++ .restore s.restores.length :: rest))
        = (((s.run (.request delta)).1.runAll inside).run
            (.restore s.restores.length)).1.runAll rest :=
      Session.runAll_append _ inside _
    rw [hall]
    exact ⟨(Session.keeps_restore hinside).trans hrest, hlength⟩

/-! ### What is left of a request -/

/-- A settled sink is as it was, if nothing was pending. -/
theorem Sink.Settles.unchanged {s s' : Sink} (h : s.Settles s') (hpending : s.pending = 0) :
    s'.levels = s.levels ∧ s'.pending = 0 := by
  cases h with
  | same _ hl hp => exact ⟨hl, hp.trans hpending⟩
  | cleared _ hl hp => exact ⟨hl, hp⟩
  | raised hne => exact absurd hpending hne

/-- Undoing a request that asked for a change brings the indentations back, whatever was pending
    when it was made. -/
theorem levels_restore {s s' : Sink} {delta : Int} (hdelta : delta ≠ 0)
    (h : (s.request delta).1.Settles s') :
    (s'.restore (s.request delta).2).levels = s.levels := by
  rw [restore_of_ne hdelta]
  exact h.drop_levels

/-- **Indentation is restored.**  Writing a tree leaves the indentations in force and the pending
    request as they were, if none is pending; if one is, it may also be gone, with the indentations
    as they were or with one more, which is what the request made of the innermost one but never
    below zero.

    In a session, restoring a request that asked for a change brings back the indentations that were
    in force when it was made, whatever was written since and whichever requests were made and
    restored in between.  When all requests of a nested run that began without a pending one are
    restored, the indentations are those of the beginning and nothing is pending. -/
theorem indentation_restored :
    (∀ (s : Sink) (t : Tree), s.pending = 0 →
        (s.writeTree t).levels = s.levels ∧ (s.writeTree t).pending = 0)
      ∧ (∀ (s : Sink) (t : Tree),
          ((s.writeTree t).levels = s.levels ∧ (s.writeTree t).pending = s.pending)
            ∨ ((s.writeTree t).levels = s.levels ∧ (s.writeTree t).pending = 0)
            ∨ (s.pending ≠ 0 ∧ (s.writeTree t).pending = 0
                ∧ (s.writeTree t).levels = (s.indentation + s.pending).toNat :: s.levels))
      ∧ (∀ (s : Session) (delta : Int) (inside : List Command) (made : Nat), delta ≠ 0 →
          Nested (s.restores.length + 1) inside made →
          let restored := (s.runAll (.request delta :: inside)).run (.restore s.restores.length)
          restored.2 = .verdict true ∧ restored.1.sink.levels = s.sink.levels)
      ∧ (∀ (s : Session) (cs : List Command) (made : Nat),
          Nested s.restores.length cs made → s.sink.pending = 0 →
          (s.runAll cs).sink.levels = s.sink.levels ∧ (s.runAll cs).sink.pending = 0) := by
  have hwrite : ∀ (s : Sink) (t : Tree), s.Settles (s.writeTree t) := fun s t =>
    respects_settles.writeFragment s t.toFragment
  refine ⟨fun s t => (hwrite s t).unchanged, fun s t => ?_, ?_, ?_⟩
  · cases hwrite s t with
    | same _ hl hp => exact .inl ⟨hl, hp⟩
    | cleared _ hl hp => exact .inr (.inl ⟨hl, hp⟩)
    | raised hne _ hl hp => exact .inr (.inr ⟨hne, hp, hl⟩)
  · intro s delta inside made hdelta hinside
    obtain ⟨hkeeps, -⟩ := hinside.keeps (s := (s.run (.request delta)).1)
      (by rw [Session.run_request, List.length_append]; rfl)
    have hrestore : (s.runAll (.request delta :: inside)).run (.restore s.restores.length) = _ :=
      Session.run_restore hkeeps
    rw [hrestore]
    exact ⟨rfl, levels_restore hdelta hkeeps.settles⟩
  · intro s cs made hcs hpending
    exact (hcs.keeps rfl).1.settles.unchanged hpending

/-- An inner request is applied in place of the outer one, and both are undone. -/
theorem indentation_restored_nested :
    let inside := [Command.write "a", .request (-3), .write "b\nc", .restore 1, .newline]
    let opened := Session.runAll {} [.request 8, .write "a"]
    Nested 0 (.request 8 :: (inside ++ [.restore 0])) 2
      ∧ (Session.runAll {} (.request 8 :: (inside ++ [.restore 0]))).sink.levels = []
      ∧ (Session.runAll {} (.request 8 :: (inside ++ [.restore 0]))).sink.pending = 0
      ∧ opened.sink.pending = 8
      ∧ (opened.runAll [.request (-3), .write "b\nc"]).sink.levels = [0]
      ∧ ((opened.runAll [.request (-3), .write "b\nc"]).run (.restore 1)).1.sink.levels = [] := by
  intro inside opened
  have hinside : Nested 1 inside 2 := .writing rfl (.scope (.writing rfl .nil) (.writing rfl .nil))
  have hcs : Nested 0 (.request 8 :: (inside ++ [.restore 0])) 2 := .scope hinside .nil
  obtain ⟨-, -, hrestore, hrun⟩ := indentation_restored
  exact ⟨hcs, (hrun {} _ 2 hcs rfl).1, (hrun {} _ 2 hcs rfl).2, by decide +kernel,
    by decide +kernel,
    (hrestore opened (-3) [.write "b\nc"] 2 (by decide) (.writing rfl .nil)).2⟩

end Transcode.Output
