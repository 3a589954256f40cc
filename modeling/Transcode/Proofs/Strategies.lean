import Mathlib.Logic.Function.Iterate
import Transcode.Output.Session

namespace Transcode.Output

/-!
# The two rendering strategies agree

`WorkList.run` does with two stacks what `Sink.writeTree` does by recursion.  The link between
them is `WorkList.Reaches`: some rounds of the loop lead from one rendering in progress to
another.  A step on top of *any* steps and *any* open frames is replaced, after some rounds, by
its recursive counterpart on the sink, with the steps and frames below untouched
(`reaches_write`, `reaches_writeAll`, `reaches_enter`, `reaches_child`).  That the frames below
are untouched is what keeps the two stacks in step: each tree takes off exactly the frame that it
put on.

The main statement, `strategies_agree`, is about every state of a sink whatever, so about
those that sessions lead to.
-/

namespace WorkList

/-! ### Rounds of the loop -/

/-- Some rounds of the loop lead from `w` to `w'`. -/
def Reaches (w w' : WorkList) : Prop :=
  ∃ rounds : Nat, advance^[rounds] w = w'

theorem Reaches.refl (w : WorkList) : Reaches w w :=
  ⟨0, rfl⟩

theorem Reaches.trans {a b c : WorkList} (hab : Reaches a b) (hbc : Reaches b c) :
    Reaches a c := by
  obtain ⟨m, rfl⟩ := hab
  obtain ⟨n, rfl⟩ := hbc
  exact ⟨n + m, Function.iterate_add_apply advance n m a⟩

/-- One round comes before the others. -/
theorem Reaches.head {w w' : WorkList} (h : Reaches w.advance w') : Reaches w w' :=
  Reaches.trans ⟨1, rfl⟩ h

/-- A round does not change where the loop ends. -/
theorem run_advance (w : WorkList) : w.advance.run = w.run := by
  by_cases h : w.steps = []
  · have : w.advance = w := by rw [advance, h]
    rw [this]
  · symm
    rw [run, dif_neg h]

/-- Rounds do not change where the loop ends. -/
theorem Reaches.run_eq {w w' : WorkList} (h : Reaches w w') : w.run = w'.run := by
  obtain ⟨rounds, rfl⟩ := h
  induction rounds generalizing w with
  | zero => rfl
  | succ n ih => rw [Function.iterate_succ_apply, ← ih, run_advance]

/-! ### One round per kind of step -/

section Rounds

variable (s : Sink) (steps : List Step) (opened : List Frame)

/-- A tree whose key was written before is passed over. -/
theorem advance_enter_of_fired {t : Tree} {s' : Sink}
    (h : s.recordKey t.layout.renderOnce = (s', false)) :
    advance ⟨s, .enter t :: steps, opened⟩ = ⟨s', steps, opened⟩ := by
  simp only [advance, perform, h]

/-- Any other tree is begun, and its body comes after that. -/
theorem advance_enter {t : Tree} {s' : Sink}
    (h : s.recordKey t.layout.renderOnce = (s', true)) :
    advance ⟨s, .enter t :: steps, opened⟩
      = ⟨s', t.lead.map .write ++ .openBody t :: steps, opened⟩ := by
  simp only [advance, perform, h]

/-- A child of an open body is written after its separator, and the frame on top notes where it
    begins. -/
theorem advance_child {t : Tree} {index : Nat} {f : Fragment} (h : t.body[index]? = some f)
    (restore : Restore) (since : Mark) :
    advance ⟨s, .child t index :: steps, ⟨restore, since⟩ :: opened⟩
      = ⟨s.writeSeparator t.layout since, .write f :: .child t (index + 1) :: steps,
          ⟨restore, (s.writeSeparator t.layout since).mark⟩ :: opened⟩ := by
  simp only [advance, perform, h, List.modifyHead_cons]

/-- After the last child the body is closed, and its frame is gone. -/
theorem advance_child_end {t : Tree} {index : Nat} (h : t.body[index]? = none)
    (restore : Restore) (since : Mark) :
    advance ⟨s, .child t index :: steps, ⟨restore, since⟩ :: opened⟩
      = ⟨s.closeBody t.layout restore, steps, opened⟩ := by
  simp only [advance, perform, h, List.tail_cons, Sink.closeBody]

end Rounds

/-! ### Steps and calls -/

/-- A tree on top of the steps is written as by recursion, if its beginning and its body are. -/
theorem reaches_enter_of {lead body : List Fragment} {layout : Layout}
    (hlead : ∀ (s : Sink) (steps : List Step) (opened : List Frame),
      Reaches ⟨s, lead.map .write ++ steps, opened⟩ ⟨s.writeLead lead, steps, opened⟩)
    (hbody : ∀ (s : Sink) (restore : Restore) (since : Mark) (steps : List Step)
      (opened : List Frame),
      Reaches ⟨s, .child ⟨lead, body, layout⟩ 0 :: steps, ⟨restore, since⟩ :: opened⟩
        ⟨(s.writeBody layout since body).closeBody layout restore, steps, opened⟩)
    (s : Sink) (steps : List Step) (opened : List Frame) :
    Reaches ⟨s, .enter ⟨lead, body, layout⟩ :: steps, opened⟩
      ⟨s.writeFragment (.node lead body layout), steps, opened⟩ := by
  refine Reaches.head ?_
  rw [Sink.writeFragment]
  rcases key : s.recordKey layout.renderOnce with ⟨s', _ | _⟩
  · rw [advance_enter_of_fired s steps opened key]
    exact Reaches.refl _
  · rw [advance_enter s steps opened key]
    -- The body opens at its first child, with a frame of its own on top.
    exact Reaches.trans (hlead s' _ opened) (Reaches.head (hbody _ _ _ steps opened))

mutual

/-- A fragment on top of the steps is written as by recursion. -/
theorem reaches_write (s : Sink) (f : Fragment) (steps : List Step) (opened : List Frame) :
    Reaches ⟨s, .write f :: steps, opened⟩ ⟨s.writeFragment f, steps, opened⟩ := by
  match f with
  | .text content => exact Reaches.head (Reaches.refl _)
  | .node lead body layout =>
    refine Reaches.head (reaches_enter_of ?_ ?_ s steps opened)
    · intro s steps opened
      exact reaches_writeAll s lead steps opened
    · intro s restore since steps opened
      exact reaches_child s ⟨lead, body, layout⟩ body 0 rfl restore since steps opened

/-- The fragments that a tree begins with are written in order. -/
theorem reaches_writeAll (s : Sink) (lead : List Fragment) (steps : List Step)
    (opened : List Frame) :
    Reaches ⟨s, lead.map .write ++ steps, opened⟩ ⟨s.writeLead lead, steps, opened⟩ := by
  match lead with
  | [] => exact Reaches.refl _
  | f :: rest =>
    rw [Sink.writeLead]
    exact Reaches.trans (reaches_write s f _ opened) (reaches_writeAll _ rest steps opened)

/-- Going on with an open body writes what is left of it and closes it.  `rest` is the part of
    the body from `index` on. -/
theorem reaches_child (s : Sink) (t : Tree) (rest : List Fragment) (index : Nat)
    (hrest : t.body.drop index = rest) (restore : Restore) (since : Mark) (steps : List Step)
    (opened : List Frame) :
    Reaches ⟨s, .child t index :: steps, ⟨restore, since⟩ :: opened⟩
      ⟨(s.writeBody t.layout since rest).closeBody t.layout restore, steps, opened⟩ := by
  match rest with
  | [] =>
    have hend : t.body[index]? = none :=
      List.getElem?_eq_none (List.drop_eq_nil_iff.mp hrest)
    refine Reaches.head ?_
    rw [advance_child_end s steps opened hend]
    exact Reaches.refl _
  | f :: rest =>
    have hget : t.body[index]? = some f := by
      rw [← List.head?_drop, hrest, List.head?_cons]
    have hnext : t.body.drop (index + 1) = rest := by
      rw [← List.tail_drop, hrest, List.tail_cons]
    refine Reaches.head ?_
    rw [advance_child s steps opened hget, Sink.writeBody]
    exact Reaches.trans (reaches_write _ f _ _)
      (reaches_child _ t rest (index + 1) hnext restore _ steps opened)

end

/-- A tree on top of the steps is written as by recursion. -/
theorem reaches_enter (s : Sink) (t : Tree) (steps : List Step) (opened : List Frame) :
    Reaches ⟨s, .enter t :: steps, opened⟩ ⟨s.writeTree t, steps, opened⟩ :=
  reaches_enter_of (fun s => reaches_writeAll s t.lead)
    (fun s => reaches_child s t t.body 0 rfl) s steps opened

end WorkList

/-- Both strategies write the same, from any state of the sink. -/
theorem Sink.writeTreeByWork_eq (s : Sink) (t : Tree) : s.writeTreeByWork t = s.writeTree t := by
  have h := WorkList.reaches_enter s t [] []
  rw [writeTreeByWork, h.run_eq, WorkList.run, dif_pos rfl]

/-- The strategy makes no difference to a sink. -/
theorem Sink.writeTreeWith_eq (s : Sink) (t : Tree) (strategy : Strategy) :
    s.writeTreeWith t strategy = s.writeTree t := by
  cases strategy with
  | recursive => rfl
  | workList => exact s.writeTreeByWork_eq t

/-- Nor does it to the text of a tree. -/
theorem renderWith_eq (t : Tree) (strategy : Strategy) : renderWith strategy t = render t := by
  rw [renderWith, render, Sink.writeTreeWith_eq]

/-- **The strategies agree.**  From any sink, the loop over the work list ends on every tree,
    with both stacks empty and the sink that the recursion gives: the same text, indentations,
    pending request, count of applied requests, end of ink and keys.  So the text of a tree does
    not depend on the strategy.  In particular the sink may be one that a session led to. -/
theorem strategies_agree (s : Sink) (t : Tree) :
    WorkList.Reaches ⟨s, [.enter t], []⟩ ⟨s.writeTree t, [], []⟩
      ∧ s.writeTreeByWork t = s.writeTree t
      ∧ ∀ strategy : Strategy, renderWith strategy t = render t := by
  exact ⟨WorkList.reaches_enter s t [] [], s.writeTreeByWork_eq t, renderWith_eq t⟩

end Transcode.Output
