import Mathlib.Data.List.Induction
import Transcode.Context

namespace Transcode

/-!
# Guards and the values they belong to

A guard remembers the depth that its push brought about, and nothing else.  Guards may come back in
any order, each at most once, and one that is refused is gone, so that its value stays on the stack
for good.  Later pushes may then reach a depth that another guard remembers.

Still no guard removes a value that another push put there.  To say so, a history of pushes and
releases is watched (`Watched.perform`): of each value on the stack it is noted which push it came
with.  That takes no look at the depths that guards remember.  What holds at every moment
(`Watched.Sound`) is that the value of a guard in someone's hands is still on the stack, with as
many values below it as the guard remembers; so guards never share a depth, and a guard is in turn
exactly if its value is the innermost one (`guards_remove_their_own`).
-/

/-- What can be done with a stack of contexts whose guards are kept. -/
inductive Deed (C : Type)
  | push (merge : C → C → C) (update : Option C)
  | release (number : Nat)

/-- Do it. -/
def Leases.perform {C : Type} (l : Leases C) : Deed C → Leases C
  | .push merge update => l.push merge update
  | .release n => (l.release n).1

/-- What was pushed in some deeds, in order; the guard of a push has the number of its place. -/
def pushesOf {C : Type} : List (Deed C) → List ((C → C → C) × Option C)
  | [] => []
  | .push merge update :: rest => (merge, update) :: pushesOf rest
  | .release _ :: rest => pushesOf rest

/-- A stack under watch. -/
structure Watched (C : Type) where
  leases : Leases C
  /-- The number of the push that each value on the stack came with, the innermost first. -/
  owners : List Nat := []

/-- Watch a deed.  A value more on the stack is that of the push just made, and values fewer are
    gone from the top. -/
def Watched.perform {C : Type} (w : Watched C) (deed : Deed C) : Watched C :=
  let after := w.leases.perform deed
  let size := w.leases.stack.pushed.length
  { leases := after
    owners :=
      if size < after.stack.pushed.length then w.leases.guards.length :: w.owners
      else w.owners.drop (size - after.stack.pushed.length) }

/-- Watch some deeds from the beginning. -/
def watch {C : Type} (root : C) (deeds : List (Deed C)) : Watched C :=
  deeds.foldl Watched.perform { leases := { stack := { root } } }

/-- Each value is the merge of the value below it, or of the root, with the update of the push that
    it came with. -/
inductive Merged {C : Type} (root : C) (pushes : List ((C → C → C) × Option C)) :
    List Nat → List C → Prop
  | nil : Merged root pushes [] []
  | cons {n : Nat} {owners : List Nat} {values : List C} {merge : C → C → C} {update : C} :
      pushes[n]? = some (merge, some update) → Merged root pushes owners values →
      Merged root pushes (n :: owners) (merge (values.headD root) update :: values)

section

variable {C : Type} {root : C} {pushes pushes' : List ((C → C → C) × Option C)} {owners : List Nat}
  {values : List C} {w : Watched C} {deeds : List (Deed C)} {n : Nat}

theorem pushesOf_append (deeds deeds' : List (Deed C)) :
    pushesOf (deeds ++ deeds') = pushesOf deeds ++ pushesOf deeds' := by
  induction deeds with
  | nil => rfl
  | cons deed deeds ih =>
    cases deed with
    | push merge update => exact congrArg ((merge, update) :: ·) ih
    | release n => exact ih

theorem Merged.length_eq (h : Merged root pushes owners values) :
    owners.length = values.length := by
  induction h with
  | nil => rfl
  | cons _ _ ih => exact congrArg (· + 1) ih

/-- Pushes made later do not matter. -/
theorem Merged.append (h : Merged root pushes owners values) :
    Merged root (pushes ++ pushes') owners values := by
  induction h with
  | nil => exact .nil
  | @cons n owners values merge update hn _ ih =>
    have hlt : n < pushes.length := (List.getElem?_eq_some_iff.mp hn).1
    exact .cons ((List.getElem?_append_left hlt).trans hn) ih

theorem Merged.tail (h : Merged root pushes owners values) :
    Merged root pushes owners.tail values.tail := by
  cases h with
  | nil => exact .nil
  | cons _ h => exact h

theorem Merged.lt (h : Merged root pushes owners values) : ∀ n ∈ owners, n < pushes.length := by
  induction h with
  | nil => exact List.forall_mem_nil _
  | cons hn _ ih => exact List.forall_mem_cons.mpr ⟨(List.getElem?_eq_some_iff.mp hn).1, ih⟩

/-! ### What holds at every moment -/

/-- The value that push `n` put on the stack is still there, and with what is below it the stack
    has the given depth. -/
def Stands (owners : List Nat) (n depth : Nat) : Prop :=
  ∃ above below, owners = above ++ n :: below ∧ depth = below.length + 2

/-- What a guard in someone's hands has to do with its push: none, if that had no update, and else
    its value stands where the guard says. -/
def Guard.Fits (owners : List Nat) (n : Nat) (update : Option C) (g : Guard) : Prop :=
  match update with
  | none => g.depth = none
  | some _ => ∃ depth, g.depth = some depth ∧ Stands owners n depth

/-- A watched stack after some pushes. -/
structure Watched.Sound (root : C) (pushes : List ((C → C → C) × Option C)) (w : Watched C) :
    Prop where
  root_eq : w.leases.stack.root = root
  merged : Merged root pushes w.owners w.leases.stack.pushed
  /-- The later a push, the further up its value. -/
  sorted : w.owners.Pairwise (· > ·)
  counted : w.leases.stack.pushed.length + w.leases.stack.pops = w.leases.stack.pushes
  numbered : w.leases.guards.length = pushes.length
  held : ∀ n (g : Guard), w.leases.guards[n]? = some (some g) →
    ∃ merge update, pushes[n]? = some (merge, update) ∧ g.Fits w.owners n update

/-- A value further up does not move those below it. -/
theorem Stands.cons {depth : Nat} (h : Stands owners n depth) (m : Nat) :
    Stands (m :: owners) n depth := by
  obtain ⟨above, below, rfl, hdepth⟩ := h
  exact ⟨m :: above, below, rfl, hdepth⟩

/-- Neither does it matter to them when another value is taken from the top. -/
theorem Stands.of_cons {depth m : Nat} (h : Stands (m :: owners) n depth) (hne : n ≠ m) :
    Stands owners n depth := by
  obtain ⟨above, below, howners, hdepth⟩ := h
  cases above with
  | nil => exact absurd (List.cons.inj howners).1.symm hne
  | cons m above => exact ⟨above, below, (List.cons.inj howners).2, hdepth⟩

/-- A value is the innermost one exactly if it stands as high as the stack is. -/
theorem Stands.depth_iff {depth : Nat} (h : Stands owners n depth)
    (hsorted : owners.Pairwise (· > ·)) :
    1 + owners.length = depth ↔ owners.head? = some n := by
  obtain ⟨above, below, rfl, rfl⟩ := h
  cases above with
  | nil => exact ⟨fun _ => rfl, fun _ => by rw [List.nil_append, List.length_cons]; omega⟩
  | cons m above =>
    have hlt : m > n := List.rel_of_pairwise_cons hsorted (by simp)
    rw [List.cons_append, List.head?_cons, Option.some.injEq, List.length_cons, List.length_append,
      List.length_cons]
    exact ⟨fun h => by omega, fun h => by omega⟩

/-- What becomes of a guard's value under others. -/
theorem Guard.Fits.mono {owners' : List Nat} {update : Option C} {g : Guard}
    (h : g.Fits owners n update) (hmono : ∀ depth, Stands owners n depth → Stands owners' n depth) :
    g.Fits owners' n update := by
  cases update with
  | none => exact h
  | some update =>
    obtain ⟨depth, hdepth, hstands⟩ := h
    exact ⟨depth, hdepth, hmono depth hstands⟩

/-! ### Deeds one by one -/

theorem sound_new (root : C) : Watched.Sound root [] { leases := { stack := { root } } } where
  root_eq := rfl
  merged := .nil
  sorted := .nil
  counted := rfl
  numbered := rfl
  held := nofun

/-- Guards given out before a push are none the worse for it. -/
theorem Watched.Sound.held_append {owners' : List Nat} {g new : Guard} (h : w.Sound root pushes)
    (merge : C → C → C) (update : Option C)
    (hmono : ∀ n depth, Stands w.owners n depth → Stands owners' n depth)
    (hnew : new.Fits owners' w.leases.guards.length update)
    (hg : (w.leases.guards ++ [some new])[n]? = some (some g)) :
    ∃ merge' update', (pushes ++ [(merge, update)])[n]? = some (merge', update')
      ∧ g.Fits owners' n update' := by
  rcases Nat.lt_trichotomy n w.leases.guards.length with hlt | rfl | hgt
  · rw [List.getElem?_append_left hlt] at hg
    obtain ⟨merge', update', hpush, hfits⟩ := h.held n g hg
    refine ⟨merge', update', ?_, hfits.mono (hmono n)⟩
    rw [List.getElem?_append_left (h.numbered ▸ hlt), hpush]
  · rw [List.getElem?_concat_length, Option.some.injEq, Option.some.injEq] at hg
    refine ⟨merge, update, ?_, hg ▸ hnew⟩
    rw [h.numbered, List.getElem?_concat_length]
  · rw [List.getElem?_eq_none (by rw [List.length_append, List.length_singleton]; omega)] at hg
    cases hg

/-- A push without an update only hands out a guard. -/
theorem perform_push_none (w : Watched C) (merge : C → C → C) :
    w.perform (.push merge none) = { w with
      leases := { w.leases with guards := w.leases.guards ++ [some ⟨none⟩] } } := by
  simp [Watched.perform, Leases.perform, Leases.push, ContextStack.push]

theorem perform_push_some (w : Watched C) (merge : C → C → C) (update : C) :
    w.perform (.push merge (some update)) = {
      leases := {
        stack := { w.leases.stack with
          pushed := merge w.leases.stack.top update :: w.leases.stack.pushed
          pushes := w.leases.stack.pushes + 1 }
        guards := w.leases.guards ++ [some ⟨some (w.leases.stack.depth + 1)⟩] }
      owners := w.leases.guards.length :: w.owners } := by
  simp [Watched.perform, Leases.perform, Leases.push, ContextStack.push, ContextStack.depth,
    Nat.add_assoc]

theorem Watched.Sound.push (h : w.Sound root pushes) (merge : C → C → C) (update : Option C) :
    (w.perform (.push merge update)).Sound root (pushes ++ [(merge, update)]) := by
  have hnumbered : ∀ g : Guard, (w.leases.guards ++ [some g]).length
      = (pushes ++ [(merge, update)]).length := fun g => by
    rw [List.length_append, List.length_append, h.numbered]
    rfl
  cases update with
  | none =>
    rw [perform_push_none]
    exact ⟨h.root_eq, h.merged.append, h.sorted, h.counted, hnumbered _,
      fun n g hg => h.held_append merge none (fun _ _ => id) rfl hg⟩
  | some update =>
    have hpush : (pushes ++ [(merge, some update)])[w.leases.guards.length]?
        = some (merge, some update) := by
      rw [h.numbered, List.getElem?_concat_length]
    have hbelow : Merged root (pushes ++ [(merge, some update)]) w.owners w.leases.stack.pushed :=
      h.merged.append
    have hmerged := Merged.cons hpush hbelow
    have hnew : Guard.Fits (w.leases.guards.length :: w.owners) w.leases.guards.length
        (some update) ⟨some (w.leases.stack.depth + 1)⟩ :=
      ⟨_, rfl, [], w.owners, rfl, by rw [h.merged.length_eq, ContextStack.depth]; omega⟩
    rw [perform_push_some]
    refine ⟨h.root_eq, ?_, ?_, ?_, hnumbered _,
      fun n g hg => h.held_append merge _ (fun _ _ hstands => hstands.cons _) hnew hg⟩
    · rw [← h.root_eq] at hmerged ⊢
      exact hmerged
    · exact .cons (fun n hn => h.numbered ▸ h.merged.lt n hn) h.sorted
    · show w.leases.stack.pushed.length + 1 + w.leases.stack.pops = w.leases.stack.pushes + 1
      have hcounted := h.counted
      omega

/-! ### Guards that come back -/

/-- A guard without a value comes back and nothing happens. -/
theorem release_of_none {l : Leases C} {g : Guard} (hg : l.guards[n]? = some (some g))
    (hdepth : g.depth = none) :
    l.release n = ({ l with guards := l.guards.set n none }, some (.ok ())) := by
  simp [Leases.release, ContextStack.release, hg, hdepth]

/-- A guard in turn removes the innermost value. -/
theorem release_of_eq {l : Leases C} {g : Guard} (hg : l.guards[n]? = some (some g))
    (hdepth : g.depth = some l.stack.depth) :
    l.release n = ({
      stack := { l.stack with pushed := l.stack.pushed.tail, pops := l.stack.pops + 1 }
      guards := l.guards.set n none }, some (.ok ())) := by
  simp [Leases.release, ContextStack.release, hg, hdepth]

/-- With it goes the owner of that value. -/
theorem perform_release_of_eq {g : Guard} (hg : w.leases.guards[n]? = some (some g))
    (hdepth : g.depth = some w.leases.stack.depth) (hne : w.leases.stack.pushed ≠ []) :
    w.perform (.release n) = {
      leases := {
        stack := { w.leases.stack with
          pushed := w.leases.stack.pushed.tail, pops := w.leases.stack.pops + 1 }
        guards := w.leases.guards.set n none }
      owners := w.owners.tail } := by
  obtain ⟨value, rest, hpushed⟩ := List.exists_cons_of_ne_nil hne
  have hless : ¬ rest.length + 1 < rest.length := Nat.not_lt.mpr (Nat.le_succ _)
  simp [Watched.perform, Leases.perform, release_of_eq hg hdepth, hpushed, hless]

/-- A guard out of turn is refused. -/
theorem release_of_ne {l : Leases C} {g : Guard} {depth : Nat}
    (hg : l.guards[n]? = some (some g)) (hdepth : g.depth = some depth)
    (hne : l.stack.depth ≠ depth) :
    l.release n
      = ({ l with guards := l.guards.set n none }, some (.error ⟨l.stack.depth, depth⟩)) := by
  simp [Leases.release, ContextStack.release, hg, hdepth, hne]

/-- A guard that nobody holds does not come back. -/
theorem release_of_not_held {l : Leases C} (hg : ∀ g, l.guards[n]? ≠ some (some g)) :
    l.release n = (l, none) := by
  have hnone : l.guards[n]?.join = none := by
    rw [Option.join_eq_none_iff]
    cases hget : l.guards[n]? with
    | none => exact .inl rfl
    | some slot =>
      cases slot with
      | none => exact .inr rfl
      | some g => exact absurd hget (hg g)
  simp [Leases.release, hnone]

/-- Of the guards that are left, none has lost its value. -/
theorem Watched.Sound.held_set {owners' : List Nat} {m : Nat} {g : Guard} (h : w.Sound root pushes)
    (hmono : ∀ n depth, n ≠ m → Stands w.owners n depth → Stands owners' n depth)
    (hg : (w.leases.guards.set m none)[n]? = some (some g)) :
    ∃ merge update, pushes[n]? = some (merge, update) ∧ g.Fits owners' n update := by
  have hne : n ≠ m := by
    rintro rfl
    rw [List.getElem?_set_self'] at hg
    cases hget : w.leases.guards[n]? <;> simp [hget] at hg
  rw [List.getElem?_set_ne hne.symm] at hg
  obtain ⟨merge, update, hpush, hfits⟩ := h.held n g hg
  exact ⟨merge, update, hpush, hfits.mono fun depth => hmono n depth hne⟩

/-- If the guard that came back has not changed the stack, only that guard is gone. -/
theorem Watched.Sound.release_same {answer : Option (Except Imbalance Unit)}
    (h : w.Sound root pushes)
    (hrelease : w.leases.release n
      = ({ w.leases with guards := w.leases.guards.set n none }, answer)) :
    (w.perform (.release n)).Sound root pushes := by
  have hperform : w.perform (.release n)
      = { w with leases := { w.leases with guards := w.leases.guards.set n none } } := by
    simp [Watched.perform, Leases.perform, hrelease]
  rw [hperform]
  exact ⟨h.root_eq, h.merged, h.sorted, h.counted, List.length_set.trans h.numbered,
    fun _ _ hg => h.held_set (fun _ _ _ => id) hg⟩

theorem Watched.Sound.release (h : w.Sound root pushes) (n : Nat) :
    (w.perform (.release n)).Sound root pushes := by
  by_cases hheld : ∃ g, w.leases.guards[n]? = some (some g)
  · obtain ⟨g, hg⟩ := hheld
    obtain ⟨merge, update, hpush, hfits⟩ := h.held n g hg
    cases update with
    | none => exact h.release_same (release_of_none hg hfits)
    | some update =>
      obtain ⟨depth, hdepth, hstands⟩ := hfits
      by_cases heq : w.leases.stack.depth = depth
      · -- The innermost value is that of the guard, and the others stay where they are.
        have hturn := hstands.depth_iff h.sorted
        rw [h.merged.length_eq] at hturn
        obtain ⟨below, howners⟩ := List.head?_eq_some_iff.mp (hturn.mp heq)
        have hlength := h.merged.length_eq
        rw [howners, List.length_cons] at hlength
        have hmerged := h.merged.tail
        have hsorted := h.sorted
        have hcounted := h.counted
        rw [howners] at hmerged hsorted
        rw [perform_release_of_eq hg (heq ▸ hdepth) (List.ne_nil_of_length_eq_add_one hlength.symm),
          howners]
        refine ⟨h.root_eq, hmerged, hsorted.of_cons, ?_, List.length_set.trans h.numbered,
          fun m g hg => h.held_set (fun m depth hne hstands => ?_) hg⟩
        · show w.leases.stack.pushed.tail.length + (w.leases.stack.pops + 1)
            = w.leases.stack.pushes
          rw [List.length_tail]
          omega
        · rw [howners] at hstands
          exact hstands.of_cons hne
      · exact h.release_same (release_of_ne hg hdepth heq)
  · have hnone := release_of_not_held (not_exists.mp hheld)
    have hperform : w.perform (.release n) = w := by
      simp [Watched.perform, Leases.perform, hnone]
    rw [hperform]
    exact h

/-- What holds at every moment of every history. -/
theorem sound_watch (root : C) (deeds : List (Deed C)) :
    (watch root deeds).Sound root (pushesOf deeds) := by
  induction deeds using List.reverseRecOn with
  | nil => exact sound_new root
  | append_singleton deeds deed ih =>
    rw [watch, List.foldl_append, pushesOf_append]
    cases deed with
    | push merge update => exact ih.push merge update
    | release n =>
      rw [pushesOf, pushesOf, List.append_nil]
      exact ih.release n

end

/-- **Guards remove their own values.**  After any pushes and releases on a stack of contexts, a
    guard that is still in someone's hands and comes back is accepted exactly if the innermost value
    is the one that its push put there, and then that value is removed and the removal counted.
    Otherwise it is refused, and the stack and the counts stay as they are.  A guard whose push had
    no update has no value; it is accepted and changes nothing.

    At every moment the depth is one more than the pushes that were not undone, each value is the
    merge of the one below it with its update, and no two values are those of one push. -/
theorem guards_remove_their_own {C : Type} (root : C) (deeds : List (Deed C)) :
    let l := (watch root deeds).leases
    let owners := (watch root deeds).owners
    (∀ n g, l.guards[n]? = some (some g) →
      let kept := l.guards.set n none
      ∃ merge update, (pushesOf deeds)[n]? = some (merge, update)
        ∧ (update = none → l.release n = ({ l with guards := kept }, some (.ok ())))
        ∧ (update ≠ none → owners.head? = some n → l.release n
            = (⟨{ l.stack with pushed := l.stack.pushed.tail, pops := l.stack.pops + 1 }, kept⟩,
              some (.ok ())))
        ∧ (update ≠ none → owners.head? ≠ some n → ∃ imbalance,
            l.release n = ({ l with guards := kept }, some (.error imbalance))))
      ∧ Merged root (pushesOf deeds) owners l.stack.pushed
      ∧ owners.Nodup
      ∧ l.stack.depth + l.stack.pops = 1 + l.stack.pushes := by
  intro l owners
  have hsound := sound_watch root deeds
  refine ⟨fun n g hg => ?_, hsound.merged, hsound.sorted.imp Nat.ne_of_gt, ?_⟩
  · obtain ⟨merge, update, hpush, hfits⟩ := hsound.held n g hg
    refine ⟨merge, update, hpush, ?_⟩
    cases update with
    | none => exact ⟨fun _ => release_of_none hg hfits, absurd rfl, absurd rfl⟩
    | some update =>
      obtain ⟨depth, hdepth, hstands⟩ := hfits
      have hturn := hstands.depth_iff hsound.sorted
      rw [hsound.merged.length_eq] at hturn
      refine ⟨nofun, fun _ hhead => release_of_eq hg ?_,
        fun _ hhead => ⟨_, release_of_ne hg hdepth (mt hturn.mp hhead)⟩⟩
      rw [hdepth, ← hturn.mpr hhead]
      rfl
  · have hcounted : l.stack.pushed.length + l.stack.pops = l.stack.pushes := hsound.counted
    show 1 + l.stack.pushed.length + l.stack.pops = 1 + l.stack.pushes
    omega

/-- The value of a guard that was refused stays, and the guard pushed after it is none the worse for
    it: of two guards that remember one depth, only the second one is in someone's hands. -/
theorem guards_remove_their_own_orphan :
    let push (update : Nat) : Deed Nat := .push (fun old new => 10 * old + new) (some update)
    let deeds := [push 1, push 2, push 3, .release 1, .release 2, .push (fun old _ => old) none,
      .release 0, push 4]
    let l := (watch 0 deeds).leases
    l.guards = [none, none, none, some ⟨none⟩, some ⟨some 4⟩]
      ∧ l.stack.pushed = [124, 12, 1] ∧ (watch 0 deeds).owners = [4, 1, 0]
      ∧ (l.release 3).2 = some (.ok ())
      ∧ (l.release 4).2 = some (.ok ()) ∧ (l.release 4).1.stack.pushed = [12, 1] := by
  intro push deeds l
  have hguards : l.guards = [none, none, none, some ⟨none⟩, some ⟨some 4⟩] := by decide +kernel
  have hpushed : l.stack.pushed = [124, 12, 1] := by decide +kernel
  have howners : (watch 0 deeds).owners = [4, 1, 0] := by decide +kernel
  obtain ⟨hrelease, -⟩ := guards_remove_their_own 0 deeds
  obtain ⟨_, update, hpush, hsame, -, -⟩ := hrelease 3 ⟨none⟩ (by rw [hguards]; rfl)
  obtain ⟨_, update', hpush', -, hown, -⟩ := hrelease 4 ⟨some 4⟩ (by rw [hguards]; rfl)
  have hnone : update = none := (Prod.mk.inj (Option.some.inj hpush)).2.symm
  have hsome : update' ≠ none := by
    rw [← (Prod.mk.inj (Option.some.inj hpush')).2]
    exact nofun
  have hinnermost : (watch 0 deeds).owners.head? = some 4 := by rw [howners]; rfl
  refine ⟨hguards, hpushed, howners, by rw [hsame hnone], ?_, ?_⟩
  · rw [hown hsome hinnermost]
  · rw [hown hsome hinnermost]
    dsimp only
    rw [hpushed]
    rfl

end Transcode
