namespace Transcode

/-!
# The context stack

While a node is converted, its parent can hand a context down: an update that is merged onto
the innermost context and stays there until the conversion is over.  A push gives out a
*guard*, and giving the guard back removes the value that was pushed.  Guards have to come back
innermost first; a guard given back too early or too late is refused, and a refusal leaves the
stack as it is.
-/

/-- A stack of contexts over a fixed root. -/
structure ContextStack (C : Type) where
  root : C
  /-- The values above the root, the innermost first. -/
  pushed : List C := []
  /-- How many values were ever pushed. -/
  pushes : Nat := 0
  /-- How many values were ever removed. -/
  pops : Nat := 0
  deriving DecidableEq, Repr

/-- What a push gives out: the depth it brought about, or nothing when it pushed nothing. -/
structure Guard where
  depth : Option Nat
  deriving DecidableEq, Repr

/-- A guard given back out of turn: the stack has depth `current`, and the guard belongs to
    depth `recorded`. -/
structure Imbalance where
  current : Nat
  recorded : Nat
  deriving DecidableEq, Repr

/-- The text of a refusal. -/
def Imbalance.message (i : Imbalance) : String :=
  "assertion `left == right` failed: context stack imbalance: "
    ++ "the popped context is not the one this guard pushed"
    ++ "\n  left: " ++ toString i.current ++ "\n right: " ++ toString i.recorded

namespace ContextStack

variable {C : Type}

/-- The innermost context. -/
def top (s : ContextStack C) : C :=
  s.pushed.headD s.root

/-- The number of contexts, the root included. -/
def depth (s : ContextStack C) : Nat :=
  1 + s.pushed.length

/-- Merge an update onto the innermost context and push the outcome.  Without an update
    nothing is pushed. -/
def push (s : ContextStack C) (merge : C → C → C) : Option C → ContextStack C × Guard
  | none => (s, ⟨none⟩)
  | some update =>
    let s := { s with pushed := merge s.top update :: s.pushed, pushes := s.pushes + 1 }
    (s, ⟨some s.depth⟩)

/-- Give a guard back. -/
def release (s : ContextStack C) (g : Guard) : Except Imbalance (ContextStack C) :=
  match g.depth with
  | none => .ok s
  | some recorded =>
    if s.depth = recorded then .ok { s with pushed := s.pushed.tail, pops := s.pops + 1 }
    else .error ⟨s.depth, recorded⟩

/-- After a push the merged value is innermost. -/
@[simp] theorem top_push (s : ContextStack C) (merge : C → C → C) (update : C) :
    (s.push merge (some update)).1.top = merge s.top update := rfl

/-- A push adds one context. -/
@[simp] theorem depth_push (s : ContextStack C) (merge : C → C → C) (update : C) :
    (s.push merge (some update)).1.depth = s.depth + 1 := by
  simp [push, depth, Nat.add_assoc]

/-- The guard of a push is accepted by any stack as deep as the one after it, and the innermost
    value is removed. -/
theorem release_push {s t : ContextStack C} (merge : C → C → C) (update : C)
    (h : t.depth = s.depth + 1) :
    t.release (s.push merge (some update)).2
      = .ok { t with pushed := t.pushed.tail, pops := t.pops + 1 } := by
  have hdepth : t.depth = (s.push merge (some update)).1.depth := by rw [depth_push, h]
  show (if t.depth = (s.push merge (some update)).1.depth then _ else _) = _
  rw [if_pos hdepth]

end ContextStack

/-! ### Guards in other hands -/

/-- A context stack together with the guards that were given out, the first first.  Each guard
    can be given back once; one that was is gone. -/
structure Leases (C : Type) where
  stack : ContextStack C
  guards : List (Option Guard) := []
  deriving DecidableEq, Repr

namespace Leases

variable {C : Type}

/-- Push and keep the guard. -/
def push (l : Leases C) (merge : C → C → C) (update : Option C) : Leases C :=
  let outcome := l.stack.push merge update
  { stack := outcome.1, guards := l.guards ++ [some outcome.2] }

/-- Give guard `n` back.  There is no answer when nobody holds it any more; a refusal keeps
    the stack, and the guard is gone all the same. -/
def release (l : Leases C) (n : Nat) : Leases C × Option (Except Imbalance Unit) :=
  match l.guards[n]?.join with
  | none => (l, none)
  | some guard =>
    let guards := l.guards.set n none
    match l.stack.release guard with
    | .ok stack => ({ stack := stack, guards := guards }, some (.ok ()))
    | .error imbalance => ({ l with guards := guards }, some (.error imbalance))

end Leases

-- Guards come back innermost first.
example :
    let l := (({ stack := { root := 0 } } : Leases Nat).push (· + ·) (some 2)).push (· + ·) (some 3)
    (l.release 0).1.stack.top = 5 ∧ (l.release 1).1.stack.top = 2 := by
  decide

end Transcode
