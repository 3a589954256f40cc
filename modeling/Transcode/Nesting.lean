import Transcode.Fault

namespace Transcode

/-!
# Counting nested levels

A nesting guard counts the levels that are open.  Entering a level is refused past a limit,
but counts all the same, so a refused level has to be left like any other.
-/

/-- A count of open levels. -/
structure NestingGuard where
  depth : Nat := 0
  deriving DecidableEq, Repr

namespace NestingGuard

/-- Levels are counted in a 64-bit word and stop at its greatest value. -/
def maxDepth : Nat := UInt64.size - 1

/-- Open a level.  The fault says that the limit is exceeded. -/
def enter (g : NestingGuard) (limit : Nat) : NestingGuard × Option Fault :=
  let depth := min (g.depth + 1) maxDepth
  (⟨depth⟩, if limit < depth then some (.recursionLimit depth limit) else none)

/-- Close a level, if one is open. -/
def exit (g : NestingGuard) : NestingGuard :=
  ⟨g.depth - 1⟩

/-- Leaving a level undoes entering it, short of the greatest count. -/
theorem exit_enter {g : NestingGuard} (h : g.depth < maxDepth) (limit : Nat) :
    (g.enter limit).1.exit = g := by
  simp only [enter, exit, Nat.min_eq_left h]
  rfl

/-- Below the limit a level is opened. -/
theorem enter_of_lt {g : NestingGuard} {limit : Nat} (hlimit : limit < maxDepth)
    (h : g.depth < limit) : g.enter limit = (⟨g.depth + 1⟩, none) := by
  have hmin : min (g.depth + 1) maxDepth = g.depth + 1 := by omega
  simp only [enter, hmin]
  rw [if_neg (by omega)]

/-- At the limit the next level is refused, and the fault names both. -/
theorem enter_of_eq {g : NestingGuard} {limit : Nat} (hlimit : limit < maxDepth)
    (h : g.depth = limit) : (g.enter limit).2 = some (.recursionLimit (limit + 1) limit) := by
  have hmin : min (g.depth + 1) maxDepth = limit + 1 := by omega
  simp only [enter, hmin]
  rw [if_pos (by omega)]

/-- A level that is granted is granted in the same way under every greater limit. -/
theorem enter_mono {g : NestingGuard} {limit limit' : Nat} (hle : limit ≤ limit')
    (granted : (g.enter limit).2 = none) : g.enter limit' = g.enter limit := by
  simp only [enter] at granted ⊢
  split at granted
  · cases granted
  · rw [if_neg (by omega), if_neg (by omega)]

end NestingGuard

-- A refused level counts.
example : (NestingGuard.enter ⟨1⟩ 1) = (⟨2⟩, some (.recursionLimit 2 1)) := by decide

end Transcode
