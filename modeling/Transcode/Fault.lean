namespace Transcode

/-!
# Faults of the engine

A conversion does not fail on syntax it does not know; that becomes a diagnostic.  What is
left are two faults: a conversion that does not leave the context stack as it found it, and
one that nests too deep.
-/

/-- What can be wrong with a run of the engine. -/
inductive Fault
  /-- The context stack had `expected` values before the run and `found` after it. -/
  | contextImbalance (expected found : Nat)
  /-- Something nested at `depth` although only `limit` levels are allowed. -/
  | recursionLimit (depth limit : Nat)
  deriving DecidableEq, Repr

/-- The text of a fault. -/
def Fault.message : Fault → String
  | .contextImbalance expected found =>
    "context stack imbalance: expected depth " ++ toString expected
      ++ " after traversal, found " ++ toString found
  | .recursionLimit depth limit =>
    "recursion limit exceeded: depth " ++ toString depth ++ " > limit " ++ toString limit

end Transcode
