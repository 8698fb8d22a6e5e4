/-
What a solver hands back: the facts it ended with, how much work that took, and for a
solver that sweeps, the facts after each sweep.
-/
import LiveVars.Liveness.Equations

namespace LiveVars

structure Stats where
  sweeps : Nat
  visits : Nat
deriving DecidableEq

/-- The facts after a sweep, and whether the sweep changed any. -/
structure Snapshot (n : Nat) where
  facts : Facts n
  changed : Bool
deriving DecidableEq

structure Solution (n : Nat) where
  facts : Facts n
  stats : Stats
  snapshots : List (Snapshot n)
deriving DecidableEq

end LiveVars
