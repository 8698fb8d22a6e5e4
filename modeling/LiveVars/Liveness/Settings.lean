/-
The choices a liveness run leaves open: how to solve, in which order to visit the
blocks, and whether the reads of terminators count.
-/
import LiveVars.Graph.Order
import LiveVars.Liveness.UseDef

namespace LiveVars

inductive Strategy where
  | roundRobin
  | worklist
deriving DecidableEq

/-- The choices for one run. -/
structure Settings where
  strategy : Strategy
  order : VisitOrder
  terminatorReads : TerminatorReads
deriving DecidableEq

namespace Settings

/-- Sweeps from the last block to the first, terminators reading nothing. -/
def default : Settings := ⟨.roundRobin, .reverseLayout, .ignored⟩

def withStrategy (c : Settings) (strategy : Strategy) : Settings := { c with strategy := strategy }

def withOrder (c : Settings) (order : VisitOrder) : Settings := { c with order := order }

def withTerminatorReads (c : Settings) (policy : TerminatorReads) : Settings :=
  { c with terminatorReads := policy }

end Settings

end LiveVars
