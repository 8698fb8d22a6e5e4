/-
Liveness of a function: which values are live before and after each block, together
with the sets the answer was computed from and the work it took.

A result can be held against the equations of any function (`Liveness.violation?`),
also of one it was not computed for: it keeps its own use and definition sets and
takes only the edges from the function.
-/
import LiveVars.Liveness.RoundRobin
import LiveVars.Liveness.Settings
import LiveVars.Liveness.Worklist

namespace LiveVars

/-- A lookup past the end of a table. -/
structure OutOfRange where
  size : Nat
  index : Nat
deriving DecidableEq

def OutOfRange.message : OutOfRange → String
  | ⟨size, index⟩ => s!"index out of bounds: the len is {size} but the index is {index}"

/-- The set that a table has at a position. -/
def setAt {n : Nat} (sets : Vector ValueSet n) (index : Nat) : Except OutOfRange ValueSet :=
  if h : index < n then .ok sets[index] else .error ⟨n, index⟩

/-- The live sets of a function with `n` blocks. -/
structure Liveness (n : Nat) where
  liveIn : Vector ValueSet n
  liveOut : Vector ValueSet n
  uses : Vector ValueSet n
  defs : Vector ValueSet n
  stats : Stats
deriving DecidableEq

/-! ## Computing it -/

namespace Function

def solve (f : Function) (c : Settings) : Solution f.blockCount :=
  let e := f.equations c.terminatorReads
  match c.strategy with
  | .roundRobin => RoundRobin.solve e (e.graph.visits c.order)
  | .worklist => Worklist.solve e (e.graph.visits c.order)

/-- The result that a solution of a function's equations stands for. -/
def livenessOf (f : Function) (c : Settings) (solution : Solution f.blockCount) :
    Liveness f.blockCount :=
  let e := f.equations c.terminatorReads
  ⟨solution.facts.liveIn, solution.facts.liveOut, e.uses, e.defs, solution.stats⟩

def liveness (f : Function) (c : Settings) : Liveness f.blockCount := f.livenessOf c (f.solve c)

end Function

/-! ## Holding it against the equations -/

/-- How a result fails the equations of a function. -/
inductive Violation where
  | liveOut (block : BlockId)
  | liveIn (block : BlockId)
  | blockCount
deriving DecidableEq

def Violation.message : Violation → String
  | liveOut b => s!"liveOut equation violated: block={b.index}"
  | liveIn b => s!"liveIn equation violated: block={b.index}"
  | blockCount => "liveness result does not match function shape"

namespace Liveness

variable {n : Nat}

/-- The first equation that fails at a block with the given successors: out, then in. -/
def violationAt? (l : Liveness n) (b : Fin n) (succs : List (Fin n)) : Option Violation :=
  if unionAt l.liveIn succs ≠ l.liveOut.get b then some (.liveOut (.ofIndex b))
  else if liveBefore (l.uses.get b) (l.defs.get b) (l.liveOut.get b) ≠ l.liveIn.get b then
    some (.liveIn (.ofIndex b))
  else none

/-- The first equation of a function that a result fails, in layout order. -/
def violation? (l : Liveness n) (f : Function) : Option Violation :=
  if h : f.blockCount = n then
    (List.finRange f.blockCount).findSome? fun b =>
      l.violationAt? (b.cast h) ((f.succsOf b).map (Fin.cast h))
  else some .blockCount

/-- Whether two results are one and the same, whatever their sizes are known to be. -/
def same {m : Nat} (l : Liveness n) (l' : Liveness m) : Bool :=
  if h : m = n then decide (l = h ▸ l') else false

def sameSets (l l' : Liveness n) : Bool := l.liveIn == l'.liveIn && l.liveOut == l'.liveOut

end Liveness

end LiveVars
