/-
The orders in which a solver may visit the blocks of a graph. Each lists every block
once; the two that follow the search put the blocks it does not reach at the end.
-/
import LiveVars.Graph.Search

namespace LiveVars

/-- A way to go through the blocks. -/
inductive VisitOrder where
  | layout
  | reverseLayout
  | postorder
  | reversePostorder
deriving DecidableEq

namespace Graph

variable {n : Nat}

/-- The blocks that control cannot get to, in layout order. -/
def unreached (g : Graph n) : List (Fin n) :=
  let reached := g.reachable
  (List.finRange n).filter fun b => !reached.get b

def visits (g : Graph n) : VisitOrder → List (Fin n)
  | .layout => List.finRange n
  | .reverseLayout => (List.finRange n).reverse
  | .postorder => g.postorder ++ g.unreached.reverse
  | .reversePostorder => g.reversePostorder ++ g.unreached

end Graph

end LiveVars
