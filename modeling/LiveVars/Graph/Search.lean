/-
Depth-first search from the entry, with the pending work on an explicit stack. A
block is marked when it is first met, its successors are tried in edge order, and
it is finished when none is left. The order of finishing is the postorder.
-/
import LiveVars.Graph.Basic
import LiveVars.Table

namespace LiveVars.Graph

variable {n : Nat}

/-- A block under way, with the successors still to try. -/
structure Frame (n : Nat) where
  block : Fin n
  rest : List (Fin n)
deriving DecidableEq

def unmarked (marked : Vector Bool n) : Nat := (List.finRange n).countP (!marked.get ·)

theorem unmarked_put_lt {marked : Vector Bool n} {b : Fin n} (h : marked.get b = false) :
    unmarked (put marked b true) < unmarked marked := by
  refine countP_lt_countP (fun c _ hc => ?_) (List.mem_finRange b) (by simp [h]) (by simp)
  rw [Bool.not_eq_true', ← Bool.not_eq_true, get_put_true] at hc
  simpa using fun hm => hc (Or.inr hm)

/-- The steps it takes to empty the stack when nothing new is met. -/
def pending (stack : List (Frame n)) : Nat := (stack.flatMap fun fr => fr.block :: fr.rest).length

/-- Runs the search to its end. The blocks finished so far are held newest first. -/
def search (g : Graph n) (marked : Vector Bool n) (stack : List (Frame n)) (finished : List (Fin n)) :
    List (Fin n) :=
  match stack with
  | [] => finished
  | ⟨b, []⟩ :: below => search g marked below (b :: finished)
  | ⟨b, s :: rest⟩ :: below =>
    if marked.get s then search g marked (⟨b, rest⟩ :: below) finished
    else search g (put marked s true) (⟨s, g.succs.get s⟩ :: ⟨b, rest⟩ :: below) finished
termination_by (unmarked marked, pending stack)
decreasing_by
  · exact Prod.Lex.right _ (by simp [pending])
  · exact Prod.Lex.right _ (by simp [pending])
  · exact Prod.Lex.left _ _ (unmarked_put_lt (by simp_all))

/-- The blocks reachable from the entry, the last one finished first. -/
def reversePostorder (g : Graph n) : List (Fin n) :=
  g.search (put (Vector.replicate n false) g.entry true) [⟨g.entry, g.succs.get g.entry⟩] []

/-- The blocks reachable from the entry in the order they are finished. -/
def postorder (g : Graph n) : List (Fin n) := g.reversePostorder.reverse

/-- For each block, whether control can get there. -/
def reachable (g : Graph n) : Vector Bool n :=
  g.postorder.foldl (fun reached b => put reached b true)
    (Vector.replicate n false)

end LiveVars.Graph
