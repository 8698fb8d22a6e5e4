/-
The order in which the search finishes blocks, and the visiting orders made from it.

When the search finishes a block it has taken up every successor. A successor is finished
by then, or it is still under way; a block under way lies on the walk to the one being
finished, so such a successor leads back to it. An edge with no way back therefore runs
from a block to one finished earlier, and where no cycle can be got to the blocks reached
stand in topological order, read from the last one finished.

The two visiting orders that follow the search put the other blocks behind it, so between
them the parts name every block once.
-/
import LiveVars.Function.Draft
import LiveVars.Proofs.DepthFirst

namespace LiveVars

/-- In a list without repetitions the members of a sublist come in the order of the list. -/
theorem idxOf_lt_of_sublist {α : Type} [DecidableEq α] {l : List α} {a b : α} (hl : l.Nodup)
    (h : [a, b].Sublist l) : l.idxOf a < l.idxOf b := by
  obtain ⟨xs, ys, rfl, ha, hb⟩ := List.append_sublist_iff.mp (show ([a] ++ [b]).Sublist l from h)
  rw [List.singleton_sublist] at ha hb
  have hnot : ¬ b ∈ xs := fun hm => (List.nodup_append.mp hl).2.2 b hm b hb rfl
  have hlt := List.idxOf_lt_length_of_mem ha
  rw [List.idxOf_append_of_mem ha, List.idxOf_append_of_notMem hnot]
  omega

namespace Graph

variable {n : Nat} {g : Graph n}

/-! ## Edges and the finishing order -/

/-- A successor is finished earlier, or it leads back. -/
theorem earlierOrBack_of_edge {u s : Fin n} (hu : g.Reaches g.entry u) (he : g.Edge u s) :
    g.EarlierOrBack g.postorder s u := by
  rw [← mem_postorder_iff] at hu
  rw [postorder_eq] at hu ⊢
  rcases g.explores_entry.earlier u hu s he with hs | hs
  · simp at hs
  · exact hs

/-- The order names the blocks that the entry reaches, each once, and every edge from one of them leads on
in the order. -/
structure Topological (g : Graph n) (order : List (Fin n)) : Prop where
  nodup : order.Nodup
  mem_iff : ∀ b, b ∈ order ↔ g.Reaches g.entry b
  onward : ∀ u s, u ∈ order → g.Edge u s → order.idxOf u < order.idxOf s

theorem topological_reversePostorder (h : ∀ b passed, g.Reaches g.entry b → g.Walk b passed b → passed = []) :
    g.Topological g.reversePostorder where
  nodup := g.nodup_reversePostorder
  mem_iff b := by
    rw [← mem_postorder_iff, postorder, List.mem_reverse]
  onward u s hu he := by
    have hreach : g.Reaches g.entry u := mem_postorder_iff.mp (List.mem_reverse.mpr hu)
    rcases earlierOrBack_of_edge hreach he with hsub | ⟨passed, hback⟩
    · have hrev := hsub.reverse
      rw [postorder, List.reverse_reverse] at hrev
      exact idxOf_lt_of_sublist g.nodup_reversePostorder hrev
    · exact absurd (h u (u :: passed) hreach (.onward he hback)) (by simp)

/-! ## The visiting orders -/

theorem reachable_iff {b : Fin n} : g.reachable.get b = true ↔ g.Reaches g.entry b := by
  rw [reachable_iff_mem_postorder, mem_postorder_iff]

theorem mem_unreached_iff {b : Fin n} : b ∈ g.unreached ↔ ¬ g.Reaches g.entry b := by
  rw [mem_unreached, mem_postorder_iff]

theorem pairwise_unreached (g : Graph n) : g.unreached.Pairwise (· < ·) :=
  (List.pairwise_lt_finRange n).filter _

end Graph

namespace Function

open LiveVars.Graph

/-- **Edges and the finishing order.** Take the graph that the function stores. Where an edge leaves a block that
the entry reaches, the search has the target earlier than the source, or the target leads back to the source.
So if no cycle can be got to from the entry, the finishing order read backwards is a topological order of the
blocks reached. -/
theorem postorder_edges (f : Function) :
    let g := f.graph
    f.DepictedBy g ∧
    (∀ u s, g.Reaches g.entry u → g.Edge u s →
      g.postorder.idxOf s < g.postorder.idxOf u ∨ g.Reaches s u) ∧
    ((∀ b passed, g.Reaches g.entry b → g.Walk b passed b → passed = []) →
      g.Topological g.reversePostorder) := by
  intro g
  refine ⟨f.depictedBy_graph, fun u s hu he => ?_, topological_reversePostorder⟩
  rcases earlierOrBack_of_edge hu he with hsub | hback
  · exact Or.inl (idxOf_lt_of_sublist g.nodup_postorder hsub)
  · exact Or.inr hback

/-- A block with two successors that meet again; the layout has the meeting point before them. -/
def diamondEdits : List Edit :=
  [.declare "c", .addBlock "top", .addBlock "join", .addBlock "left", .addBlock "right",
    .finish (.ofIndex 0) (.condBr (.value (.ofIndex 0)) (.ofIndex 2) (.ofIndex 3)),
    .finish (.ofIndex 2) (.br (.ofIndex 1)), .finish (.ofIndex 3) (.br (.ofIndex 1)),
    .effect (.ofIndex 1) .call [.value (.ofIndex 0)], .finish (.ofIndex 1) (.ret [])]

/-- How many edges lead from the top of the diamond to each block. -/
def diamondDepth : Nat → Nat
  | 0 => 0
  | 1 => 2
  | _ => 1

def diamond : Function :=
  ⟨(Draft.ofEdits "diamond" diamondEdits).listing, Listing.valid_of_fault? (by decide)⟩

theorem build_diamond : (Draft.ofEdits "diamond" diamondEdits).build = .ok diamond := rfl

theorem acyclic_diamond : diamond.graph.Acyclic := .of_rank (fun b => diamondDepth b) (by decide)

theorem postorder_edges_diamond : ∃ f, (Draft.ofEdits "diamond" diamondEdits).build = .ok f ∧
    (∀ b passed, f.graph.Reaches f.graph.entry b → f.graph.Walk b passed b → passed = []) ∧
      f.graph.Topological f.graph.reversePostorder ∧
      ∃ u s, f.graph.Reaches f.graph.entry u ∧ f.graph.Edge u s ∧
        (f.graph.postorder.idxOf s < f.graph.postorder.idxOf u ∨ f.graph.Reaches s u) := by
  let left : Fin diamond.blockCount := ⟨2, by decide⟩
  let join : Fin diamond.blockCount := ⟨1, by decide⟩
  have hleft : diamond.graph.Reaches diamond.graph.entry left := .of_edge (by decide) (.refl left)
  have hedge : diamond.graph.Edge left join := by decide
  have hcycles : ∀ b passed, diamond.graph.Reaches diamond.graph.entry b →
      diamond.graph.Walk b passed b → passed = [] := fun b passed _ hw => acyclic_diamond b passed hw
  obtain ⟨_, hedges, htopological⟩ := postorder_edges diamond
  exact ⟨_, build_diamond, hcycles, htopological hcycles, left, join, hleft, hedge, hedges left join hleft hedge⟩

/-- **Reachable blocks and visiting orders.** In the graph that the function stores, the table of reachable
blocks has an entry for each block, true where edges lead from the entry to it. Every visiting order names all
blocks, each once. The two that follow the search list what it lists, forwards or backwards, and after it the
blocks that cannot be got to: from the last to the first in the one case, from the first to the last in the
other. -/
theorem visits_permute_blocks (f : Function) :
    let g := f.graph
    f.DepictedBy g ∧
    (g.reachable.toList.length = f.blockCount ∧ ∀ b, g.reachable.get b = true ↔ g.Reaches g.entry b) ∧
    (∀ o, (g.visits o).Perm (List.finRange f.blockCount)) ∧
    (∃ others, g.visits .postorder = g.postorder ++ others ∧ others.Pairwise (· > ·) ∧
      ∀ b, b ∈ others ↔ ¬ g.Reaches g.entry b) ∧
    ∃ others, g.visits .reversePostorder = g.postorder.reverse ++ others ∧ others.Pairwise (· < ·) ∧
      ∀ b, b ∈ others ↔ ¬ g.Reaches g.entry b := by
  intro g
  refine ⟨f.depictedBy_graph, ⟨by simp, fun b => reachable_iff⟩, fun o => ?_, ?_, ?_⟩
  · exact perm_finRange (g.nodup_visits o) (g.mem_visits o)
  · refine ⟨g.unreached.reverse, rfl, List.pairwise_reverse.mpr g.pairwise_unreached, fun b => ?_⟩
    rw [List.mem_reverse, mem_unreached_iff]
  · refine ⟨g.unreached, ?_, g.pairwise_unreached, fun b => mem_unreached_iff⟩
    rw [visits, postorder, List.reverse_reverse]

end Function

end LiveVars
