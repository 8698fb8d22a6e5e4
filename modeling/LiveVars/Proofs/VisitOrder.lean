/-
Every visiting order has every block once. For the two orders that follow the search this
needs nothing about how far the search gets: the blocks it finishes are the ones marked
as reached, and the others are appended. The search finishes no block twice, because it
takes up a block only when it first marks it.
-/
import LiveVars.Graph.Order
import Mathlib.Data.List.FinRange

namespace LiveVars.Graph

variable {n : Nat}

theorem get_foldl_put_true : ∀ {bs : List (Fin n)} {marks : Vector Bool n} {c : Fin n},
    (bs.foldl (fun marks b => put marks b true) marks).get c = true ↔
      marks.get c = true ∨ c ∈ bs
  | [], marks, c => by simp
  | b :: bs, marks, c => by
    rw [List.foldl_cons, get_foldl_put_true, get_put_true, List.mem_cons]
    tauto

theorem reachable_iff_mem_postorder {g : Graph n} {b : Fin n} :
    g.reachable.get b = true ↔ b ∈ g.postorder := by
  rw [reachable, get_foldl_put_true]
  simp

theorem mem_unreached {g : Graph n} {b : Fin n} : b ∈ g.unreached ↔ ¬ b ∈ g.postorder := by
  rw [← reachable_iff_mem_postorder]
  simp [unreached]

theorem mem_visits (g : Graph n) (o : VisitOrder) (b : Fin n) : b ∈ g.visits o := by
  cases o with
  | layout => exact List.mem_finRange b
  | reverseLayout => exact List.mem_reverse.mpr (List.mem_finRange b)
  | postorder =>
    rw [visits, List.mem_append, List.mem_reverse, mem_unreached]
    exact Classical.em _
  | reversePostorder =>
    have hmem : b ∈ g.reversePostorder ↔ b ∈ g.postorder := List.mem_reverse.symm
    rw [visits, List.mem_append, mem_unreached, hmem]
    exact Classical.em _

/-! ## No block twice -/

theorem nodup_search (g : Graph n) (marked : Vector Bool n) (stack : List (Frame n))
    (finished : List (Fin n)) (hnodup : (stack.map Frame.block ++ finished).Nodup)
    (hmarked : ∀ b ∈ stack.map Frame.block ++ finished, marked.get b = true) :
    (g.search marked stack finished).Nodup := by
  fun_induction search g marked stack finished with
  | case1 marked finished => exact hnodup
  | case2 marked finished b below ih =>
    -- The block goes from the stack to the finished ones; the blocks met are the same.
    have hperm : (below.map Frame.block ++ b :: finished).Perm
        (b :: (below.map Frame.block ++ finished)) := List.perm_middle
    exact ih (hperm.nodup_iff.mpr hnodup) fun c hc => hmarked c (hperm.mem_iff.mp hc)
  | case3 marked finished b s rest below _ ih => exact ih hnodup hmarked
  | case4 marked finished b s rest below hs ih =>
    have hnew : ¬ s ∈ (⟨b, rest⟩ :: below : List (Frame n)).map Frame.block ++ finished :=
      fun hm => hs (hmarked s hm)
    refine ih (List.nodup_cons.mpr ⟨hnew, hnodup⟩) fun c hc => get_put_true.mpr ?_
    exact (List.mem_cons.mp hc).imp_right (hmarked c)

theorem nodup_reversePostorder (g : Graph n) : g.reversePostorder.Nodup :=
  nodup_search g _ _ _ (by simp) (by simp)

theorem nodup_visits (g : Graph n) (o : VisitOrder) : (g.visits o).Nodup := by
  have hunreached : g.unreached.Nodup := (List.nodup_finRange n).filter _
  cases o with
  | layout => exact List.nodup_finRange n
  | reverseLayout => exact List.nodup_reverse.mpr (List.nodup_finRange n)
  | postorder =>
    refine List.nodup_append'.mpr ⟨List.nodup_reverse.mpr g.nodup_reversePostorder,
      List.nodup_reverse.mpr hunreached, fun b hb hu => ?_⟩
    exact mem_unreached.mp (List.mem_reverse.mp hu) hb
  | reversePostorder =>
    refine List.nodup_append'.mpr ⟨g.nodup_reversePostorder, hunreached, fun b hb hu => ?_⟩
    exact mem_unreached.mp hu (List.mem_reverse.mpr hb)

theorem perm_finRange {bs : List (Fin n)} (hnodup : bs.Nodup) (hall : ∀ b, b ∈ bs) : bs.Perm (List.finRange n) :=
  (List.perm_ext_iff_of_nodup hnodup (List.nodup_finRange n)).mpr fun b => by simp [hall b]

/-- A list of all blocks that names none twice is as long as there are blocks. -/
theorem length_of_nodup {bs : List (Fin n)} (hnodup : bs.Nodup) (hall : ∀ b, b ∈ bs) : bs.length = n := by
  rw [(perm_finRange hnodup hall).length_eq, List.length_finRange]

end LiveVars.Graph
