/-
Runs that are done after one pass. Facts travel against the edges, so an order that has
every block behind its successors brings them all the way at the first attempt: no edge is
delayed, one sweep finds everything and a second sees that nothing changes; and when the
queue has a block visited, its predecessors are still waiting, so none is queued again.

Two orders are of this kind. Without cycles every edge leads to a block that the search
finishes earlier, so the finishing order will do if the search gets to all blocks. And
where every edge leads on in the layout, the layout from its end will do.
-/
import LiveVars.Proofs.FinishingOrder
import LiveVars.Proofs.SweepBounds
import LiveVars.Proofs.VisitBounds

namespace LiveVars

namespace Graph

variable {n : Nat} {g : Graph n} {order : List (Fin n)}

/-- Every block comes behind its successors in the order. -/
def SuccessorsFirst (g : Graph n) (order : List (Fin n)) : Prop :=
  ∀ u s, g.Edge u s → ¬ RoundRobin.Delayed order u s

theorem successorsFirst_of_sublist (horder : order.Nodup) (h : ∀ u s, g.Edge u s → [s, u].Sublist order) :
    g.SuccessorsFirst order :=
  fun u s he hdelayed => hdelayed (idxOf_lt_of_sublist horder (h u s he))

theorem successorsFirst_postorder (hg : g.Acyclic) (hall : ∀ b, g.Reaches g.entry b) :
    g.SuccessorsFirst (g.visits .postorder) := by
  refine successorsFirst_of_sublist (g.nodup_visits _) fun u s he => ?_
  rcases earlierOrBack_of_edge (hall u) he with hsub | ⟨passed, hback⟩
  · exact hsub.trans (List.sublist_append_left ..)
  · exact absurd (hg u (u :: passed) (.onward he hback)) (by simp)

theorem successorsFirst_reverseLayout (hg : ∀ b s, g.Edge b s → b < s) :
    g.SuccessorsFirst (g.visits .reverseLayout) := by
  refine successorsFirst_of_sublist (g.nodup_visits _) fun u s he => ?_
  have hlt : u < s := hg u s he
  have hsorted := List.pairwise_lt_finRange n
  obtain ⟨xs, ys, hsplit⟩ := List.append_of_mem (List.mem_finRange u)
  have hs : s ∈ xs ++ u :: ys := hsplit ▸ List.mem_finRange s
  rw [hsplit, List.pairwise_append] at hsorted
  -- The blocks in front of `u` are smaller, so the larger one stands behind it.
  have hys : s ∈ ys := by
    rcases List.mem_append.mp hs with hs | hs
    · exact absurd (hsorted.2.2 s hs u (by simp)) (by omega)
    · exact (List.mem_cons.mp hs).resolve_left (by omega)
  have hsub : [u, s].Sublist (List.finRange n) := by
    rw [hsplit]
    exact ((List.singleton_sublist.mpr hys).cons_cons u).trans (List.sublist_append_right ..)
  exact hsub.reverse

/-- Behind each block of the list stand all its predecessors. -/
def PredsBehind (g : Graph n) : List (Fin n) → Prop
  | [] => True
  | b :: rest => (∀ p, g.Edge p b → p ∈ rest) ∧ PredsBehind g rest

theorem mem_of_idxOf_lt {xs rest : List (Fin n)} {b p : Fin n} (hb : ¬ b ∈ xs) (hp : p ∈ xs ++ b :: rest)
    (hlt : (xs ++ b :: rest).idxOf b < (xs ++ b :: rest).idxOf p) : p ∈ rest := by
  rw [RoundRobin.idxOf_middle hb] at hlt
  rcases List.mem_append.mp hp with hp | hp
  · have := List.idxOf_lt_length_of_mem hp
    rw [List.idxOf_append_of_mem hp] at hlt
    omega
  · refine (List.mem_cons.mp hp).resolve_left fun hpb => ?_
    rw [hpb, RoundRobin.idxOf_middle hb] at hlt
    omega

theorem SuccessorsFirst.predsBehind (ho : RoundRobin.Enumerates order) (h : g.SuccessorsFirst order) :
    ∀ xs ys : List (Fin n), order = xs ++ ys → g.PredsBehind ys
  | _, [], _ => trivial
  | xs, b :: rest, hsplit => by
    refine ⟨fun p he => ?_, h.predsBehind ho (xs ++ [b]) rest (by simpa using hsplit)⟩
    have hlt : order.idxOf b < order.idxOf p := Decidable.not_not.mp (h p b he)
    have hnodup := ho.nodup
    have hp := ho.mem p
    rw [hsplit] at hlt hnodup hp
    have hb : ¬ b ∈ xs := fun hm => (List.nodup_append.mp hnodup).2.2 b hm b (by simp) rfl
    exact mem_of_idxOf_lt hb hp hlt

end Graph

/-! ## By sweeps -/

namespace RoundRobin

variable {n : Nat} {e : Equations n} {order : List (Fin n)}

theorem delays_eq_zero (h : e.graph.SuccessorsFirst order) {b c : Fin n} {passed : List (Fin n)}
    (hw : e.graph.Walk b passed c) : delays order (passed ++ [c]) = 0 := by
  induction hw with
  | here _ => rfl
  | onward he hw ih => rw [List.cons_append, delays_cons hw, ih, delay, if_neg (h _ _ he)]

theorem sweeps_solve_le_two (ho : Enumerates order) (h : e.graph.SuccessorsFirst order) :
    (solve e order).stats.sweeps ≤ 2 := by
  refine sweeps_solve_le (d := 0) ho fun u s v he ⟨passed, c, hw, huse, hdef⟩ => ?_
  exact ⟨s, passed, c, he, hw, huse, hdef, Nat.le_of_eq (delays_eq_zero h (.onward he hw))⟩

theorem one_le_sweeps_solve (e : Equations n) (order : List (Fin n)) : 1 ≤ (solve e order).stats.sweeps :=
  List.length_pos_iff.mpr (sweeps_ne_nil order (.bottom e))

/-- Where nothing is read the first sweep has nothing to find. -/
theorem sweeps_solve_eq_one (h : ∀ b : Fin n, e.uses.get b = ∅) : (solve e order).stats.sweeps = 1 := by
  have hnone : ∀ v b, ¬ e.ReadAhead v b := by
    intro v b ⟨_, c, _, huse, _⟩
    rw [h c] at huse
    exact ValueSet.not_mem_empty huse
  have : (solve e order).stats.sweeps ≤ 1 := sweeps_solve_le_one hnone
  have := one_le_sweeps_solve e order
  omega

theorem not_settled_bottom {b : Fin n} (huse : e.uses.get b ≠ ∅) : ¬ e.Settled (.bottom n) b := by
  intro hsettled
  refine huse (ValueSet.ext fun v => ⟨fun hv => ?_, fun hv => absurd hv ValueSet.not_mem_empty⟩)
  have hin : v ∈ e.inOf b ((Facts.bottom n).liveOut.get b) := Equations.mem_inOf.mpr (Or.inl hv)
  rw [← hsettled.2] at hin
  simpa only [Facts.bottom, get_replicate] using hin

/-- A block that reads something is changed by the first sweep, so there is another. -/
theorem two_le_sweeps_solve {b : Fin n} (hb : b ∈ order) (huse : e.uses.get b ≠ ∅) :
    2 ≤ (solve e order).stats.sweeps := by
  have hchanged : (sweep order (.bottom e)).changed = true := by
    cases hc : (sweep order (.bottom e)).changed with
    | true => rfl
    | false => exact absurd ((settled_of_foldl_unchanged hc).2 b hb) (not_settled_bottom huse)
  have hrest := List.length_pos_iff.mpr (sweeps_ne_nil order (sweep order (.bottom e)).current)
  show 2 ≤ (sweeps order (.bottom e)).length
  rw [sweeps_of_changed hchanged, List.length_cons]
  omega

end RoundRobin

/-! ## By the queue -/

namespace Worklist

variable {n : Nat} {e : Equations n} {w : Worklist e}

theorem enqueueAll_of_queued : ∀ {bs : List (Fin n)}, (∀ b ∈ bs, w.queued.get b = true) → w.enqueueAll bs = w
  | [], _ => rfl
  | b :: bs, h => by
    have hb : w.enqueue b = w := if_pos (h b (by simp))
    rw [enqueueAll, List.foldl_cons, hb]
    exact enqueueAll_of_queued fun c hc => h c (by simp [hc])

theorem queue_enqueueAll : ∀ {bs : List (Fin n)} {w : Worklist e}, w.Marked → (w.queue ++ bs).Nodup →
    (w.enqueueAll bs).queue = w.queue ++ bs
  | [], w, _, _ => by simp [enqueueAll]
  | b :: bs, w, hm, hnodup => by
    have hb : ¬ w.queued.get b = true := by
      rw [hm.queued_iff]
      exact fun hq => (List.nodup_append.mp hnodup).2.2 b hq b (by simp) rfl
    have hqueue : (w.enqueue b).queue = w.queue ++ [b] := by rw [enqueue, if_neg hb]
    have ih : ((w.enqueue b).enqueueAll bs).queue = (w.enqueue b).queue ++ bs :=
      queue_enqueueAll (hm.enqueue b) (by simpa [hqueue] using hnodup)
    rw [hqueue, List.append_assoc] at ih
    exact ih

theorem queue_start {order : List (Fin n)} (h : order.Nodup) : (start e order).queue = order :=
  queue_enqueueAll (.blank e) h

/-- While its predecessors wait behind it, a block leaves the queue for good. -/
theorem queue_step {b : Fin n} {rest : List (Fin n)} (h : w.Marked) (hq : w.queue = b :: rest)
    (hpreds : ∀ p, e.graph.Edge p b → p ∈ rest) : w.step.queue = rest := by
  cases hv : (w.current.visit b).2 with
  | false => rw [step_of_unchanged hq hv]
  | true =>
    have hpop := h.pop hq (w.current.visit b).1 (w.visits + 1)
    rw [step_of_changed hq hv, enqueueAll_of_queued]
    intro p hp
    exact (hpop.queued_iff p).mpr (hpreds p (Graph.mem_preds.mp hp))

theorem visits_drain (h : w.Consistent) (hbehind : e.graph.PredsBehind w.queue) :
    w.drain.visits = w.visits + w.queue.length := by
  induction w using drain.induct with
  | case1 w hq => rw [drain_of_empty hq, hq, List.length_nil, Nat.add_zero]
  | case2 w hne ih =>
    rw [← drain_step]
    obtain ⟨b, rest, hq⟩ := List.exists_cons_of_ne_nil hne
    rw [hq] at hbehind
    have hstep : w.step.queue = rest := queue_step h.toMarked hq hbehind.1
    have hvisits := visits_step hne
    rw [ih h.step (hstep ▸ hbehind.2), hstep, hq, List.length_cons]
    omega

theorem visits_solve_eq {order : List (Fin n)} (ho : RoundRobin.Enumerates order)
    (h : e.graph.SuccessorsFirst order) : (solve e order).stats.visits = n := by
  have hqueue : (start e order).queue = order := queue_start ho.nodup
  have hbehind : e.graph.PredsBehind (start e order).queue := by
    rw [hqueue]
    exact h.predsBehind ho [] order rfl
  have hdrain := visits_drain (.start ho.mem) hbehind
  rw [visits_start, hqueue, Graph.length_of_nodup ho.nodup ho.mem, Nat.zero_add] at hdrain
  exact hdrain

end Worklist

/-! ## The runs of a function -/

namespace Function

open LiveVars.Graph

variable {f : Function} {o : VisitOrder} {policy : TerminatorReads}

/-- In this order a run by sweeps takes one sweep if no block reads anything and two if some block does, and
a run by the queue visits each block once. -/
structure OnePass (f : Function) (o : VisitOrder) (policy : TerminatorReads) : Prop where
  sweeps_of_no_reads : (∀ b : Fin f.blockCount, (f.block b).uses policy = ∅) →
    (f.liveness ⟨.roundRobin, o, policy⟩).stats.sweeps = 1
  sweeps_of_reads : (¬ ∀ b : Fin f.blockCount, (f.block b).uses policy = ∅) →
    (f.liveness ⟨.roundRobin, o, policy⟩).stats.sweeps = 2
  visits : (f.liveness ⟨.worklist, o, policy⟩).stats.visits = f.blockCount

theorem onePass_of_successorsFirst (h : f.graph.SuccessorsFirst (f.graph.visits o)) : f.OnePass o policy := by
  have ho := RoundRobin.enumerates_visits f.graph o
  have huses : ∀ b, (f.equations policy).uses.get b = (f.block b).uses policy := equations_uses
  refine ⟨fun hnone => ?_, fun hsome => ?_, ?_⟩
  · exact RoundRobin.sweeps_solve_eq_one fun b => (huses b).trans (hnone b)
  · obtain ⟨b, hb⟩ := not_forall.mp hsome
    rw [← huses b] at hb
    exact Nat.le_antisymm (RoundRobin.sweeps_solve_le_two ho h) (RoundRobin.two_le_sweeps_solve (ho.mem b) hb)
  · exact Worklist.visits_solve_eq ho h

/-- **One pass is enough.** The graph depicts what the function stores. If no block gets back to itself and
the entry reaches every block, the finishing order of the search has a run done in one pass. So has the layout
from its end, if every edge leads from a block to a later one; no block need be reached then. -/
theorem onePass_of_acyclic (f : Function) (policy : TerminatorReads) :
    f.DepictedBy f.graph ∧
      (f.graph.Acyclic → (∀ b, f.graph.Reaches f.graph.entry b) → f.OnePass .postorder policy) ∧
      ((∀ b s, f.graph.Edge b s → b < s) → f.OnePass .reverseLayout policy) :=
  ⟨f.depictedBy_graph, fun hg hall => onePass_of_successorsFirst (successorsFirst_postorder hg hall),
    fun hg => onePass_of_successorsFirst (successorsFirst_reverseLayout hg)⟩

/-- The layout of the diamond has an edge back, so only the finishing order is of use there; in a row of two
blocks the layout is. -/
theorem onePass_of_acyclic_diamond :
    (∃ f, (Draft.ofEdits "diamond" diamondEdits).build = .ok f ∧ f.graph.Acyclic ∧
      (∀ b, f.graph.Reaches f.graph.entry b) ∧
      (f.liveness ⟨.roundRobin, .postorder, .ignored⟩).stats.sweeps = 2 ∧
      (f.liveness ⟨.worklist, .postorder, .ignored⟩).stats.visits = 4) ∧
    ∃ f, (Draft.ofEdits "pair" pairEdits).build = .ok f ∧ (∀ b s, f.graph.Edge b s → b < s) ∧
      f.OnePass .reverseLayout .ignored := by
  have hleft : diamond.graph.Edge diamond.graph.entry ⟨2, by decide⟩ := by decide
  have hright : diamond.graph.Edge diamond.graph.entry ⟨3, by decide⟩ := by decide
  have hjoin : diamond.graph.Edge ⟨2, by decide⟩ ⟨1, by decide⟩ := by decide
  have hall : ∀ b, diamond.graph.Reaches diamond.graph.entry b
    | ⟨0, _⟩ => .refl _
    | ⟨1, _⟩ => .of_edge hleft (.of_edge hjoin (.refl _))
    | ⟨2, _⟩ => .of_edge hleft (.refl _)
    | ⟨3, _⟩ => .of_edge hright (.refl _)
  have h := (onePass_of_acyclic diamond .ignored).2.1 acyclic_diamond hall
  refine ⟨⟨_, build_diamond, acyclic_diamond, hall, h.sweeps_of_reads (by decide), h.visits⟩, _, rfl, ?_, ?_⟩
  · decide
  · exact (onePass_of_acyclic _ .ignored).2.2 (by decide)

end Function

end LiveVars
