/-
How many sweeps a run takes, from below as well. Sweeps find the reads that walks with few
delayed edges lead to, and from empty facts they find no others
(`exists_walk_of_mem_liveIn_rounds`): a value that turns up at a block in some sweep is
read there, or it came over an edge, in the same sweep if the edge is not delayed and from
the sweep before if it is.

A run ends with the first sweep that has nothing to do. So it takes at most `d + 2` sweeps
exactly when whatever is live after a block is read along a walk with at most `d` delayed
edges (`sweeps_solve_le_iff`).
-/
import LiveVars.Proofs.Delays

namespace LiveVars

open Equations

namespace RoundRobin

variable {n : Nat} {e : Equations n} {order : List (Fin n)} {a : Approximation e} {v : ValueId}

/-! ## What sweeps find -/

/-- What is live after a block came over an edge: in the same sweep, from a block that comes earlier, or from
the sweep before if the edge is delayed. -/
theorem exists_edge_of_mem_liveOut_rounds (ho : Enumerates order) {k : Nat} {u : Fin n}
    (hv : v ∈ (rounds order (k + 1) a).facts.liveOut.get u) : ∃ s j, e.graph.Edge u s ∧
      delay order u s + j = k + 1 ∧ v ∈ (rounds order j a).facts.liveIn.get s ∧
      (j = k ∨ j = k + 1 ∧ order.idxOf s < order.idxOf u) := by
  rw [rounds_succ', mem_liveOut_sweep ho] at hv
  obtain ⟨s, he, hs⟩ := hv
  by_cases hd : Delayed order u s
  · rw [if_pos hd] at hs
    exact ⟨s, k, he, by rw [delay, if_pos hd, Nat.add_comm], hs, Or.inl rfl⟩
  · rw [if_neg hd, ← rounds_succ'] at hs
    exact ⟨s, k + 1, he, by rw [delay, if_neg hd, Nat.zero_add], hs, Or.inr ⟨rfl, Decidable.not_not.mp hd⟩⟩

/-- A value that sweeps found at a block is read on a walk with fewer delayed edges than there were sweeps. -/
theorem exists_walk_of_mem_liveIn_rounds (ho : Enumerates order) :
    ∀ {k : Nat} {b : Fin n}, v ∈ (rounds order k (.bottom e)).facts.liveIn.get b →
      ∃ passed c, e.graph.Walk b passed c ∧ v ∈ e.uses.get c ∧ (∀ p ∈ passed, ¬ v ∈ e.defs.get p) ∧
        delays order (passed ++ [c]) < k
  | 0, b, hv => by
    have hbottom : v ∈ (Facts.bottom n).liveIn.get b := hv
    simp [Facts.bottom] at hbottom
  | k + 1, b, hv => by
    rw [liveIn_rounds ho (Nat.succ_pos k), mem_inOf] at hv
    rcases hv with huse | ⟨hout, hdef⟩
    · exact ⟨[], b, .here b, huse, by simp, Nat.succ_pos k⟩
    · obtain ⟨s, j, he, hj, hs, hearlier⟩ := exists_edge_of_mem_liveOut_rounds ho hout
      obtain ⟨passed, c, hw, huse, hdefs, hlt⟩ := exists_walk_of_mem_liveIn_rounds ho hs
      refine ⟨b :: passed, c, .onward he hw, huse, List.forall_mem_cons.mpr ⟨hdef, hdefs⟩, ?_⟩
      rw [List.cons_append, delays_cons hw]
      omega
termination_by k b => (k, order.idxOf b)
decreasing_by
  rcases hearlier with rfl | ⟨rfl, hlt⟩
  · exact Prod.Lex.left _ _ (Nat.lt_succ_self _)
  · exact Prod.Lex.right _ hlt

theorem mem_liveOut_rounds_iff (ho : Enumerates order) {d : Nat} {u : Fin n} :
    v ∈ (rounds order (d + 1) (.bottom e)).facts.liveOut.get u ↔ ReadAfter e order v u d := by
  refine ⟨fun hv => ?_, fun h => h.mem_liveOut ho⟩
  obtain ⟨s, j, he, hj, hs, _⟩ := exists_edge_of_mem_liveOut_rounds ho hv
  obtain ⟨passed, c, hw, huse, hdefs, hlt⟩ := exists_walk_of_mem_liveIn_rounds ho hs
  refine ⟨s, passed, c, he, hw, huse, hdefs, ?_⟩
  rw [delays_cons hw]
  omega

/-! ## When a run ends -/

/-- If a run has `k` sweeps and one more at the most, the `k` settle every block. -/
theorem settled_of_length_sweeps_le (ho : Enumerates order) {k : Nat} {a : Approximation e}
    (hlen : (sweeps order a).length ≤ k + 1) : ∀ b, e.Settled (rounds order k a).facts b := by
  cases hc : (sweep order a).changed with
  | false =>
    -- nothing changes from here on, so all rounds are the same
    have hsame : (sweep order a).current = a := by
      rcases sweep_spec order a with ⟨h, _⟩ | ⟨_, h⟩
      · rw [hc] at h
        cases h
      · exact h
    have hrounds : rounds order k a = a := Function.iterate_fixed hsame k
    rw [hrounds]
    exact fun b => (settled_of_foldl_unchanged hc).2 b (ho.mem b)
  | true =>
    rw [sweeps_of_changed hc, List.length_cons] at hlen
    have hpos := List.length_pos_iff.mpr (sweeps_ne_nil order (sweep order a).current)
    obtain ⟨k, rfl⟩ : ∃ j, k = j + 1 := ⟨k - 1, by omega⟩
    rw [rounds_succ]
    exact settled_of_length_sweeps_le ho (by omega)

/-- **The number of sweeps.** A run takes at most `d + 2` sweeps exactly when everything live after a block
is read along a walk with at most `d` delayed edges. -/
theorem sweeps_solve_le_iff (ho : Enumerates order) {d : Nat} :
    (solve e order).stats.sweeps ≤ d + 2 ↔
      ∀ u s v, e.graph.Edge u s → e.ReadAhead v s → ReadAfter e order v u d := by
  refine ⟨fun hle u s v he hs => ?_, sweeps_solve_le ho⟩
  have hreached := @reached_rounds n e order (.bottom e) .bottom (d + 1)
  have hexact := hreached.sound.exact (settled_of_length_sweeps_le ho hle)
  exact (mem_liveOut_rounds_iff ho).mp ((hexact.liveOut u v).mpr ⟨s, he, hs⟩)

end RoundRobin

end LiveVars
