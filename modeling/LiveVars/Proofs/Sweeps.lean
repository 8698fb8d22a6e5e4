/-
Solving by sweeps finds the exact facts. Along a run every approximation is reached by
visits, so nothing is held that is not read ahead; and the run ends with a sweep that
found every block of its order settled. All that is asked of the order is that no block
is missing from it: it may name blocks any number of times, in any sequence.
-/
import LiveVars.Liveness.RoundRobin
import LiveVars.Proofs.ReadAhead

namespace LiveVars.RoundRobin

open Approximation

variable {n : Nat} {e : Equations n}

/-! ## One sweep -/

theorem reached_foldl_visit :
    ∀ {order : List (Fin n)} {s : Sweep e}, s.current.Reached → (order.foldl Sweep.visit s).current.Reached
  | [], _, h => h
  | b :: order, s, h => by
    rw [List.foldl_cons]
    exact reached_foldl_visit (s := s.visit b) (h.visit b)

theorem reached_sweep {order : List (Fin n)} {a : Approximation e} (h : a.Reached) :
    (sweep order a).current.Reached := reached_foldl_visit h

theorem settled_of_foldl_unchanged : ∀ {order : List (Fin n)} {s : Sweep e},
    (order.foldl Sweep.visit s).changed = false →
      s.changed = false ∧ ∀ b ∈ order, e.Settled s.current.facts b
  | [], _, h => ⟨h, by simp⟩
  | b :: order, s, h => by
    rw [List.foldl_cons] at h
    obtain ⟨hc, hs⟩ := settled_of_foldl_unchanged h
    simp only [Sweep.visit, Bool.or_eq_false_iff] at hc
    obtain ⟨hc, hv⟩ := hc
    -- The visit of `b` left the facts alone, so the rest of the sweep is about the same facts.
    have hsame : (s.visit b).current = s.current := visit_fst_of_unchanged hv
    rw [hsame] at hs
    refine ⟨hc, fun c hm => ?_⟩
    rcases List.mem_cons.mp hm with rfl | hm
    · exact visit_unchanged_iff.mp hv
    · exact hs c hm

theorem settled_of_sweep_unchanged {order : List (Fin n)} {a : Approximation e}
    (h : (sweep order a).changed = false) : ∀ b ∈ order, e.Settled (sweep order a).current.facts b := by
  rcases sweep_spec order a with ⟨hc, _⟩ | ⟨_, hcur⟩
  · rw [h] at hc
    cases hc
  · rw [hcur]
    exact (settled_of_foldl_unchanged h).2

/-! ## The run -/

theorem getLast_sweeps {order : List (Fin n)} {a : Approximation e} (h : a.Reached) :
    ((sweeps order a).getLast (sweeps_ne_nil order a)).current.Reached ∧
      ∀ b ∈ order, e.Settled ((sweeps order a).getLast (sweeps_ne_nil order a)).current.facts b := by
  induction a using sweeps.induct order with
  | case1 a s hc ih =>
    simp only [sweeps_of_changed hc, List.getLast_cons (sweeps_ne_nil order (sweep order a).current)]
    exact ih (reached_sweep h)
  | case2 a s hc =>
    simp only [sweeps_of_unchanged hc, List.getLast_singleton]
    exact ⟨reached_sweep h, settled_of_sweep_unchanged (by simpa using hc)⟩

/-- The sweeps end with the exact facts, along any order that misses no block. -/
theorem exact_solve {order : List (Fin n)} (h : ∀ b, b ∈ order) : e.Exact (solve e order).facts := by
  obtain ⟨hreached, hsettled⟩ := @getLast_sweeps n e order _ .bottom
  exact hreached.sound.exact fun b => hsettled b (h b)

end LiveVars.RoundRobin
