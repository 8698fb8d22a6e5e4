/-
How far facts travel in a sweep. They travel against the edges: what is live before `s` is
live after `u` when there is an edge from `u` to `s`. If `s` comes before `u` in the order,
the sweep that brings `s` up to date also takes the news to `u`; across any other edge the
news waits for the next sweep, and the edge is called delayed.

One sweep is described by two equations (`mem_liveOut_sweep`, `liveIn_sweep`). They are the
equations of liveness, but for a delayed edge they look at the facts from before the sweep.
So `k` sweeps find every read that a walk with fewer than `k` delayed edges leads to
(`mem_liveIn_rounds`). When such walks lead to all reads ahead, the facts are exact and the
next sweep is the last (`length_sweeps_le`).
-/
import LiveVars.Proofs.Sweeps
import LiveVars.Proofs.VisitOrder

namespace LiveVars

open Equations

namespace RoundRobin

variable {n : Nat} {e : Equations n} {order : List (Fin n)} {a : Approximation e} {v : ValueId}

/-- The order names every block once. -/
structure Enumerates (order : List (Fin n)) : Prop where
  nodup : order.Nodup
  mem : ∀ b, b ∈ order

theorem enumerates_visits (g : Graph n) (o : VisitOrder) : Enumerates (g.visits o) :=
  ⟨g.nodup_visits o, g.mem_visits o⟩

/-! ## Delayed edges -/

/-- An edge from `u` to `s` is delayed when `s` does not come strictly before `u` in the order. -/
def Delayed (order : List (Fin n)) (u s : Fin n) : Prop := ¬ order.idxOf s < order.idxOf u

instance (u s : Fin n) : Decidable (Delayed order u s) := inferInstanceAs (Decidable (¬ _))

def delay (order : List (Fin n)) (u s : Fin n) : Nat := if Delayed order u s then 1 else 0

/-- The number of delayed edges along a list of blocks. -/
def delays (order : List (Fin n)) : List (Fin n) → Nat
  | u :: s :: rest => delay order u s + delays order (s :: rest)
  | _ => 0

theorem delays_cons {g : Graph n} {u s c : Fin n} {passed : List (Fin n)} (h : g.Walk s passed c) :
    delays order (u :: (passed ++ [c])) = delay order u s + delays order (passed ++ [c]) := by
  cases h <;> rfl

theorem idxOf_middle {xs ys : List (Fin n)} {u : Fin n} (hu : ¬ u ∈ xs) :
    (xs ++ u :: ys).idxOf u = xs.length := by
  rw [List.idxOf_append_of_notMem hu, List.idxOf_cons_self, Nat.add_zero]

/-- At the visit of `u`, the edges that are not delayed are those to the blocks already visited. -/
theorem delayed_iff {xs ys : List (Fin n)} {u s : Fin n} (hu : ¬ u ∈ xs) :
    Delayed (xs ++ u :: ys) u s ↔ ¬ s ∈ xs := by
  unfold Delayed
  rw [idxOf_middle hu]
  by_cases hs : s ∈ xs
  · have hlt := List.idxOf_lt_length_of_mem hs
    rw [List.idxOf_append_of_mem hs]
    simp [hs, hlt]
  · rw [List.idxOf_append_of_notMem hs]
    simp [hs]

/-! ## One sweep -/

/-- Visits leave the sets of other blocks alone. -/
theorem foldl_visit_other {b : Fin n} : ∀ {xs : List (Fin n)} {s : Sweep e}, ¬ b ∈ xs →
    (xs.foldl Sweep.visit s).current.facts.liveIn.get b = s.current.facts.liveIn.get b ∧
      (xs.foldl Sweep.visit s).current.facts.liveOut.get b = s.current.facts.liveOut.get b
  | [], _, _ => ⟨rfl, rfl⟩
  | c :: xs, s, h => by
    obtain ⟨hc, hxs⟩ : b ≠ c ∧ ¬ b ∈ xs := by simpa using h
    obtain ⟨hin, hout⟩ := @foldl_visit_other b xs (s.visit c) hxs
    have hfacts : (s.visit c).current.facts = e.revise s.current.facts c := Approximation.visit_facts ..
    rw [List.foldl_cons, hin, hout, hfacts]
    exact ⟨revise_liveIn_other _ _ hc, revise_liveOut_other _ _ hc⟩

/-- A sweep leaves at `u` what its visit of `u` writes, which goes by the facts `mid` it finds there: those
of the whole sweep at the blocks before `u`, those from before the sweep elsewhere. -/
theorem exists_mid (ho : Enumerates order) (a : Approximation e) (u : Fin n) : ∃ mid : Facts n,
    (∀ s, mid.liveIn.get s =
      (if Delayed order u s then a else (sweep order a).current).facts.liveIn.get s) ∧
    (sweep order a).current.facts.liveOut.get u = e.outOf mid.liveIn u ∧
    (sweep order a).current.facts.liveIn.get u = e.inOf u (e.outOf mid.liveIn u) := by
  obtain ⟨xs, ys, rfl⟩ := List.append_of_mem (ho.mem u)
  obtain ⟨hnot, hnodup⟩ := List.nodup_cons.mp (List.nodup_middle.mp ho.nodup)
  obtain ⟨hux, huy⟩ : ¬ u ∈ xs ∧ ¬ u ∈ ys := by simpa using hnot
  let mid : Sweep e := xs.foldl Sweep.visit (.start a)
  have hsweep : sweep (xs ++ u :: ys) a = ys.foldl Sweep.visit (mid.visit u) := by
    rw [sweep, List.foldl_append, List.foldl_cons]
  have hfacts : (mid.visit u).current.facts = e.revise mid.current.facts u := Approximation.visit_facts ..
  obtain ⟨hin, hout⟩ := @foldl_visit_other n e u ys (mid.visit u) huy
  refine ⟨mid.current.facts, fun s => ?_, ?_, ?_⟩
  · by_cases hs : s ∈ xs
    · -- `s` is visited before `u` and not again.
      have hsy : ¬ s ∈ u :: ys := by
        intro hm
        rcases List.mem_cons.mp hm with rfl | hm
        · exact hux hs
        · exact (List.nodup_append.mp hnodup).2.2 s hs s hm rfl
      rw [if_neg (fun hd => (delayed_iff hux).mp hd hs)]
      rw [sweep, List.foldl_append]
      exact (foldl_visit_other hsy).1.symm
    · rw [if_pos ((delayed_iff hux).mpr hs)]
      exact (foldl_visit_other hs).1
  · rw [hsweep, hout, hfacts, revise_liveOut_self]
  · rw [hsweep, hin, hfacts, revise_liveIn_self]

/-- After a sweep, out(u) is the union of what the edges from `u` had to show at the visit. -/
theorem mem_liveOut_sweep (ho : Enumerates order) {u : Fin n} :
    v ∈ (sweep order a).current.facts.liveOut.get u ↔ ∃ s, e.graph.Edge u s ∧
      v ∈ (if Delayed order u s then a else (sweep order a).current).facts.liveIn.get s := by
  obtain ⟨mid, hmid, hout, _⟩ := exists_mid ho a u
  rw [hout, mem_outOf]
  simp only [hmid]

/-- After a sweep the equation for in(u) holds at every block. -/
theorem liveIn_sweep (ho : Enumerates order) (a : Approximation e) (u : Fin n) :
    (sweep order a).current.facts.liveIn.get u =
      e.inOf u ((sweep order a).current.facts.liveOut.get u) := by
  obtain ⟨mid, _, hout, hin⟩ := exists_mid ho a u
  rw [hin, hout]

/-! ## Many sweeps -/

/-- The approximation that `k` sweeps lead to. -/
def rounds (order : List (Fin n)) (k : Nat) (a : Approximation e) : Approximation e :=
  (fun a => (sweep order a).current)^[k] a

theorem rounds_succ (k : Nat) (a : Approximation e) :
    rounds order (k + 1) a = rounds order k (sweep order a).current := rfl

theorem rounds_succ' (k : Nat) (a : Approximation e) :
    rounds order (k + 1) a = (sweep order (rounds order k a)).current :=
  Function.iterate_succ_apply' ..

theorem reached_rounds (h : a.Reached) (k : Nat) : (rounds order k a).Reached := by
  induction k with
  | zero => exact h
  | succ k ih =>
    rw [rounds_succ']
    exact reached_sweep ih

/-- What `s` has from the `d`-th sweep on, `u` has a sweep later if the edge is delayed, else as soon. -/
theorem mem_liveOut_rounds_of_edge (ho : Enumerates order) {u s : Fin n} {d k : Nat}
    (he : e.graph.Edge u s) (hs : ∀ j, d < j → v ∈ (rounds order j a).facts.liveIn.get s)
    (hk : delay order u s + d < k) : v ∈ (rounds order k a).facts.liveOut.get u := by
  obtain ⟨k, rfl⟩ : ∃ j, k = j + 1 := ⟨k - 1, by omega⟩
  rw [rounds_succ', mem_liveOut_sweep ho]
  refine ⟨s, he, ?_⟩
  by_cases hd : Delayed order u s
  · simp only [delay, if_pos hd] at hk ⊢
    exact hs k (by omega)
  · simp only [delay, if_neg hd] at hk ⊢
    rw [← rounds_succ']
    exact hs (k + 1) (by omega)

theorem liveIn_rounds (ho : Enumerates order) {k : Nat} (hk : 0 < k) (b : Fin n) :
    (rounds order k a).facts.liveIn.get b = e.inOf b ((rounds order k a).facts.liveOut.get b) := by
  obtain ⟨k, rfl⟩ : ∃ j, k = j + 1 := ⟨k - 1, by omega⟩
  rw [rounds_succ']
  exact liveIn_sweep ho _ b

/-- Sweeps find the reads that walks with fewer delayed edges lead to. -/
theorem mem_liveIn_rounds (ho : Enumerates order) {b c : Fin n} {passed : List (Fin n)} {k : Nat}
    (hw : e.graph.Walk b passed c) (huse : v ∈ e.uses.get c) (hdef : ∀ p ∈ passed, ¬ v ∈ e.defs.get p)
    (hk : delays order (passed ++ [c]) < k) : v ∈ (rounds order k a).facts.liveIn.get b := by
  induction hw generalizing k with
  | here c =>
    rw [liveIn_rounds ho (by omega)]
    exact mem_inOf.mpr (Or.inl huse)
  | @onward b s c passed he hw ih =>
    rw [List.cons_append, delays_cons hw] at hk
    have hin := fun j => @ih j huse fun p hp => hdef p (by simp [hp])
    have hout := mem_liveOut_rounds_of_edge ho he hin hk
    rw [liveIn_rounds ho (by omega)]
    exact mem_inOf.mpr (Or.inr ⟨hout, hdef b (by simp)⟩)

/-! ## When the facts are exact -/

/-- A walk that leaves `u` leads to a block that reads `v`, with at most `d` delayed edges, and no block
that it leaves after `u` defines `v`. -/
def ReadAfter (e : Equations n) (order : List (Fin n)) (v : ValueId) (u : Fin n) (d : Nat) : Prop :=
  ∃ s passed c, e.graph.Edge u s ∧ e.graph.Walk s passed c ∧ v ∈ e.uses.get c ∧
    (∀ p ∈ passed, ¬ v ∈ e.defs.get p) ∧ delays order (u :: (passed ++ [c])) ≤ d

theorem ReadAfter.mem_liveOut (ho : Enumerates order) {u : Fin n} {d : Nat} (h : ReadAfter e order v u d) :
    v ∈ (rounds order (d + 1) a).facts.liveOut.get u := by
  obtain ⟨s, passed, c, he, hw, huse, hdef, hd⟩ := h
  rw [delays_cons hw] at hd
  exact mem_liveOut_rounds_of_edge ho he (fun _ hj => mem_liveIn_rounds ho hw huse hdef hj) (by omega)

theorem exact_rounds (ho : Enumerates order) {d : Nat}
    (h : ∀ u s v, e.graph.Edge u s → e.ReadAhead v s → ReadAfter e order v u d) :
    e.Exact (rounds order (d + 1) (.bottom e)).facts := by
  have hsound := (@reached_rounds n e order (.bottom e) .bottom (d + 1)).sound
  have hout : ∀ (u : Fin n) v, v ∈ (rounds order (d + 1) (.bottom e)).facts.liveOut.get u ↔
      ∃ s, e.graph.Edge u s ∧ e.ReadAhead v s := by
    intro u v
    refine ⟨hsound.liveOut u v, fun ⟨s, he, hs⟩ => ?_⟩
    exact (h u s v he hs).mem_liveOut ho
  refine ⟨fun b v => ?_, hout⟩
  rw [liveIn_rounds ho (by omega), mem_inOf, hout]
  exact readAhead_iff.symm

theorem foldl_visit_of_settled : ∀ {xs : List (Fin n)} {s : Sweep e},
    (∀ b ∈ xs, e.Settled s.current.facts b) → (xs.foldl Sweep.visit s).changed = s.changed
  | [], _, _ => rfl
  | b :: xs, s, h => by
    have hb : (s.current.visit b).2 = false := Approximation.visit_unchanged_iff.mpr (h b (by simp))
    have hcur : (s.visit b).current = s.current := Approximation.visit_fst_of_unchanged hb
    rw [List.foldl_cons, foldl_visit_of_settled fun c hc => by rw [hcur]; exact h c (by simp [hc])]
    simp [Sweep.visit, hb]

/-- If `k` sweeps settle every block, there is at most one sweep more. -/
theorem length_sweeps_le {k : Nat} {a : Approximation e}
    (h : ∀ b, e.Settled (rounds order k a).facts b) : (sweeps order a).length ≤ k + 1 := by
  induction k generalizing a with
  | zero =>
    have hchanged : (sweep order a).changed = false := foldl_visit_of_settled fun b _ => h b
    rw [sweeps_of_unchanged (by simp [hchanged]), List.length_singleton]
  | succ k ih =>
    by_cases hc : (sweep order a).changed = true
    · simp only [rounds_succ] at h
      have hrest := ih h
      rw [sweeps_of_changed hc, List.length_cons]
      omega
    · rw [sweeps_of_unchanged hc, List.length_singleton]
      omega

theorem sweeps_solve_le (ho : Enumerates order) {d : Nat}
    (h : ∀ u s v, e.graph.Edge u s → e.ReadAhead v s → ReadAfter e order v u d) :
    (solve e order).stats.sweeps ≤ d + 2 :=
  length_sweeps_le (exact_rounds ho h).settled

end RoundRobin

end LiveVars
