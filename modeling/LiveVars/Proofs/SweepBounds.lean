/-
How many sweeps a run takes. A value that is live after a block is read along some walk
from there, and a run that has brought every such value home takes one sweep more to see
that nothing changes; so the sweeps are counted by the delayed edges that the walks cannot
avoid (`RoundRobin.sweeps_solve_le`).

Behind its first edge a walk can be taken to be a path, so two more than the most delayed
edges on a path are enough to count with, or one more where there are no cycles and the
first edge prolongs the path (`sweeps_le_delays`). A path has fewer edges than there are
blocks. The walk with its first edge may be a round through all of them, but then one of
its edges leads back in the order and is not delayed; only a round of a single edge has no
such edge. This gives the bound by the number of blocks (`sweeps_le_blockCount`).
-/
import LiveVars.Proofs.Delays
import LiveVars.Proofs.LiveSets
import LiveVars.Proofs.Repair
import Mathlib.Data.Nat.SuccPred
import Mathlib.Order.SuccPred.Archimedean

namespace LiveVars

namespace RoundRobin

variable {n : Nat} {e : Equations n} {order : List (Fin n)} {v : ValueId}

/-! ## Delayed edges along a walk -/

theorem delay_le (order : List (Fin n)) (u s : Fin n) : delay order u s ≤ 1 := by
  unfold delay
  split <;> omega

theorem delays_cons_le (order : List (Fin n)) :
    ∀ (u : Fin n) (rest : List (Fin n)), delays order (u :: rest) ≤ rest.length
  | u, [] => by simp [delays]
  | u, s :: rest => by
    have := delays_cons_le order s rest
    have := delay_le order u s
    simp only [delays, List.length_cons]
    omega

theorem idxOf_le_of_delay {u s : Fin n} (h : 0 < delay order u s) : order.idxOf u ≤ order.idxOf s := by
  unfold delay at h
  split at h
  · rename_i hd
    exact Nat.le_of_not_lt hd
  · omega

/-- Along delayed edges alone the order is never left behind. -/
theorem idxOf_le_of_delays {c : Fin n} : ∀ {u : Fin n} {passed : List (Fin n)},
    passed.length < delays order (u :: (passed ++ [c])) → order.idxOf u ≤ order.idxOf c
  | u, [], h => by
    simp only [List.nil_append, delays] at h
    exact idxOf_le_of_delay (by simpa using h)
  | u, s :: passed, h => by
    have hrest := delays_cons_le order s (passed ++ [c])
    have hu := delay_le order u s
    simp only [List.cons_append, delays, List.length_cons, List.length_append, List.length_nil] at h hrest
    have hus : order.idxOf u ≤ order.idxOf s := idxOf_le_of_delay (by omega)
    have hall : passed.length < delays order (s :: (passed ++ [c])) := by omega
    exact Nat.le_trans hus (idxOf_le_of_delays hall)

/-- On a round through other blocks some edge is not delayed. -/
theorem delays_round_le {u s : Fin n} {passed : List (Fin n)} (hs : s ∈ order) (hu : ¬ u ∈ s :: passed) :
    delays order (u :: s :: (passed ++ [u])) ≤ passed.length + 1 := by
  refine Nat.le_of_not_lt fun h => ?_
  have hrest := delays_cons_le order s (passed ++ [u])
  have hdelay := delay_le order u s
  simp only [delays, List.length_append, List.length_cons, List.length_nil] at h hrest
  have hus : order.idxOf u ≤ order.idxOf s := idxOf_le_of_delay (by omega)
  have hall : passed.length < delays order (s :: (passed ++ [u])) := by omega
  have heq : s = u := (List.idxOf_inj hs).mp (Nat.le_antisymm (idxOf_le_of_delays hall) hus)
  exact hu (by simp [heq])

/-! ## By the number of blocks -/

theorem readAfter_of_length {u s c : Fin n} {passed : List (Fin n)} {d : Nat} (he : e.graph.Edge u s)
    (hw : e.graph.Walk s passed c) (huse : v ∈ e.uses.get c) (hdef : ∀ p ∈ passed, ¬ v ∈ e.defs.get p)
    (hd : passed.length < d) : ReadAfter e order v u d := by
  have := delays_cons_le order u (passed ++ [c])
  rw [List.length_append, List.length_singleton] at this
  exact ⟨s, passed, c, he, hw, huse, hdef, by omega⟩

/-- What is read after a block is read with fewer delayed edges than there are blocks, or with one. -/
theorem readAfter_of_edge (ho : Enumerates order) {u s : Fin n} (he : e.graph.Edge u s)
    (hs : e.ReadAhead v s) : ReadAfter e order v u (max n 2 - 1) := by
  obtain ⟨_, c, hw, huse, hdef⟩ := hs
  obtain ⟨path, hpath, hsub⟩ := hw.exists_path
  have hdef : ∀ p ∈ path, ¬ v ∈ e.defs.get p := fun p hp => hdef p (hsub p hp)
  have hlen := hpath.length_lt
  by_cases hu : u ∈ path
  · -- The path comes back to `u` and leaves it again: it is enough to start there.
    obtain ⟨before, rest, rfl, _, hrest⟩ := hpath.walk.exists_split (List.mem_append_left _ hu)
    cases hrest with
    | here _ => exact absurd hu hpath.not_mem_passed
    | onward he' hw' =>
      refine readAfter_of_length he' hw' huse (fun p hp => hdef p (by simp [hp])) ?_
      simp only [List.length_append, List.length_cons] at hlen
      omega
  · by_cases huc : u = c
    · -- The walk with its first edge is a round.
      subst huc
      cases hpath.walk with
      | here _ => exact readAfter_of_length he (.here u) huse (by simp) (by rw [List.length_nil]; omega)
      | @onward _ _ _ passed he' hw' =>
        refine ⟨s, s :: passed, u, he, hpath.walk, huse, hdef, ?_⟩
        have := delays_round_le (ho.mem s) hu
        simp only [List.length_cons, List.cons_append] at hlen this ⊢
        omega
    · -- The walk with its first edge is a path.
      have hlong : e.graph.Path u (u :: path) c :=
        ⟨.onward he hpath.walk, List.nodup_cons.mpr ⟨by simp [hu, huc], hpath.nodup⟩⟩
      have := hlong.length_lt
      simp only [List.length_cons] at this
      exact readAfter_of_length he hpath.walk huse hdef (by omega)

theorem sweeps_solve_le_size (ho : Enumerates order) : (solve e order).stats.sweeps ≤ max n 2 + 1 := by
  have := sweeps_solve_le ho fun u s v he hs => readAfter_of_edge (e := e) (v := v) ho he hs
  omega

/-! ## By the delayed edges of paths -/

/-- The numbers of delayed edges that paths have. -/
def pathDelays (g : Graph n) (order : List (Fin n)) : Set Nat :=
  {d | ∃ b passed c, g.Path b passed c ∧ delays order (passed ++ [c]) = d}

theorem exists_isGreatest_pathDelays (g : Graph n) (order : List (Fin n)) :
    ∃ most, IsGreatest (pathDelays g order) most := by
  refine BddAbove.exists_isGreatest_of_nonempty ⟨n, ?_⟩ ⟨0, g.entry, [], g.entry, ⟨.here _, by simp⟩, rfl⟩
  rintro d ⟨b, passed, c, hpath, rfl⟩
  have hlen := hpath.length_lt
  cases passed with
  | nil => simp [delays]
  | cons b passed =>
    have := delays_cons_le order b (passed ++ [c])
    simp only [List.cons_append, List.length_append, List.length_cons, List.length_nil] at hlen this ⊢
    omega

variable {most : Nat}

theorem sweeps_solve_le_delays (ho : Enumerates order) (hmost : IsGreatest (pathDelays e.graph order) most) :
    (solve e order).stats.sweeps ≤ most + 3 := by
  refine sweeps_solve_le ho fun u s v he ⟨_, c, hw, huse, hdef⟩ => ?_
  obtain ⟨path, hpath, hsub⟩ := hw.exists_path
  have hle : delays order (path ++ [c]) ≤ most := hmost.2 ⟨s, path, c, hpath, rfl⟩
  refine ⟨s, path, c, he, hpath.walk, huse, fun p hp => hdef p (hsub p hp), ?_⟩
  rw [delays_cons hpath.walk]
  have := delay_le order u s
  omega

/-- Where there are no cycles, an edge into a path prolongs it. -/
theorem sweeps_solve_le_delays_of_acyclic (ho : Enumerates order) (hg : e.graph.Acyclic)
    (hmost : IsGreatest (pathDelays e.graph order) most) : (solve e order).stats.sweeps ≤ most + 2 := by
  refine sweeps_solve_le ho fun u s v he ⟨_, c, hw, huse, hdef⟩ => ?_
  obtain ⟨path, hpath, hsub⟩ := hw.exists_path
  have hu : ¬ u ∈ path ++ [c] := fun hu => by
    obtain ⟨before, _, _, hbefore, _⟩ := hpath.walk.exists_split hu
    simpa using hg u (u :: before) (.onward he hbefore)
  have hle : delays order (u :: (path ++ [c])) ≤ most :=
    hmost.2 ⟨u, u :: path, c, ⟨.onward he hpath.walk, List.nodup_cons.mpr ⟨hu, hpath.nodup⟩⟩, rfl⟩
  exact ⟨s, path, c, he, hpath.walk, huse, fun p hp => hdef p (hsub p hp), hle⟩

/-! ## Visits, and runs with nothing to find -/

theorem visits_foldl : ∀ (xs : List (Fin n)) (s : Sweep e),
    (xs.foldl Sweep.visit s).visits = s.visits + UInt64.ofNat xs.length
  | [], s => (UInt64.add_zero _).symm
  | b :: xs, s => by
    have hvisit : (s.visit b).visits = s.visits + 1 := rfl
    rw [List.foldl_cons, visits_foldl xs, hvisit, List.length_cons, UInt64.ofNat_add, UInt64.add_assoc,
      UInt64.add_comm 1]
    rfl

theorem visits_sweep (order : List (Fin n)) (a : Approximation e) :
    (sweep order a).visits = UInt64.ofNat order.length :=
  (visits_foldl order (.start a)).trans (UInt64.zero_add _)

theorem foldl_visits_sweeps (order : List (Fin n)) (a : Approximation e) (count : UInt64) :
    (sweeps order a).foldl (fun count s => count + s.visits) count =
      count + UInt64.ofNat ((sweeps order a).length * order.length) := by
  induction a using sweeps.induct order generalizing count with
  | case1 a s hc ih =>
    rw [sweeps_of_changed hc, List.foldl_cons, ih, visits_sweep, List.length_cons, Nat.succ_mul, Nat.add_comm,
      UInt64.ofNat_add, UInt64.add_assoc]
  | case2 a s hc =>
    rw [sweeps_of_unchanged hc, List.foldl_cons, List.foldl_nil, visits_sweep, List.length_singleton, Nat.one_mul]

/-- Each sweep visits every block of the order, and the count of all visits is kept in 64 bits. -/
theorem visits_solve_eq (e : Equations n) (order : List (Fin n)) :
    (solve e order).stats.visits = (solve e order).stats.sweeps * order.length % UInt64.size := by
  show (visits (sweeps order (.bottom e))).toNat = _
  rw [visits, foldl_visits_sweeps, UInt64.zero_add, UInt64.toNat_ofNat']
  rfl

theorem sweeps_solve_le_one (h : ∀ v b, ¬ e.ReadAhead v b) : (solve e order).stats.sweeps ≤ 1 := by
  have hexact : e.Exact (.bottom n) :=
    ⟨fun b v => by simp [Facts.bottom, h], fun b v => by simp [Facts.bottom, h]⟩
  exact length_sweeps_le (k := 0) hexact.settled

end RoundRobin

/-! ## The sweeps of a function -/

namespace Function

open RoundRobin

variable {f : Function}

/-- **Sweeps and delayed edges.** Call an edge from `u` to `s` delayed when `s` does not come before `u` in
the visiting order, and let `most` be the largest number of delayed edges on a path. A run by sweeps in that
order takes at most `most + 3` sweeps, and at most `most + 2` if no block gets back to itself. -/
theorem sweeps_le_delays (f : Function) (o : VisitOrder) (policy : TerminatorReads) :
    ∃ most, IsGreatest (pathDelays f.graph (f.graph.visits o)) most ∧
      (f.liveness ⟨.roundRobin, o, policy⟩).stats.sweeps ≤ most + 3 ∧
      (f.graph.Acyclic → (f.liveness ⟨.roundRobin, o, policy⟩).stats.sweeps ≤ most + 2) := by
  have ho := enumerates_visits f.graph o
  obtain ⟨most, hmost⟩ := exists_isGreatest_pathDelays f.graph (f.graph.visits o)
  refine ⟨most, hmost, ?_, fun hg => ?_⟩
  · exact sweeps_solve_le_delays (e := f.equations policy) ho hmost
  · exact sweeps_solve_le_delays_of_acyclic (e := f.equations policy) ho hg hmost

theorem sweeps_le_delays_pair : ∃ f, (Draft.ofEdits "pair" pairEdits).build = .ok f ∧ f.graph.Acyclic ∧
    ∃ most, IsGreatest (pathDelays f.graph (f.graph.visits .layout)) most ∧
      (f.liveness ⟨.roundRobin, .layout, .ignored⟩).stats.sweeps ≤ most + 2 := by
  refine ⟨_, rfl, .of_edge_lt (by decide), ?_⟩
  obtain ⟨most, hmost, _, hle⟩ := sweeps_le_delays _ .layout .ignored
  exact ⟨most, hmost, hle (.of_edge_lt (by decide))⟩

end Function

end LiveVars
