/-
How many blocks the queue has a run visit. Every visit takes a block out of the queue, so
the visits are the blocks that were queued: all of them once at the start, and then the
predecessors of a block whenever a visit changes it.

How often can that be? After its first visit the equation for in(b) holds at a block, so a
later visit that changes it adds to out(b), and out(b) stays within its final set. Each
block is given that many changes as credit, and what all blocks could still put into the
queue is the run's debt. A step pays from the debt for what it queues (`step_balance`), so
visits, queue and debt together do not go up, and the queue ends empty.
-/
import LiveVars.Proofs.LiveSets
import Mathlib.Algebra.BigOperators.Fin
import Mathlib.Algebra.Order.BigOperators.Group.Finset

namespace LiveVars

/-- A set of values below `k` has at most `k` members. -/
theorem ValueSet.size_le_of_index_lt {s : ValueSet} {k : Nat} (h : ∀ v ∈ s, v.index < k) : s.size ≤ k := by
  have hnodup : (s.ids.map ValueId.index).Nodup := by
    refine List.pairwise_map.mpr (s.ascending.imp fun hlt => ?_)
    rw [ValueId.lt_def] at hlt
    omega
  have hsub : s.ids.map ValueId.index ⊆ List.range k := by
    intro i hi
    obtain ⟨v, hv, rfl⟩ := List.mem_map.mp hi
    exact List.mem_range.mpr (h v hv)
  have hlen := (hnodup.subperm hsub).length_le
  rwa [List.length_map, List.length_range] at hlen

namespace Worklist

open Equations

variable {n : Nat} {e : Equations n} {goal : Facts n} {w : Worklist e}

/-! ## Credit -/

/-- How often a visit of `b` can still change something on the way to `goal`: once if in(b) is behind its
equation, and once for each member that out(b) lacks. -/
def credit (e : Equations n) (goal facts : Facts n) (b : Fin n) : Nat :=
  (if facts.liveIn.get b = e.inOf b (facts.liveOut.get b) then 0 else 1) +
    ((goal.liveOut.get b).size - (facts.liveOut.get b).size)

/-- How many blocks visits can still put into the queue. -/
def debt (e : Equations n) (goal facts : Facts n) : Nat :=
  ∑ b, (e.graph.preds.get b).length * credit e goal facts b

theorem credit_revise_other (facts : Facts n) {b c : Fin n} (h : c ≠ b) :
    credit e goal (e.revise facts b) c = credit e goal facts c := by
  simp only [credit, revise_liveIn_other _ _ h, revise_liveOut_other _ _ h]

theorem credit_revise_self (facts : Facts n) (b : Fin n) : credit e goal (e.revise facts b) b =
    (goal.liveOut.get b).size - (e.outOf facts.liveIn b).size := by
  simp only [credit, revise_liveIn_self, revise_liveOut_self, if_true, Nat.zero_add]

/-- A visit that changes a block spends credit of its own. -/
theorem credit_visit_lt (hgoal : e.Exact goal) {a : Approximation e} (ha : a.Reached) {b : Fin n}
    (hv : (a.visit b).2 = true) : credit e goal (e.revise a.facts b) b < credit e goal a.facts b := by
  have hgrow : a.facts.liveOut.get b ⊆ e.outOf a.facts.liveIn b := a.climbing.liveOut_sub b
  have hwithin : e.outOf a.facts.liveIn b ⊆ goal.liveOut.get b := fun v hv =>
    (hgoal.liveOut b v).mpr (ha.sound.outOf hv)
  have hle := ValueSet.size_le_of_subset hwithin
  rw [credit_revise_self]
  by_cases hsame : e.outOf a.facts.liveIn b = a.facts.liveOut.get b
  · -- out(b) is as it was, so in(b) was behind its equation.
    have hbehind : a.facts.liveIn.get b ≠ e.inOf b (a.facts.liveOut.get b) := fun hin => by
      have hunchanged := Approximation.visit_unchanged_iff.mpr ⟨hsame.symm, hin⟩
      rw [hv] at hunchanged
      cases hunchanged
    rw [credit, if_neg hbehind, hsame]
    omega
  · have hlt := ValueSet.size_lt_of_subset hgrow fun h => hsame h.symm
    rw [credit]
    omega

theorem debt_visit (hgoal : e.Exact goal) {a : Approximation e} (ha : a.Reached) {b : Fin n}
    (hv : (a.visit b).2 = true) :
    debt e goal (a.visit b).1.facts + (e.graph.preds.get b).length ≤ debt e goal a.facts := by
  have hlt := credit_visit_lt hgoal ha hv
  rw [Approximation.visit_facts]
  have hothers : ∀ c ∈ Finset.univ.erase b, (e.graph.preds.get c).length * credit e goal (e.revise a.facts b) c =
      (e.graph.preds.get c).length * credit e goal a.facts c := fun c hc => by
    rw [credit_revise_other _ (Finset.ne_of_mem_erase hc)]
  have hpaid := Nat.mul_le_mul_left (e.graph.preds.get b).length hlt
  rw [Nat.mul_succ] at hpaid
  rw [debt, debt, ← Finset.add_sum_erase _ _ (Finset.mem_univ b), Finset.sum_congr rfl hothers,
    ← Finset.add_sum_erase Finset.univ (fun c => _ * credit e goal a.facts c) (Finset.mem_univ b)]
  omega

theorem debt_bottom_le (e : Equations n) (goal : Facts n) : debt e goal (.bottom n) ≤
    ∑ b, (e.graph.preds.get b).length * (1 + (goal.liveOut.get b).size) := by
  refine Finset.sum_le_sum fun b _ => Nat.mul_le_mul_left _ ?_
  unfold credit
  split <;> omega

/-! ## The queue -/

theorem visits_enqueue (w : Worklist e) (b : Fin n) : (w.enqueue b).visits = w.visits := by
  unfold enqueue
  split <;> rfl

theorem visits_enqueueAll : ∀ (bs : List (Fin n)) (w : Worklist e), (w.enqueueAll bs).visits = w.visits
  | [], _ => rfl
  | b :: bs, w => (visits_enqueueAll bs (w.enqueue b)).trans (visits_enqueue w b)

theorem length_enqueue (w : Worklist e) (b : Fin n) :
    w.queue.length ≤ (w.enqueue b).queue.length ∧ (w.enqueue b).queue.length ≤ w.queue.length + 1 := by
  unfold enqueue
  split <;> simp

theorem length_enqueueAll : ∀ (bs : List (Fin n)) (w : Worklist e),
    w.queue.length ≤ (w.enqueueAll bs).queue.length ∧
      (w.enqueueAll bs).queue.length ≤ w.queue.length + bs.length
  | [], _ => ⟨Nat.le_refl _, Nat.le_refl _⟩
  | b :: bs, w => by
    have hone := length_enqueue w b
    have hrest := length_enqueueAll bs (w.enqueue b)
    change _ ≤ ((w.enqueue b).enqueueAll bs).queue.length ∧ ((w.enqueue b).enqueueAll bs).queue.length ≤ _
    rw [List.length_cons]
    omega

/-! ## One step, and the run -/

theorem facts_step {b : Fin n} {rest : List (Fin n)} (hq : w.queue = b :: rest) :
    w.step.current.facts = e.revise w.current.facts b := by
  cases hv : (w.current.visit b).2 with
  | false => rw [step_of_unchanged hq hv, ← Approximation.visit_facts, Approximation.visit_fst_of_unchanged hv]
  | true => rw [step_of_changed hq hv, enqueueAll_current, Approximation.visit_facts]

theorem visits_step (hne : w.queue ≠ []) : w.step.visits = w.visits + 1 := by
  match hq : w.queue with
  | [] => exact absurd hq hne
  | b :: rest =>
    cases hv : (w.current.visit b).2 with
    | false => rw [step_of_unchanged hq hv]
    | true => rw [step_of_changed hq hv, visits_enqueueAll]

/-- A step takes one block out of the queue, and pays from the debt for those it puts in. -/
theorem step_balance (hgoal : e.Exact goal) (h : w.Consistent) (hne : w.queue ≠ []) :
    w.queue.length ≤ w.step.queue.length + 1 ∧
      w.step.queue.length + 1 + debt e goal w.step.current.facts ≤
        w.queue.length + debt e goal w.current.facts := by
  match hq : w.queue with
  | [] => exact absurd hq hne
  | b :: rest =>
    cases hv : (w.current.visit b).2 with
    | false =>
      rw [step_of_unchanged hq hv]
      simp
    | true =>
      have hdebt := debt_visit hgoal h.reached hv
      have hlen := length_enqueueAll (e.graph.preds.get b)
        (⟨(w.current.visit b).1, rest, put w.queued b false, w.visits + 1⟩ : Worklist e)
      rw [step_of_changed hq hv, enqueueAll_current]
      simp only [List.length_cons] at hlen ⊢
      omega

theorem drain_balance (hgoal : e.Exact goal) (h : w.Consistent) :
    w.visits + w.queue.length ≤ w.drain.visits ∧
      w.drain.visits ≤ w.visits + w.queue.length + debt e goal w.current.facts := by
  induction w using drain.induct with
  | case1 w hq =>
    rw [drain_of_empty hq, hq, List.length_nil]
    omega
  | case2 w hq ih =>
    have hvisits := visits_step hq
    have hstep := step_balance hgoal h hq
    have hrest := ih h.step
    rw [drain_step] at hrest
    omega

theorem visits_le_drain (w : Worklist e) : w.visits ≤ w.drain.visits := by
  induction w using drain.induct with
  | case1 w hq => rw [drain_of_empty hq]
  | case2 w hq ih =>
    rw [drain_step, visits_step hq] at ih
    omega

/-- A run makes a visit unless it finds the queue empty. -/
theorem queue_eq_nil_iff : w.queue = [] ↔ w.drain.visits ≤ w.visits := by
  constructor
  · intro hq
    rw [drain_of_empty hq]
  · intro hle
    by_contra hq
    have hrest := visits_le_drain w.step
    rw [drain_step, visits_step hq] at hrest
    omega

/-- The queue is found empty after all visits of the run, and not before. -/
theorem queue_iterate_eq_nil_iff {k : Nat} : (step^[k] w).queue = [] ↔ w.drain.visits ≤ w.visits + k := by
  induction k generalizing w with
  | zero => exact queue_eq_nil_iff
  | succ k ih =>
    rw [Function.iterate_succ_apply, ih, drain_step]
    by_cases hq : w.queue = []
    · rw [step_of_empty hq, drain_of_empty hq]
      omega
    · rw [visits_step hq]
      omega

theorem visits_start (e : Equations n) (order : List (Fin n)) : (start e order).visits = 0 :=
  visits_enqueueAll ..

theorem queue_iterate_start_eq_nil_iff {order : List (Fin n)} {k : Nat} :
    (step^[k] (start e order)).queue = [] ↔ (solve e order).stats.visits ≤ k := by
  rw [queue_iterate_eq_nil_iff, visits_start, Nat.zero_add]
  rfl

theorem queue_iterate_start (e : Equations n) (order : List (Fin n)) :
    (step^[(solve e order).stats.visits] (start e order)).queue = [] :=
  queue_iterate_start_eq_nil_iff.mpr (Nat.le_refl _)

theorem visits_solve {order : List (Fin n)} (h : ∀ b, b ∈ order) :
    n ≤ (solve e order).stats.visits ∧ (solve e order).stats.visits ≤
      n + ∑ b, (e.graph.preds.get b).length * (1 + ((solve e order).facts.liveOut.get b).size) := by
  have hstart : (start e order).Consistent := .start h
  have hlen : (start e order).queue.length = n :=
    Graph.length_of_nodup hstart.nodup fun b => mem_start.mpr (h b)
  have hbottom : (start e order).current.facts = .bottom n := by
    rw [start, enqueueAll_current]
    rfl
  have hdrain := drain_balance (exact_solve h) hstart
  have hdebt := debt_bottom_le e (solve e order).facts
  rw [visits_start, hlen, hbottom, Nat.zero_add] at hdrain
  change n ≤ (start e order).drain.visits ∧ (start e order).drain.visits ≤ _
  omega

end Worklist

namespace Function

theorem size_liveOut_le (f : Function) (c : Settings) (b : Fin f.blockCount) :
    ((f.liveness c).liveOut.get b).size ≤ f.valueCount := by
  refine ValueSet.size_le_of_index_lt fun v hv => ?_
  obtain ⟨s, _, hs⟩ := mem_liveOut_iff.mp hv
  exact hs.index_lt

/-- **Visits by the queue.** A run by the queue makes no sweeps. Its queue is empty after as many steps as
it counts visits; these are at least the blocks, and beyond that at most, for each block, its predecessors
times one more than the values live after it, which are at most all values. -/
theorem visits_le_liveOut (f : Function) (o : VisitOrder) (policy : TerminatorReads) :
    let l := f.liveness ⟨.worklist, o, policy⟩
    (Worklist.step^[l.stats.visits] (.start (f.equations policy) (f.graph.visits o))).queue = [] ∧
      l.stats.sweeps = 0 ∧ f.blockCount ≤ l.stats.visits ∧
      l.stats.visits ≤ f.blockCount +
        ∑ b, (f.graph.preds.get b).length * (1 + (l.liveOut.get b).size) ∧
      ∀ b : Fin f.blockCount, (l.liveOut.get b).size ≤ f.valueCount := by
  intro l
  have hvisits := Worklist.visits_solve (e := f.equations policy) (f.graph.mem_visits o)
  refine ⟨Worklist.queue_iterate_start _ _, rfl, hvisits.1, hvisits.2, ?_⟩
  exact f.size_liveOut_le ⟨.worklist, o, policy⟩

end Function

end LiveVars
