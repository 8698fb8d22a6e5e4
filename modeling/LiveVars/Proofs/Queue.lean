/-
Solving with a queue finds the exact facts. What holds between two visits
(`Worklist.Consistent`): the queue names each waiting block once and the marks say which
those are, every block that is not waiting is settled, and visits alone led to the facts.

A visit can upset the equations of the predecessors of the block visited and of no other
block; on a self-loop the block is one of its own predecessors. Those are the blocks a
visit queues when it changes anything, so the invariant comes back after each visit, and
the empty queue says that every block is settled.
-/
import LiveVars.Liveness.Worklist
import LiveVars.Proofs.ReadAhead

namespace LiveVars

namespace Equations

variable {n : Nat} {e : Equations n} {facts : Facts n}

theorem outOf_congr {liveIn liveIn' : Vector ValueSet n} {b : Fin n}
    (h : ∀ s, e.graph.Edge b s → liveIn.get s = liveIn'.get s) : e.outOf liveIn b = e.outOf liveIn' b := by
  refine ValueSet.ext fun v => ?_
  rw [mem_outOf, mem_outOf]
  refine exists_congr fun s => and_congr_right fun he => ?_
  rw [h s he]

/-- A block without an edge to the block visited reads the same successors as before. -/
theorem outOf_revise {b c : Fin n} (h : ¬ e.graph.Edge c b) :
    e.outOf (e.revise facts b).liveIn c = e.outOf facts.liveIn c := by
  refine outOf_congr fun s he => ?_
  have hs : s ≠ b := fun hs => h (hs ▸ he)
  exact revise_liveIn_other _ _ hs

/-- A visit leaves a block settled if what the block reads stays as it was. -/
theorem settled_revise_of_outOf {b c : Fin n} (h : e.outOf (e.revise facts b).liveIn c = e.outOf facts.liveIn c)
    (hs : c ≠ b → e.Settled facts c) : e.Settled (e.revise facts b) c := by
  unfold Settled
  rw [h]
  by_cases hc : c = b
  · subst hc
    rw [revise_liveOut_self, revise_liveIn_self]
    exact ⟨rfl, rfl⟩
  · rw [revise_liveOut_other _ _ hc, revise_liveIn_other _ _ hc]
    exact hs hc

theorem settled_revise {b c : Fin n} (h : ¬ e.graph.Edge c b) (hs : c ≠ b → e.Settled facts c) :
    e.Settled (e.revise facts b) c := settled_revise_of_outOf (outOf_revise h) hs

end Equations

namespace Worklist

variable {n : Nat} {e : Equations n} {w : Worklist e}

/-! ## Queueing -/

/-- The queue names each waiting block once, and the marks are those of the waiting blocks. -/
structure Marked (w : Worklist e) : Prop where
  nodup : w.queue.Nodup
  queued_iff : ∀ b : Fin n, w.queued.get b = true ↔ b ∈ w.queue

theorem mem_enqueue (h : w.Marked) {b c : Fin n} : c ∈ (w.enqueue b).queue ↔ c ∈ w.queue ∨ c = b := by
  unfold enqueue
  split
  · rename_i hb
    have hmem : b ∈ w.queue := (h.queued_iff b).mp hb
    constructor
    · exact Or.inl
    · intro hc
      rcases hc with hc | rfl
      · exact hc
      · exact hmem
  · simp

theorem Marked.enqueue (h : w.Marked) (b : Fin n) : (w.enqueue b).Marked := by
  unfold Worklist.enqueue
  split
  · exact h
  · rename_i hb
    have hnot : ¬ b ∈ w.queue := fun hm => hb ((h.queued_iff b).mpr hm)
    constructor
    · refine List.nodup_append.mpr ⟨h.nodup, by simp, fun c hc d hd hcd => ?_⟩
      subst hcd
      exact hnot (List.mem_singleton.mp hd ▸ hc)
    · intro c
      rw [get_put_true, h.queued_iff, List.mem_append, List.mem_singleton, or_comm]

theorem Marked.enqueueAll : ∀ {bs : List (Fin n)} {w : Worklist e}, w.Marked → (w.enqueueAll bs).Marked
  | [], _, h => h
  | b :: bs, w, h => @Marked.enqueueAll bs (w.enqueue b) (h.enqueue b)

theorem mem_enqueueAll : ∀ {bs : List (Fin n)} {w : Worklist e}, w.Marked →
    ∀ {c : Fin n}, c ∈ (w.enqueueAll bs).queue ↔ c ∈ w.queue ∨ c ∈ bs
  | [], w, _, c => by simp [Worklist.enqueueAll]
  | b :: bs, w, h, c => by
    have ih := @mem_enqueueAll bs (w.enqueue b) (h.enqueue b) c
    rw [mem_enqueue h] at ih
    rw [List.mem_cons, ← or_assoc]
    exact ih

/-! ## What holds between two visits -/

/-- The bookkeeping is right, blocks that do not wait are settled, and visits alone led to the facts. -/
structure Consistent (w : Worklist e) : Prop extends w.Marked where
  settled : ∀ b, ¬ b ∈ w.queue → e.Settled w.current.facts b
  reached : w.current.Reached

theorem Marked.blank (e : Equations n) :
    Marked (⟨.bottom e, [], Vector.replicate n false, 0⟩ : Worklist e) :=
  ⟨List.nodup_nil, fun b => by simp⟩

theorem mem_start {order : List (Fin n)} {b : Fin n} : b ∈ (start e order).queue ↔ b ∈ order := by
  rw [start, mem_enqueueAll (.blank e)]
  simp

theorem Consistent.start {order : List (Fin n)} (h : ∀ b, b ∈ order) : (start e order).Consistent where
  toMarked := (Marked.blank e).enqueueAll
  settled b hb := absurd (mem_start.mpr (h b)) hb
  reached := by
    rw [Worklist.start, enqueueAll_current]
    exact .bottom

/-- Taking the front block out leaves the bookkeeping right. -/
theorem Marked.pop (h : w.Marked) {b : Fin n} {rest : List (Fin n)} (hq : w.queue = b :: rest)
    (a : Approximation e) (k : Nat) : Marked (⟨a, rest, put w.queued b false, k⟩ : Worklist e) := by
  obtain ⟨hnd, hqueued⟩ := h
  rw [hq, List.nodup_cons] at hnd
  refine ⟨hnd.2, fun c => ?_⟩
  by_cases hcb : c = b
  · subst hcb
    simp [hnd.1]
  · have hc := hqueued c
    rw [hq, List.mem_cons] at hc
    simpa only [get_put_other _ _ hcb, hcb, false_or] using hc

theorem Consistent.step (h : w.Consistent) : w.step.Consistent := by
  match hq : w.queue with
  | [] =>
    rw [step_of_empty hq]
    exact h
  | b :: rest =>
    have hpop := fun a => h.toMarked.pop hq a (w.visits + 1)
    -- The blocks other than `b` that do not wait after the pop did not wait before it either.
    have hother : ∀ c, ¬ c ∈ rest → c ≠ b → e.Settled w.current.facts c := fun c hr hcb =>
      h.settled c (by simp [hq, hr, hcb])
    cases hv : (w.current.visit b).2 with
    | false =>
      rw [step_of_unchanged hq hv]
      refine ⟨hpop _, fun c hc => ?_, h.reached⟩
      by_cases hcb : c = b
      · subst hcb
        exact Approximation.visit_unchanged_iff.mp hv
      · exact hother c hc hcb
    | true =>
      rw [step_of_changed hq hv]
      refine ⟨(hpop _).enqueueAll, fun c hc => ?_, ?_⟩
      · rw [mem_enqueueAll (hpop _), not_or, Graph.mem_preds] at hc
        rw [enqueueAll_current, Approximation.visit_facts]
        exact Equations.settled_revise hc.2 (hother c hc.1)
      · rw [enqueueAll_current]
        exact h.reached.visit b

/-! ## The run -/

theorem drain_of_empty (hq : w.queue = []) : w.drain = w := by
  rw [drain, if_pos hq]

theorem drain_step (w : Worklist e) : w.step.drain = w.drain := by
  by_cases hq : w.queue = []
  · rw [step_of_empty hq]
  · rw [drain.eq_def w, if_neg hq]

theorem queue_drain (w : Worklist e) : w.drain.queue = [] := by
  induction w using drain.induct with
  | case1 w hq =>
    rw [drain_of_empty hq]
    exact hq
  | case2 w hq ih =>
    rw [← drain_step]
    exact ih

theorem Consistent.drain (h : w.Consistent) : w.drain.Consistent := by
  induction w using drain.induct with
  | case1 w hq =>
    rw [drain_of_empty hq]
    exact h
  | case2 w hq ih =>
    rw [← drain_step]
    exact ih h.step

/-- The queue runs empty at the exact facts, seeded from any order that misses no block. -/
theorem exact_solve {order : List (Fin n)} (h : ∀ b, b ∈ order) : e.Exact (solve e order).facts := by
  have hend := (Consistent.start (e := e) h).drain
  refine hend.reached.sound.exact fun b => hend.settled b ?_
  rw [queue_drain]
  simp

end Worklist

end LiveVars
