/-
What holds whenever the queue is asked for the next block. A run by the queue is the start
state and the states that `step` leads to, as long as there is a block to take; it takes as
many steps as it counts visits (`queue_iterate_start_eq_nil_iff`).

A step keeps `Consistent`, so it holds of all these states: the marks and the queue say the
same, and whatever does not wait is settled. A step only adds to the facts, and wherever the
run is taken up it ends in the same place (`drain_iterate`), so the facts lie in the final
ones all along.
-/
import LiveVars.Proofs.Recording
import LiveVars.Proofs.VisitBounds

namespace LiveVars

namespace Worklist

variable {n : Nat} {e : Equations n} {w : Worklist e}

/-! ## What a step keeps -/

theorem subset_step (w : Worklist e) : w.current.facts ⊆ w.step.current.facts := by
  match hq : w.queue with
  | [] =>
    rw [step_of_empty hq]
    exact Facts.subset_refl _
  | b :: rest =>
    rw [facts_step hq, ← Approximation.visit_facts]
    exact w.current.subset_visit b

/-! ## What a run keeps -/

theorem Consistent.iterate : ∀ (k : Nat) {w : Worklist e}, w.Consistent → (Worklist.step^[k] w).Consistent
  | 0, _, h => h
  | k + 1, _, h => Consistent.iterate k h.step

/-- Wherever a run is taken up, it ends in the same place. -/
theorem drain_iterate : ∀ (k : Nat) (w : Worklist e), (step^[k] w).drain = w.drain
  | 0, _ => rfl
  | k + 1, w => (drain_iterate k w.step).trans w.drain_step

theorem subset_drain (w : Worklist e) : w.current.facts ⊆ w.drain.current.facts := by
  induction w using drain.induct with
  | case1 w hq =>
    rw [drain_of_empty hq]
    exact Facts.subset_refl _
  | case2 w hq ih =>
    rw [drain_step] at ih
    exact Facts.subset_trans w.subset_step ih

theorem subset_solve (order : List (Fin n)) (k : Nat) :
    (step^[k] (start e order)).current.facts ⊆ (solve e order).facts := by
  have hdrain := subset_drain (step^[k] (start e order))
  rw [drain_iterate] at hdrain
  exact hdrain

/-- After all its visits the run stands where it ends. -/
theorem facts_iterate_start (e : Equations n) (order : List (Fin n)) :
    (step^[(solve e order).stats.visits] (start e order)).current.facts = (solve e order).facts := by
  have hend := drain_of_empty (queue_iterate_start e order)
  rw [drain_iterate] at hend
  rw [← hend]
  rfl

end Worklist

namespace Function

theorem settled_iff {f : Function} {policy : TerminatorReads} {facts : Facts f.blockCount}
    {b : Fin f.blockCount} : (f.equations policy).Settled facts b ↔
      facts.liveOut.get b = unionAt facts.liveIn (f.succsOf b) ∧
      facts.liveIn.get b = (f.block b).uses policy ∪ (facts.liveOut.get b \ (f.block b).defs) := by
  have hsuccs : (f.equations policy).graph.succs.get b = f.succsOf b := f.get_succs_graph b
  rw [Equations.Settled, Equations.outOf, Equations.inOf, liveBefore, hsuccs, equations_uses, equations_defs]

/-- **Between two visits.** Take a run by the queue, seeded from any order that misses no block, at the start of
any turn of its loop; the turns are the visits it counts, and the last leaves the final facts. The queue names
no block twice, and it names those that are marked. At every block that it does not name, the set after the
block is the union of the sets before its successors, and the set before it is what the block reads together
with what is live after it and not defined in it. And every set lies in the final one. -/
theorem between_visits (f : Function) (policy : TerminatorReads) (order : List (Fin f.blockCount))
    (h : ∀ b, b ∈ order) :
    let e := f.equations policy
    let final := Worklist.solve e order
    (∀ k, (Worklist.step^[k] (.start e order)).queue ≠ [] ↔ k < final.stats.visits) ∧
      (Worklist.step^[final.stats.visits] (.start e order)).current.facts = final.facts ∧
      ∀ k,
        let w := Worklist.step^[k] (.start e order)
        let facts := w.current.facts
        w.queue.Nodup ∧ (∀ b, b ∈ w.queue ↔ w.queued.get b = true) ∧
          (∀ b, ¬ b ∈ w.queue → facts.liveOut.get b = unionAt facts.liveIn (f.succsOf b) ∧
            facts.liveIn.get b = (f.block b).uses policy ∪ (facts.liveOut.get b \ (f.block b).defs)) ∧
          facts ⊆ final.facts := by
  intro e final
  have hturns : ∀ k, (Worklist.step^[k] (.start e order)).queue ≠ [] ↔ k < final.stats.visits := fun k => by
    rw [ne_eq, Worklist.queue_iterate_start_eq_nil_iff, Nat.not_le]
  refine ⟨hturns, Worklist.facts_iterate_start e order, fun k => ?_⟩
  intro w facts
  have hw : w.Consistent := .iterate k (.start h)
  refine ⟨hw.nodup, fun b => (hw.queued_iff b).symm, fun b hb => ?_, Worklist.subset_solve order k⟩
  exact settled_iff.mp (hw.settled b hb)

/-- A block that calls on a value and may go back to itself, and a block to leave by. -/
def spinEdits : List Edit :=
  [.declare "x", .addBlock "spin", .addBlock "leave", .effect (.ofIndex 0) .call [.value (.ofIndex 0)],
    .finish (.ofIndex 0) (.condBr (.const .undef) (.ofIndex 0) (.ofIndex 1)), .finish (.ofIndex 1) (.ret [])]

def spin : Function :=
  ⟨(Draft.ofEdits "spin" spinEdits).listing, Listing.valid_of_fault? (by decide)⟩

theorem build_spin : (Draft.ofEdits "spin" spinEdits).build = .ok spin := rfl

/-- A block that may go back to itself has been visited twice and waits once more; the other block does not
wait. -/
theorem between_visits_spin : (Draft.ofEdits "spin" spinEdits).build = .ok spin ∧
    ∃ (inside leave : Fin spin.blockCount) (order : List (Fin spin.blockCount)),
      spin.graph.Edge inside inside ∧ (∀ b, b ∈ order) ∧
      ∃ w, w = Worklist.step^[3] (.start (spin.equations .ignored) order) ∧ w.queue = [inside] ∧
        ¬ leave ∈ w.queue ∧ w.queued.get inside = true ∧
        w.current.facts.liveOut.get leave = unionAt w.current.facts.liveIn (spin.succsOf leave) ∧
        w.current.facts ⊆ (Worklist.solve (spin.equations .ignored) order).facts := by
  let inside : Fin spin.blockCount := ⟨0, by decide⟩
  let leave : Fin spin.blockCount := ⟨1, by decide⟩
  have horder : ∀ b, b ∈ [inside, leave, inside] := by decide
  have hqueue : (Worklist.step^[3] (.start (spin.equations .ignored) [inside, leave, inside])).queue = [inside] := by
    decide +kernel
  obtain ⟨-, -, hinv⟩ := between_visits spin .ignored _ horder
  replace hinv := hinv 3
  refine ⟨build_spin, inside, leave, _, by decide, horder, _, rfl, hqueue, ?_⟩
  -- nothing but the queue is to be evaluated
  generalize Worklist.step^[3] (.start (spin.equations .ignored) [inside, leave, inside]) = w at hinv hqueue ⊢
  obtain ⟨-, hmarks, hsettled, hsubset⟩ := hinv
  have hinside : inside ∈ w.queue := by simp [hqueue]
  have hleave : ¬ leave ∈ w.queue := by rw [hqueue]; decide
  exact ⟨hleave, (hmarks inside).mp hinside, (hsettled leave hleave).1, hsubset⟩

end Function

end LiveVars
