/-
Solving with a queue of blocks to visit. At first every block of the given order waits
in the queue; when a visit changes a block, its predecessors are queued again. A
block waits at most once: `queued` marks those that do. A visit either uses up room
or shortens the queue, so the queue runs empty.
-/
import LiveVars.Liveness.Approximation
import LiveVars.Liveness.Solution

namespace LiveVars

/-- The state of the solver between two visits. -/
structure Worklist {n : Nat} (e : Equations n) where
  current : Approximation e
  queue : List (Fin n)
  queued : Vector Bool n
  visits : Nat

namespace Worklist

variable {n : Nat} {e : Equations n}

/-- Queues a block, unless it is waiting already. -/
def enqueue (w : Worklist e) (b : Fin n) : Worklist e :=
  if w.queued.get b then w else { w with queue := w.queue ++ [b], queued := put w.queued b true }

def enqueueAll (w : Worklist e) (bs : List (Fin n)) : Worklist e := bs.foldl enqueue w

def start (e : Equations n) (order : List (Fin n)) : Worklist e :=
  enqueueAll ⟨.bottom e, [], Vector.replicate n false, 0⟩ order

/-- Visits the block at the front of the queue. -/
def step (w : Worklist e) : Worklist e :=
  match w.queue with
  | [] => w
  | b :: rest =>
    let (a, changed) := w.current.visit b
    let popped : Worklist e := ⟨a, rest, put w.queued b false, w.visits + 1⟩
    if changed then popped.enqueueAll (e.graph.preds.get b) else popped

@[simp] theorem enqueue_current (w : Worklist e) (b : Fin n) : (w.enqueue b).current = w.current := by
  unfold enqueue
  split <;> rfl

@[simp] theorem enqueueAll_current (w : Worklist e) :
    ∀ bs : List (Fin n), (w.enqueueAll bs).current = w.current
  | [] => rfl
  | b :: bs => by
    have := enqueueAll_current (w.enqueue b) bs
    simpa [enqueueAll] using this

/-- A visit that changes nothing takes its block out of the queue. -/
theorem step_of_unchanged {w : Worklist e} {b : Fin n} {rest : List (Fin n)} (hq : w.queue = b :: rest)
    (hv : (w.current.visit b).2 = false) :
    w.step = ⟨w.current, rest, put w.queued b false, w.visits + 1⟩ := by
  simp only [step, hq, hv, Bool.false_eq_true, if_false, Approximation.visit_fst_of_unchanged hv]

/-- A visit that changes something also queues the predecessors. -/
theorem step_of_changed {w : Worklist e} {b : Fin n} {rest : List (Fin n)} (hq : w.queue = b :: rest)
    (hv : (w.current.visit b).2 = true) :
    w.step = enqueueAll ⟨(w.current.visit b).1, rest, put w.queued b false, w.visits + 1⟩
      (e.graph.preds.get b) := by
  simp only [step, hq, hv, if_true]

theorem step_of_empty {w : Worklist e} (hq : w.queue = []) : w.step = w := by
  simp only [step, hq]

theorem step_progress {w : Worklist e} (h : w.queue ≠ []) :
    w.step.current.room < w.current.room ∨
      w.step.current = w.current ∧ w.step.queue.length < w.queue.length := by
  match hq : w.queue with
  | [] => exact absurd hq h
  | b :: rest =>
    cases hv : (w.current.visit b).2 with
    | true =>
      rw [step_of_changed hq hv, enqueueAll_current]
      exact Or.inl (Approximation.room_visit_lt hv)
    | false =>
      rw [step_of_unchanged hq hv]
      exact Or.inr ⟨rfl, by simp⟩

def drain (w : Worklist e) : Worklist e :=
  if w.queue = [] then w else drain w.step
termination_by (w.current.room, w.queue.length)
decreasing_by
  rcases step_progress ‹_› with h | ⟨hc, hl⟩
  · exact Prod.Lex.left _ _ h
  · rw [hc]; exact Prod.Lex.right _ hl

/-- Solves the equations with a queue seeded from an order. -/
def solve (e : Equations n) (order : List (Fin n)) : Solution n :=
  let w := (start e order).drain
  { facts := w.current.facts, stats := ⟨0, w.visits⟩, snapshots := [] }

end Worklist

end LiveVars
