/-
Solving by sweeps: visit all blocks in a given order, over and over, until a sweep
changes nothing. Any list of blocks may serve as the order. The run is the list of
its sweeps, and it is finite because every sweep but the last uses up room.
-/
import LiveVars.Liveness.Approximation
import LiveVars.Liveness.Solution

namespace LiveVars

namespace RoundRobin

variable {n : Nat} {e : Equations n}

/-- A sweep, as far as it has got. -/
structure Sweep (e : Equations n) where
  current : Approximation e
  changed : Bool
  visits : UInt64

def Sweep.start (a : Approximation e) : Sweep e := ⟨a, false, 0⟩

def Sweep.visit (s : Sweep e) (b : Fin n) : Sweep e :=
  let (a, changed) := s.current.visit b
  ⟨a, s.changed || changed, s.visits + 1⟩

def sweep (order : List (Fin n)) (a : Approximation e) : Sweep e := order.foldl Sweep.visit (.start a)

/-! ## A sweep that changes something uses up room -/

theorem foldl_visit_spec {a : Approximation e} :
    ∀ {order : List (Fin n)} {s : Sweep e},
      (s.changed = true ∧ s.current.room < a.room ∨ s.changed = false ∧ s.current = a) →
      ((order.foldl Sweep.visit s).changed = true ∧ (order.foldl Sweep.visit s).current.room < a.room ∨
        (order.foldl Sweep.visit s).changed = false ∧ (order.foldl Sweep.visit s).current = a)
  | [], _, h => h
  | b :: order, s, h => by
    refine @foldl_visit_spec a order _ ?_
    simp only [Sweep.visit]
    have hle := Approximation.room_visit_le s.current b
    rcases h with ⟨hc, hlt⟩ | ⟨hc, rfl⟩
    · exact Or.inl ⟨by simp [hc], by omega⟩
    · cases hv : (s.current.visit b).2 with
      | true => exact Or.inl ⟨by simp, Approximation.room_visit_lt hv⟩
      | false => exact Or.inr ⟨by simp [hc], Approximation.visit_fst_of_unchanged hv⟩

theorem sweep_spec (order : List (Fin n)) (a : Approximation e) :
    (sweep order a).changed = true ∧ (sweep order a).current.room < a.room ∨
      (sweep order a).changed = false ∧ (sweep order a).current = a :=
  foldl_visit_spec (Or.inr ⟨rfl, rfl⟩)

theorem room_sweep_lt {order : List (Fin n)} {a : Approximation e}
    (h : (sweep order a).changed = true) : (sweep order a).current.room < a.room := by
  rcases sweep_spec order a with ⟨_, hlt⟩ | ⟨hc, _⟩
  · exact hlt
  · rw [h] at hc; cases hc

/-! ## The run -/

/-- The sweeps from an approximation on, up to and with the first that changes nothing. -/
def sweeps (order : List (Fin n)) (a : Approximation e) : List (Sweep e) :=
  let s := sweep order a
  if s.changed = true then s :: sweeps order s.current else [s]
termination_by a.room
decreasing_by exact room_sweep_lt ‹_›

theorem sweeps_of_changed {order : List (Fin n)} {a : Approximation e}
    (h : (sweep order a).changed = true) :
    sweeps order a = sweep order a :: sweeps order (sweep order a).current := by
  rw [sweeps, if_pos h]

theorem sweeps_of_unchanged {order : List (Fin n)} {a : Approximation e}
    (h : ¬ (sweep order a).changed = true) : sweeps order a = [sweep order a] := by
  rw [sweeps, if_neg h]

theorem sweeps_ne_nil (order : List (Fin n)) (a : Approximation e) : sweeps order a ≠ [] := by
  rw [sweeps]
  split <;> simp

/-- The visits of all sweeps, counted as each sweep counts its own: in a word of 64 bits. -/
def visits (run : List (Sweep e)) : UInt64 := run.foldl (fun count s => count + s.visits) 0

/-- Solves the equations by sweeps along an order. -/
def solve (e : Equations n) (order : List (Fin n)) : Solution n :=
  let run := sweeps order (.bottom e)
  { facts := (run.getLast (sweeps_ne_nil order _)).current.facts
    stats := ⟨run.length, (visits run).toNat⟩
    snapshots := run.map fun s => ⟨s.current.facts, s.changed⟩ }

end RoundRobin

end LiveVars
