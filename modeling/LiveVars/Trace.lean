/-
Watching a run. A run offers its events to a sink, in order: the use and definition
sets, each sweep of a solver that sweeps, and the final counts. The sink's mask says
which kinds of event it is handed; nothing a sink does changes the result.
-/
import LiveVars.Liveness.Basic

namespace LiveVars

/-- Something that happens in a run. -/
inductive Event where
  | useDef (uses defs : Array ValueSet)
  | sweep (index : Nat) (liveIn liveOut : Array ValueSet) (changed : Bool)
  | finished (stats : Stats)
deriving DecidableEq

/-! ## Masks -/

/-- A set of kinds of event. -/
structure Mask where
  useDef : Bool
  sweep : Bool
  finished : Bool
deriving DecidableEq

namespace Mask

def none : Mask := ⟨false, false, false⟩

def useDefOnly : Mask := ⟨true, false, false⟩

def sweepOnly : Mask := ⟨false, true, false⟩

def finishedOnly : Mask := ⟨false, false, true⟩

def all : Mask := ⟨true, true, true⟩

def union (m k : Mask) : Mask := ⟨m.useDef || k.useDef, m.sweep || k.sweep, m.finished || k.finished⟩

/-- Whether every kind of the second mask is in the first. -/
def contains (m k : Mask) : Bool :=
  (!k.useDef || m.useDef) && (!k.sweep || m.sweep) && (!k.finished || m.finished)

end Mask

/-- The kind of an event, as a mask of its own. -/
def Event.kind : Event → Mask
  | useDef _ _ => .useDefOnly
  | sweep _ _ _ _ => .sweepOnly
  | finished _ => .finishedOnly

/-! ## Sinks -/

/-- An observer of runs with a state of its own. -/
structure Sink (σ : Type) where
  mask : Mask
  receive : Function → Event → σ → σ

namespace Sink

/-- Hands an event on if the mask has its kind. -/
def offer {σ : Type} (sink : Sink σ) (f : Function) (state : σ) (event : Event) : σ :=
  if sink.mask.contains event.kind then sink.receive f event state else state

/-- Writes down the events of the kinds in a mask. -/
def recorder (mask : Mask) : Sink (List Event) := ⟨mask, fun _ event events => events ++ [event]⟩

/-- Asks for the events of the kinds in a mask and does nothing with them. -/
def silent (σ : Type) (mask : Mask) : Sink σ := ⟨mask, fun _ _ state => state⟩

end Sink

/-! ## Runs -/

/-- The event of the `k`-th sweep, counted from 1. -/
def Snapshot.event {n : Nat} (s : Snapshot n) (k : Nat) : Event :=
  .sweep k s.facts.liveIn.toArray s.facts.liveOut.toArray s.changed

/-- The liveness of a function, computed while a sink looks on. -/
def Function.watchedLiveness {σ : Type} (f : Function) (c : Settings) (sink : Sink σ) (state : σ) :
    Liveness f.blockCount × σ :=
  let e := f.equations c.terminatorReads
  let state := sink.offer f state (.useDef e.uses.toArray e.defs.toArray)
  let solution := f.solve c
  let sweeps := (solution.snapshots.zipIdx 1).map fun (s, k) => s.event k
  let state := sweeps.foldl (sink.offer f) state
  let state := sink.offer f state (.finished solution.stats)
  (f.livenessOf c solution, state)

/-- The size of a recorded sweep: its number, the members of all sets before and after blocks, and
whether it changed anything. -/
structure SweepSize where
  index : Nat
  liveIn : Nat
  liveOut : Nat
  changed : Bool
deriving DecidableEq

/-- The number of members of all the sets of a table. -/
def totalSize (sets : Array ValueSet) : Nat := (sets.toList.flatMap ValueSet.ids).length

/-- The size of an event that is a sweep. -/
def Event.sweepSize? : Event → Option SweepSize
  | sweep index liveIn liveOut changed => some ⟨index, totalSize liveIn, totalSize liveOut, changed⟩
  | _ => none

end LiveVars
