/-
A liveness result written out for people, one record for each block. Values appear
under their names, or as `%` and the id when the function has no such value. The result
may belong to another function; it then has to cover the blocks of this one.
-/
import LiveVars.Graph.Search
import LiveVars.Liveness.Basic

namespace LiveVars

structure BlockRecord where
  block : BlockId
  name : String
  instrCount : Nat
  reachable : Bool
  liveIn : List String
  liveOut : List String
deriving DecidableEq

structure Report where
  function : String
  records : List BlockRecord
deriving DecidableEq

/-- How a report writes a value. -/
def Function.label (f : Function) (v : ValueId) : String :=
  match f.valueName? v with
  | some name => name
  | none => s!"%{v.index}"

/-- The members of a set as a report writes them, by ascending id. -/
def Function.labels (f : Function) (s : ValueSet) : List String := s.sorted.map f.label

namespace Report

def record {n : Nat} (f : Function) (l : Liveness n) (reached : Vector Bool f.blockCount)
    (b : Fin f.blockCount) : Except OutOfRange BlockRecord := do
  let liveIn ← setAt l.liveIn b
  let liveOut ← setAt l.liveOut b
  pure
    { block := .ofIndex b
      name := (f.block b).name
      instrCount := (f.block b).instrs.length
      reachable := reached.get b
      liveIn := f.labels liveIn
      liveOut := f.labels liveOut }

/-- The report of a result on the blocks of a function. It fails at the first block that the result
does not cover. -/
def of {n : Nat} (f : Function) (l : Liveness n) : Except OutOfRange Report := do
  let reached := f.graph.reachable
  let records ← (List.finRange f.blockCount).mapM (record f l reached)
  pure ⟨f.name, records⟩

/-- The first record under a block name. -/
def find? (r : Report) (name : String) : Option BlockRecord := r.records.find? (·.name == name)

end Report

/-! ## Text -/

/-- The lines that list values. -/
def valueLines (names : List String) : String := String.join (names.map fun v => s!"  {v}\n")

def BlockRecord.text (r : BlockRecord) : String :=
  s!"live in for block {r.name} (instructions: {r.instrCount}" ++
    (if r.reachable then "" else ", unreachable") ++ ")\n" ++ valueLines r.liveIn ++
    s!"live out for block {r.name}\n" ++ valueLines r.liveOut ++ "---\n"

def Report.text (r : Report) : String :=
  s!"liveness for function {r.function}\n" ++ String.join (r.records.map BlockRecord.text)

end LiveVars
