/-
A bank of named sets worked on by commands, over any store. Every register holds the
empty set until a command writes it, and a command may name one register twice.
-/
import LiveVars.ValueSet.Store

namespace LiveVars

/-- The set each register holds. -/
abbrev Registers (σ : Type) := String → σ

namespace Registers

variable {σ : Type}

def blank (S : Store σ) : Registers σ := fun _ => S.empty

def write (regs : Registers σ) (r : String) (s : σ) : Registers σ :=
  fun q => if q = r then s else regs q

/-- One operation on the register named first. -/
inductive Command where
  | reset (r : String)
  | collect (r : String) (vs : List ValueId)
  | copy (r source : String)
  | insert (r : String) (v : ValueId)
  | contains (r : String) (v : ValueId)
  | extend (r : String) (vs : List ValueId)
  | union (r other : String)
  | subtract (r other : String)
  | subset (r other : String)
  | equal (r other : String)
  | clear (r : String)

def Command.register : Command → String
  | reset r | collect r _ | copy r _ | insert r _ | contains r _ | extend r _ | union r _
  | subtract r _ | subset r _ | equal r _ | clear r => r

/-- Carries out a command. The answer is that of the tests, and of `insert`: whether the id was absent. -/
def run (S : Store σ) (regs : Registers σ) : Command → Registers σ × Option Bool
  | .reset r => (regs.write r S.empty, none)
  | .collect r vs => (regs.write r (S.collect vs), none)
  | .copy r source => (regs.write r (S.copy (regs source)), none)
  | .insert r v =>
    let (s, absent) := S.insert (regs r) v
    (regs.write r s, some absent)
  | .contains r v => (regs, some (S.contains (regs r) v))
  | .extend r vs => (regs.write r (S.extend (regs r) vs), none)
  | .union r other => (regs.write r (S.union (regs r) (regs other)), none)
  | .subtract r other => (regs.write r (S.subtract (regs r) (regs other)), none)
  | .subset r other => (regs, some (S.isSubset (regs r) (regs other)))
  | .equal r other => (regs, some (S.equal (regs r) (regs other)))
  | .clear r => (regs.write r (S.clear (regs r)), none)

/-- The answer to each command of a sequence, with the set its register then holds. -/
def answers (S : Store σ) (regs : Registers σ) : List Command → List (Option Bool × σ)
  | [] => []
  | c :: cs =>
    let (regs', answer) := regs.run S c
    (answer, regs' c.register) :: answers S regs' cs

@[simp] theorem write_self (regs : Registers σ) (r : String) (s : σ) : regs.write r s r = s := by
  simp [write]

theorem write_other (regs : Registers σ) {r q : String} (s : σ) (h : q ≠ r) :
    regs.write r s q = regs q := by
  simp [write, h]

end Registers

end LiveVars
