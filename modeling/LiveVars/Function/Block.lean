/-
Blocks: a name, a run of instructions and the blocks control may go to next. The
successors are kept in the order they were first named, each once.
-/
import LiveVars.Function.Instruction

namespace LiveVars

structure Block where
  name : String
  instrs : List Instruction
  succs : List BlockId
  succs_nodup : succs.Nodup
deriving DecidableEq

namespace Block

def named (name : String) : Block := ⟨name, [], [], List.nodup_nil⟩

def append (b : Block) (i : Instruction) : Block := { b with instrs := b.instrs ++ [i] }

/-- Adds an edge, unless the block already has it. -/
def connect (b : Block) (target : BlockId) : Block :=
  if h : target ∈ b.succs then b
  else
    { b with
      succs := b.succs ++ [target]
      succs_nodup := by
        refine List.nodup_append.mpr ⟨b.succs_nodup, by simp, fun s hs t ht => ?_⟩
        rintro rfl
        exact h ((List.mem_singleton.mp ht) ▸ hs) }

def connectAll (b : Block) (targets : List BlockId) : Block := targets.foldl connect b

/-- The instruction that ends the block, if its last instruction does. -/
def terminator? (b : Block) : Option Instruction := b.instrs.getLast?.filter Instruction.isTerminator

def endsInBranch (b : Block) : Bool := b.instrs.getLast?.any (·.opcode.isBranch)

theorem endsInBranch_iff {b : Block} :
    b.endsInBranch = true ↔ ∃ i, b.instrs.getLast? = some i ∧ i.opcode.isBranch = true := by
  simp only [endsInBranch, Option.any_eq_true]

end Block

end LiveVars
