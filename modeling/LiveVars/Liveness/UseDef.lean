/-
What a block reads and what it defines, as far as liveness is concerned. A read
counts wherever it stands in the block, also behind a definition of the same value.
Whether terminators read anything is a matter of policy; they never define.
-/
import LiveVars.Function.Basic
import LiveVars.ValueSet.Basic

namespace LiveVars

/-- Whether the reads of a terminator count. -/
inductive TerminatorReads where
  | ignored
  | tracked
deriving DecidableEq

/-- Whether the reads of an instruction count under a policy. -/
def Instruction.counts (policy : TerminatorReads) (i : Instruction) : Bool :=
  !i.isTerminator || policy == .tracked

namespace Block

def uses (policy : TerminatorReads) (b : Block) : ValueSet :=
  .ofList ((b.instrs.filter (·.counts policy)).flatMap Instruction.reads)

def defs (b : Block) : ValueSet :=
  .ofList ((b.instrs.filter (!·.isTerminator)).filterMap Instruction.result)

theorem mem_uses {policy : TerminatorReads} {b : Block} {v : ValueId} :
    v ∈ b.uses policy ↔ ∃ i ∈ b.instrs, i.counts policy = true ∧ v ∈ i.reads := by
  simp only [uses, ValueSet.mem_ofList, List.mem_flatMap, List.mem_filter, and_assoc]

theorem mem_defs {b : Block} {v : ValueId} :
    v ∈ b.defs ↔ ∃ i ∈ b.instrs, i.isTerminator = false ∧ i.result = some v := by
  simp only [defs, ValueSet.mem_ofList, List.mem_filterMap, List.mem_filter, Bool.not_eq_true',
    and_assoc]

end Block

end LiveVars
