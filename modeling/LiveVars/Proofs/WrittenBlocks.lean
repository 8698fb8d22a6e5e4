/-
The blocks that edits can write. A block of a draft starts empty and is changed by
nothing but an instruction added to it or an ending, so a property of blocks that those
two keep holds of every block of every draft (`Draft.written_run`), and of every block of
a function that was built from one (`Draft.written_of_build`).

The first such property: only a branch gives a block successors, and an ending's branch
has no result. In a function a terminator stands last, so a block with successors ends in
that branch and has no other terminator (`Written.result_of_terminator`).
-/
import LiveVars.Function.Draft

namespace LiveVars

namespace Ending

theorem isBranch_of_targets {e : Ending} (h : e.targets ≠ []) : e.instruction.opcode.isBranch = true := by
  cases e with
  | br | condBr | switch => rfl
  | ret | unreachable => exact absurd rfl h

theorem result_instruction (e : Ending) : e.instruction.result = none := by
  cases e <;> rfl

end Ending

namespace Block

/-- The blocks that edits can write. -/
inductive Written : Block → Prop
  | named (name : String) : Written (.named name)
  | push {b : Block} (h : Written b) (i : Instruction) : Written (b.append i)
  | finish {b : Block} (h : Written b) (e : Ending) :
      Written ((b.append e.instruction).connectAll e.targets)

theorem instrs_connect (b : Block) (t : BlockId) : (b.connect t).instrs = b.instrs := by
  unfold connect
  split <;> rfl

theorem instrs_connectAll : ∀ (targets : List BlockId) (b : Block), (b.connectAll targets).instrs = b.instrs
  | [], _ => rfl
  | t :: targets, b => (instrs_connectAll targets (b.connect t)).trans (instrs_connect b t)

theorem instrs_append (b : Block) (i : Instruction) : (b.append i).instrs = b.instrs ++ [i] := rfl

/-! ## Successors come with a branch -/

namespace Written

theorem exists_branch {b : Block} (h : b.Written) (hs : b.succs ≠ []) :
    ∃ i ∈ b.instrs, i.opcode.isBranch = true ∧ i.result = none := by
  induction h with
  | named name => exact absurd rfl hs
  | push _ i ih =>
    obtain ⟨j, hj, hb⟩ := ih hs
    exact ⟨j, by simp [instrs_append, hj], hb⟩
  | @finish b _ e ih =>
    simp only [instrs_connectAll, instrs_append, List.mem_append, List.mem_singleton]
    by_cases ht : e.targets = []
    · rw [ht] at hs
      obtain ⟨j, hj, hb⟩ := ih hs
      exact ⟨j, Or.inl hj, hb⟩
    · exact ⟨e.instruction, Or.inr rfl, Ending.isBranch_of_targets ht, e.result_instruction⟩

/-- In a function, the terminator of a block with successors has no result. -/
theorem result_of_terminator {b : Block} {values blocks : Nat} (h : b.Written) (hv : b.Valid values blocks)
    (hs : b.succs ≠ []) {i : Instruction} (hi : i ∈ b.instrs) (ht : i.isTerminator = true) :
    i.result = none := by
  obtain ⟨j, hj, hbranch, hnone⟩ := h.exists_branch hs
  obtain ⟨k, hk⟩ := List.getElem?_of_mem hi
  obtain ⟨m, hm⟩ := List.getElem?_of_mem hj
  -- Both are terminators, and only the last position has one.
  have hk' := hv.terminator_last k i hk ht
  have hm' := hv.terminator_last m j hm (Opcode.isTerminator_of_isBranch hbranch)
  have hkm : k = m := by omega
  rw [hkm, hm, Option.some.injEq] at hk
  exact hk ▸ hnone

end Written

end Block

/-! ## Every block of a draft is written by edits -/

namespace Draft

/-- Every block of the draft can be written by edits. -/
def Written (d : Draft) : Prop := ∀ b ∈ d.blocks, b.Written

theorem written_declare {d : Draft} (h : d.Written) (name : String) : (d.declare name).1.Written := by
  unfold declare
  split <;> exact h

theorem written_addBlock {d : Draft} (h : d.Written) (name : String) : (d.addBlock name).1.Written := by
  unfold addBlock
  split
  · intro b hb
    rcases Array.mem_push.mp hb with hb | rfl
    · exact h b hb
    · exact .named name
  · exact h

theorem written_write {d : Draft} (h : d.Written) (block : BlockId) {i : Instruction} {targets : List BlockId}
    (hw : ∀ b : Block, b.Written → ((b.append i).connectAll targets).Written) :
    (d.write block i targets).Written := by
  unfold write
  split
  · intro b hb
    obtain ⟨k, hk⟩ := Array.mem_iff_getElem?.mp hb
    rw [Array.getElem?_modify] at hk
    split at hk
    · obtain ⟨b', hb', rfl⟩ := Option.map_eq_some_iff.mp hk
      exact hw b' (h b' (Array.mem_of_getElem? hb'))
    · exact h b (Array.mem_of_getElem? hk)
  · exact h

theorem written_apply {d : Draft} (h : d.Written) (e : Edit) : (d.apply e).1.Written := by
  cases e with
  | declare name => exact written_declare h name
  | addBlock name => exact written_addBlock h name
  | setEntry block => exact h
  | push block instr => exact written_write h block fun b hb => hb.push instr
  | define block opcode args name =>
    exact written_write (written_declare h name) block fun b hb => hb.push _
  | finish block ending => exact written_write h block fun b hb => hb.finish ending

theorem written_run : ∀ {edits : List Edit} {d : Draft}, d.Written → (d.run edits).Written
  | [], _, h => h
  | e :: edits, d, h => by
    rw [run_cons]
    exact written_run (written_apply h e)

theorem written_ofEdits (name : String) (edits : List Edit) : (ofEdits name edits).Written :=
  written_run fun b hb => by simp [empty] at hb

/-- A function is the listing of the draft it was built from. -/
theorem toListing_of_build {d : Draft} {f : Function} (h : d.build = .ok f) : f.toListing = d.listing := by
  unfold build at h
  split at h
  · cases h
  · unfold Listing.check at h
    split at h
    · cases h
    · cases h
      rfl

theorem written_of_build {name : String} {edits : List Edit} {f : Function}
    (h : (ofEdits name edits).build = .ok f) (b : Fin f.blockCount) : (f.block b).Written := by
  have hblocks : f.blocks = (ofEdits name edits).blocks := congrArg Listing.blocks (toListing_of_build h)
  exact written_ofEdits name edits _ (hblocks ▸ f.block_mem b)

end Draft

end LiveVars
