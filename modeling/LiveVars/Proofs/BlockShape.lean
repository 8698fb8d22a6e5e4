/-
The shape of the blocks of a function that edits built. Instructions can be written in any
form, branches with results and odd operands among them, and a block can be ended any
number of times. What keeps the result in shape is that edits only ever add at the end:
a terminator with anything behind it stays where it is and the check refuses it.

So a block that passes has at most one terminator, and what came before the last edit had
none and hence no successors. If the last instruction is a branch, its targets were
recorded by the edit that wrote it (a branch written as a mere instruction would have
none), and the branch and the successors are those of one `Ending`
(`Written.exists_ending`). The rest of the shape is read off the endings.
-/
import LiveVars.Proofs.WrittenBlocks

namespace LiveVars

namespace Block

/-- A terminator only stands last, and a branch that stands last has somewhere to go. -/
structure WellEnded (b : Block) : Prop where
  terminator_last : ∀ k i, b.instrs[k]? = some i → i.isTerminator = true → k + 1 = b.instrs.length
  branch_targets : b.endsInBranch = true → b.succs ≠ []

theorem Valid.wellEnded {b : Block} {values blocks : Nat} (h : b.Valid values blocks) : b.WellEnded :=
  ⟨h.terminator_last, h.branch_targets⟩

/-! ## Instructions before the last -/

theorem not_terminator_of_last {body : List Instruction} {last : Instruction}
    (h : ∀ k i, (body ++ [last])[k]? = some i → i.isTerminator = true → k + 1 = (body ++ [last]).length) :
    ∀ i ∈ body, i.isTerminator = false := by
  intro i hi
  rw [← Bool.not_eq_true]
  intro ht
  obtain ⟨k, hk⟩ := List.getElem?_of_mem hi
  have hlt : k < body.length := (List.getElem?_eq_some_iff.mp hk).1
  have hlast := h k i (by rw [List.getElem?_append_left hlt]; exact hk) ht
  simp only [List.length_append, List.length_singleton] at hlast
  omega

theorem WellEnded.countP_terminator {b : Block} (h : b.WellEnded) :
    b.instrs.countP Instruction.isTerminator ≤ 1 := by
  have hlast := h.terminator_last
  rcases List.eq_nil_or_concat b.instrs with hnil | ⟨body, i, hbody⟩
  · simp [hnil]
  · rw [List.concat_eq_append] at hbody
    rw [hbody] at hlast ⊢
    have hzero : body.countP Instruction.isTerminator = 0 :=
      List.countP_eq_zero.mpr fun j hj => by simp [not_terminator_of_last hlast j hj]
    rw [List.countP_append, hzero, Nat.zero_add]
    exact List.countP_le_length

theorem WellEnded.getLast?_of_terminator {b : Block} (h : b.WellEnded) {i : Instruction} (hi : i ∈ b.instrs)
    (ht : i.isTerminator = true) : b.instrs.getLast? = some i := by
  obtain ⟨k, hk⟩ := List.getElem?_of_mem hi
  have hlast := h.terminator_last k i hk ht
  rw [List.getLast?_eq_getElem?, ← hlast]
  exact hk

theorem Written.succs_of_no_terminator {b : Block} (h : b.Written)
    (ho : ∀ i ∈ b.instrs, i.isTerminator = false) : b.succs = [] := by
  refine Decidable.byContradiction fun hs => ?_
  obtain ⟨i, hi, hb, _⟩ := h.exists_branch hs
  have ht : i.isTerminator = true := Opcode.isTerminator_of_isBranch hb
  rw [ho i hi] at ht
  cases ht

/-! ## The branch that ends a block -/

theorem length_succs_connect_le (b : Block) (t : BlockId) : (b.connect t).succs.length ≤ b.succs.length + 1 := by
  unfold connect
  split
  · exact Nat.le_succ _
  · simp

theorem length_succs_connectAll_le : ∀ (targets : List BlockId) (b : Block),
    (b.connectAll targets).succs.length ≤ b.succs.length + targets.length
  | [], _ => Nat.le_refl _
  | t :: targets, b => by
    have ih := length_succs_connectAll_le targets (b.connect t)
    have hstep := length_succs_connect_le b t
    rw [List.length_cons]
    exact Nat.le_trans ih (by omega)

/-- A branch in a block that ends well was written by an ending, and so were the successors. -/
theorem Written.exists_ending {b : Block} (h : b.Written) (hw : b.WellEnded) {i : Instruction}
    (hi : i ∈ b.instrs) (hb : i.opcode.isBranch = true) :
    ∃ e : Ending, i = e.instruction ∧ 1 ≤ b.succs.length ∧ b.succs.length ≤ e.targets.length := by
  have ht : i.isTerminator = true := Opcode.isTerminator_of_isBranch hb
  have hlast := hw.getLast?_of_terminator hi ht
  have hs : b.succs ≠ [] := hw.branch_targets (endsInBranch_iff.mpr ⟨i, hlast, hb⟩)
  have hbefore := hw.terminator_last
  cases h with
  | named name => exact absurd rfl hs
  | @push b h j =>
    -- The branch came as an instruction, so its block had no successors and has none now.
    rw [instrs_append] at hbefore
    exact absurd (h.succs_of_no_terminator (not_terminator_of_last hbefore)) hs
  | @finish b h e =>
    rw [instrs_connectAll, instrs_append] at hbefore hlast
    rw [List.getLast?_concat, Option.some.injEq] at hlast
    have hnil : b.succs = [] := h.succs_of_no_terminator (not_terminator_of_last hbefore)
    have hlength := length_succs_connectAll_le e.targets (b.append e.instruction)
    refine ⟨e, hlast.symm, List.length_pos_iff.mpr hs, Nat.le_trans hlength ?_⟩
    simp [append, hnil]

/-! ## The shape -/

/-- What a block of a function looks like, if the function was built by edits and has `blocks` blocks. -/
structure Shaped (blocks : Nat) (b : Block) : Prop where
  one_terminator : b.instrs.countP Instruction.isTerminator ≤ 1
  terminator_last : ∀ k i, b.instrs[k]? = some i → i.isTerminator = true → k + 1 = b.instrs.length
  succs_iff : b.succs ≠ [] ↔ ∃ i, b.instrs.getLast? = some i ∧ i.opcode.isBranch = true
  succs_nodup : b.succs.Nodup
  succs_lt : ∀ s ∈ b.succs, s.index < blocks
  br : ∀ i ∈ b.instrs, i.opcode = .br → i.args = [] ∧ b.succs.length = 1
  condBr : ∀ i ∈ b.instrs, i.opcode = .condBr →
    i.args.length = 1 ∧ (b.succs.length = 1 ∨ b.succs.length = 2)
  switch : ∀ i ∈ b.instrs, i.opcode = .switch →
    1 ≤ i.args.length ∧ (∀ o ∈ i.args.tail, ∃ n, o = .const (.int n)) ∧
      1 ≤ b.succs.length ∧ b.succs.length ≤ i.args.length
  branch_result : ∀ i ∈ b.instrs, i.opcode.isBranch = true → i.result = none

theorem Written.shaped {b : Block} {values blocks : Nat} (h : b.Written) (hv : b.Valid values blocks) :
    b.Shaped blocks where
  one_terminator := hv.wellEnded.countP_terminator
  terminator_last := hv.terminator_last
  succs_iff := by
    constructor
    · intro hs
      obtain ⟨i, hi, hb, _⟩ := h.exists_branch hs
      exact ⟨i, hv.wellEnded.getLast?_of_terminator hi (Opcode.isTerminator_of_isBranch hb), hb⟩
    · intro hi
      exact hv.branch_targets (endsInBranch_iff.mpr hi)
  succs_nodup := b.succs_nodup
  succs_lt := hv.succs_lt
  br i hi ho := by
    obtain ⟨e, rfl, hpos, hle⟩ := h.exists_ending hv.wellEnded hi (by rw [ho]; rfl)
    cases e with
    | br target => exact ⟨rfl, Nat.le_antisymm hle hpos⟩
    | condBr | switch | ret | unreachable => cases ho
  condBr i hi ho := by
    obtain ⟨e, rfl, hpos, hle⟩ := h.exists_ending hv.wellEnded hi (by rw [ho]; rfl)
    cases e with
    | condBr cond yes no =>
      simp only [Ending.targets, List.length_cons, List.length_nil] at hle
      exact ⟨rfl, by omega⟩
    | br | switch | ret | unreachable => cases ho
  switch i hi ho := by
    obtain ⟨e, rfl, hpos, hle⟩ := h.exists_ending hv.wellEnded hi (by rw [ho]; rfl)
    cases e with
    | switch scrutinee default cases =>
      simp only [Ending.targets, List.length_cons, List.length_map] at hle
      refine ⟨by simp [Ending.instruction], fun o hc => ?_, hpos, by simpa [Ending.instruction] using hle⟩
      simp only [Ending.instruction, List.tail_cons, List.mem_map] at hc
      obtain ⟨c, _, rfl⟩ := hc
      exact ⟨c.1, rfl⟩
    | br | condBr | ret | unreachable => cases ho
  branch_result i hi hb := by
    obtain ⟨e, rfl, _⟩ := h.exists_ending hv.wellEnded hi hb
    exact e.result_instruction

end Block

namespace Draft

/-- **The shape of built blocks.** Whatever edits led to a function, its blocks have a terminator at most
at their end, successors exactly with a branch there, and a branch of the form its opcode asks for. -/
theorem shaped_of_build {name : String} {edits : List Edit} {f : Function}
    (hf : (ofEdits name edits).build = .ok f) (b : Fin f.blockCount) : (f.block b).Shaped f.blockCount :=
  (written_of_build hf b).shaped (f.valid.blocks _ (f.block_mem b))

/-- A switch that names one block twice, and a return written as an instruction, with a result. -/
def forkEdits : List Edit :=
  [.declare "x", .addBlock "fork", .addBlock "end",
    .finish (.ofIndex 0) (.switch (.value (.ofIndex 0)) (.ofIndex 1) [(3, .ofIndex 0), (4, .ofIndex 1)]),
    .push (.ofIndex 1) ⟨.ret, [], some (.ofIndex 0)⟩]

theorem shaped_of_build_fork : ∃ f, (ofEdits "fork" forkEdits).build = .ok f ∧
    ∃ b : Fin f.blockCount, (f.block b).succs = [.ofIndex 1, .ofIndex 0] ∧ (f.block b).Shaped f.blockCount := by
  have hf : (ofEdits "fork" forkEdits).build = .ok _ := rfl
  exact ⟨_, hf, (0 : Fin 2), rfl, shaped_of_build hf _⟩

end Draft

end LiveVars
