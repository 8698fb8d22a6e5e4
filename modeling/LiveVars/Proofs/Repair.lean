/-
Which drafts can still become functions. Edits only add: an instruction never leaves its
block or its place in it, and a fault of the draft itself is kept. So a terminator that
something follows, or a branch at the end of a block without successors, is there for good
(what could give the block successors puts a terminator behind the branch), and no
continuation of the edits mends it.

All other faults are ids that point at nothing. There are only so many ids, and once the
tables are full (`Draft.fillUp`) every id points at something. Hence a draft can be mended
exactly when it has no fault of its own and all its blocks end well.
-/
import LiveVars.Proofs.BlockShape
import LiveVars.Proofs.StrayEdits

namespace LiveVars

/-- The faults that no further edit can mend. -/
def Fault.lasting : Fault → Bool
  | unknownBlock _ | terminatorInside _ _ | targetsMissing _ _ | tooManyValues | tooManyBlocks => true
  | noBlocks | entryMissing _ | undeclaredValue _ _ _ | successorMissing _ _ => false

namespace Block

variable {b : Block}

/-! ## Blocks that end well -/

theorem wellEnded_of_no_terminator (h : ∀ i ∈ b.instrs, i.isTerminator = false) : b.WellEnded := by
  constructor
  · intro k i hi ht
    rw [h i (List.mem_of_getElem? hi)] at ht
    cases ht
  · intro hb
    obtain ⟨i, hi, hbranch⟩ := endsInBranch_iff.mp hb
    have ht := h i (List.mem_of_getLast? hi)
    rw [Instruction.isTerminator, Opcode.isTerminator_of_isBranch hbranch] at ht
    cases ht

theorem WellEnded.of_append {i : Instruction} {targets : List BlockId}
    (h : ((b.append i).connectAll targets).WellEnded) : b.WellEnded := by
  have hlast := h.terminator_last
  rw [instrs_connectAll, instrs_append] at hlast
  exact wellEnded_of_no_terminator (not_terminator_of_last hlast)

/-- A block ends well exactly if it has no lasting fault. -/
theorem wellEnded_iff {values blocks : Nat} {id : BlockId} :
    b.WellEnded ↔ ∀ p x, b.FaultAt values blocks id p x → x.lasting = false := by
  constructor
  · intro h p x hx
    cases hx with
    | terminatorInside hi ht hlt =>
      have := h.terminator_last _ _ hi ht
      omega
    | targetsMissing hi hb hnil => exact absurd hnil (h.branch_targets (endsInBranch_iff.mpr ⟨_, hi, hb⟩))
    | undeclaredArg | undeclaredResult | successorMissing => rfl
  · intro h
    constructor
    · intro k i hi ht
      have hk := (List.getElem?_eq_some_iff.mp hi).1
      refine Decidable.byContradiction fun hne => ?_
      cases h _ _ (.terminatorInside hi ht (by omega))
    · intro hb hnil
      obtain ⟨i, hi, hbranch⟩ := endsInBranch_iff.mp hb
      cases h _ _ (.targetsMissing hi hbranch hnil)

/-- Where every id points at something, ending well is all that is asked of a block. -/
theorem WellEnded.valid (h : b.WellEnded) : b.Valid idLimit idLimit where
  terminator_last := h.terminator_last
  declared _ _ v _ := v.index_lt
  branch_targets := h.branch_targets
  succs_lt s _ := s.index_lt

end Block

namespace Draft

open Edit

variable {d : Draft} {e : Edit} {edits : List Edit}

/-- The draft has no fault of its own and its blocks end well. -/
structure Mendable (d : Draft) : Prop where
  fault : d.fault = none
  blocks : ∀ b ∈ d.blocks, b.WellEnded

/-! ## What no edit mends -/

theorem blocks_declare (d : Draft) (name : String) : (d.declare name).1.blocks = d.blocks := by
  unfold declare
  split <;> rfl

/-- What writing makes of the block at a place: the block as it was, or with one more instruction. -/
theorem getElem?_write {k : Nat} {b : Block} (hb : d.blocks[k]? = some b) (block : BlockId) (i : Instruction)
    (targets : List BlockId) : ∃ b', (d.write block i targets).blocks[k]? = some b' ∧
      (b' = b ∨ ∃ i targets, b' = (b.append i).connectAll targets) := by
  unfold write
  split
  · rw [Array.getElem?_modify, hb]
    split
    · exact ⟨_, rfl, Or.inr ⟨i, targets, rfl⟩⟩
    · exact ⟨b, rfl, Or.inl rfl⟩
  · exact ⟨b, hb, Or.inl rfl⟩

theorem getElem?_addBlock {k : Nat} {b : Block} (hb : d.blocks[k]? = some b) (name : String) :
    (d.addBlock name).1.blocks[k]? = some b := by
  have hk := (Array.getElem?_eq_some_iff.mp hb).1
  unfold addBlock
  split
  · rw [Array.getElem?_push, if_neg (by omega)]
    exact hb
  · exact hb

theorem getElem?_apply {k : Nat} {b : Block} (hb : d.blocks[k]? = some b) (e : Edit) :
    ∃ b', (d.apply e).1.blocks[k]? = some b' ∧
      (b' = b ∨ ∃ i targets, b' = (b.append i).connectAll targets) := by
  cases e with
  | declare name => exact ⟨b, (congrArg (·[k]?) (blocks_declare d name)).trans hb, Or.inl rfl⟩
  | addBlock name => exact ⟨b, getElem?_addBlock hb name, Or.inl rfl⟩
  | setEntry block => exact ⟨b, hb, Or.inl rfl⟩
  | push block i => exact getElem?_write hb ..
  | define block opcode args name =>
    rw [← blocks_declare d name] at hb
    exact getElem?_write hb ..
  | finish block ending => exact getElem?_write hb ..

theorem Mendable.of_apply (h : (d.apply e).1.Mendable) : d.Mendable := by
  constructor
  · refine Option.eq_none_iff_forall_ne_some.mpr fun x hx => ?_
    have hfault := fault_apply_of_fault hx e
    rw [h.fault] at hfault
    cases hfault
  · intro b hb
    -- The block keeps its place. If the edit wrote to it, it had no terminator before.
    obtain ⟨k, hk⟩ := Array.mem_iff_getElem?.mp hb
    obtain ⟨b', hk', hcases⟩ := getElem?_apply hk e
    have hended := h.blocks b' (Array.mem_of_getElem? hk')
    rcases hcases with rfl | ⟨i, targets, rfl⟩
    · exact hended
    · exact hended.of_append

theorem Mendable.of_run : ∀ {edits : List Edit} {d : Draft}, (d.run edits).Mendable → d.Mendable
  | [], _, h => h
  | e :: edits, d, h => by
    rw [run_cons] at h
    exact h.of_run.of_apply

theorem mendable_of_build {f : Function} (h : d.build = .ok f) : d.Mendable := by
  have hblocks : f.blocks = d.blocks := congrArg Listing.blocks (toListing_of_build h)
  constructor
  · refine Option.eq_none_iff_forall_ne_some.mpr fun x hx => ?_
    rw [build_of_fault hx] at h
    cases h
  · intro b hb
    exact (f.valid.blocks b (hblocks ▸ hb)).wellEnded

/-! ## What further edits mend -/

theorem Mendable.apply (h : d.Mendable) (hroom : d.Room (e :: edits)) (he : e.block? = none) :
    (d.apply e).1.Mendable := by
  constructor
  · rw [hroom.follows.fault, h.fault]
    simp [fault?, he]
  · intro b hb
    cases e with
    | declare name =>
      change b ∈ (d.declare name).1.blocks at hb
      rw [blocks_declare] at hb
      exact h.blocks b hb
    | addBlock name =>
      change b ∈ (d.addBlock name).1.blocks at hb
      unfold addBlock at hb
      split at hb
      · rcases Array.mem_push.mp hb with hb | rfl
        · exact h.blocks b hb
        · exact Block.wellEnded_of_no_terminator fun i hi => by simp [Block.named] at hi
      · exact h.blocks b hb
    | setEntry block => exact h.blocks b hb
    | push | define | finish => cases he

/-- Edits that write to no block do no harm, while there are ids left. -/
theorem Mendable.run : ∀ {edits : List Edit} {d : Draft}, d.Mendable → d.Room edits →
    (∀ e ∈ edits, e.block? = none) → (d.run edits).Mendable
  | [], _, h, _, _ => h
  | e :: edits, d, h, hroom, hno => by
    rw [run_cons]
    exact (h.apply hroom (hno e (by simp))).run hroom.tail fun e' he' => hno e' (by simp [he'])

/-- Edits after which there is a block and a value to every id. -/
def fillUp (d : Draft) : List Edit :=
  List.replicate (idLimit - d.blocks.size) (.addBlock "") ++
    List.replicate (idLimit - d.values.size) (.declare "")

theorem blocksAdded_fillUp (d : Draft) : blocksAdded d.fillUp = idLimit - d.blocks.size := by
  simp [blocksAdded, fillUp, List.countP_replicate, addsBlock]

theorem valuesDeclared_fillUp (d : Draft) : valuesDeclared d.fillUp = idLimit - d.values.size := by
  simp [valuesDeclared, fillUp, List.countP_replicate, declaresValue]

/-- No table of the draft has more entries than there are ids. -/
structure Within (d : Draft) : Prop where
  blocks : d.blocks.size ≤ idLimit
  values : d.values.size ≤ idLimit

theorem Within.declare (h : d.Within) (name : String) : (d.declare name).1.Within := by
  unfold Draft.declare
  split
  · rename_i hlt
    exact ⟨h.blocks, by rw [Array.size_push]; exact hlt⟩
  · exact ⟨h.blocks, h.values⟩

theorem Within.addBlock (h : d.Within) (name : String) : (d.addBlock name).1.Within := by
  unfold Draft.addBlock
  split
  · rename_i hlt
    exact ⟨by rw [Array.size_push]; exact hlt, h.values⟩
  · exact ⟨h.blocks, h.values⟩

theorem Within.write (h : d.Within) (block : BlockId) (i : Instruction) (targets : List BlockId) :
    (d.write block i targets).Within :=
  ⟨by rw [size_blocks_write]; exact h.blocks, by rw [values_write]; exact h.values⟩

theorem Within.apply (h : d.Within) (e : Edit) : (d.apply e).1.Within := by
  cases e with
  | declare name => exact h.declare name
  | addBlock name => exact h.addBlock name
  | setEntry block => exact ⟨h.blocks, h.values⟩
  | push block i => exact h.write ..
  | define block opcode args name => exact (h.declare name).write ..
  | finish block ending => exact h.write ..

theorem Within.run : ∀ {edits : List Edit} {d : Draft}, d.Within → (d.run edits).Within
  | [], _, h => h
  | e :: edits, d, h => by
    rw [run_cons]
    exact (h.apply e).run

theorem within_ofEdits (name : String) (edits : List Edit) : (ofEdits name edits).Within :=
  Within.run ⟨Nat.zero_le _, Nat.zero_le _⟩

theorem blockCount_le_of_build {name : String} {edits : List Edit} {f : Function}
    (h : (ofEdits name edits).build = .ok f) : f.blockCount ≤ idLimit := by
  have hblocks : f.blocks = (ofEdits name edits).blocks := congrArg Listing.blocks (toListing_of_build h)
  rw [Function.blockCount, hblocks]
  exact (within_ofEdits name edits).blocks

theorem Within.room_fillUp (h : d.Within) : d.Room d.fillUp := by
  have hblocks := h.blocks
  have hvalues := h.values
  constructor
  · rw [blocksAdded_fillUp]
    omega
  · rw [valuesDeclared_fillUp]
    omega

theorem Within.size_blocks_fillUp (h : d.Within) : (d.run d.fillUp).blocks.size = idLimit := by
  have hblocks := h.blocks
  rw [h.room_fillUp.size_blocks, blocksAdded_fillUp]
  omega

theorem Within.size_values_fillUp (h : d.Within) : (d.run d.fillUp).values.size = idLimit := by
  have hvalues := h.values
  rw [h.room_fillUp.size_values, valuesDeclared_fillUp]
  omega

theorem Mendable.fillUp (h : d.Mendable) (hd : d.Within) : (d.run d.fillUp).Mendable := by
  refine h.run hd.room_fillUp fun e he => ?_
  simp only [Draft.fillUp, List.mem_append, List.mem_replicate] at he
  rcases he with ⟨_, rfl⟩ | ⟨_, rfl⟩ <;> rfl

theorem Mendable.build_fillUp (h : d.Mendable) (hd : d.Within) : ∃ f, (d.run d.fillUp).build = .ok f := by
  have hmend := h.fillUp hd
  have hvalid : (d.run d.fillUp).listing.Valid := by
    -- Both tables are full, so what is left to ask of the entry and the blocks is no more than they have.
    constructor
    · show _ < (d.run d.fillUp).blocks.size
      rw [hd.size_blocks_fillUp]
      exact BlockId.index_lt _
    · intro b hb
      show b.Valid (d.run d.fillUp).values.size (d.run d.fillUp).blocks.size
      rw [hd.size_blocks_fillUp, hd.size_values_fillUp]
      exact (hmend.blocks b hb).valid
  rw [build_of_no_fault hmend.fault, Listing.exists_check_eq_ok_iff,
    Listing.fault?_eq_none_iff (Nat.le_of_eq hd.size_blocks_fillUp)]
  exact hvalid

/-! ## Which drafts can be mended -/

theorem exists_build_iff_mendable (hd : d.Within) :
    (∃ more f, (d.run more).build = .ok f) ↔ d.Mendable := by
  constructor
  · rintro ⟨more, f, hf⟩
    exact (mendable_of_build hf).of_run
  · intro h
    exact ⟨d.fillUp, h.build_fillUp hd⟩

theorem not_lasting_of_faultAt (h : ∀ b ∈ d.blocks, b.WellEnded) {p : Address} {x : Fault}
    (hx : d.listing.FaultAt p x) : x.lasting = false := by
  cases hx with
  | noBlocks | entryMissing => rfl
  | block hb hx => exact Block.wellEnded_iff.mp (h _ (Array.mem_of_getElem? hb)) _ _ hx

theorem wellEnded_of_not_lasting (hd : d.Within) (h : ∀ p x, d.listing.FaultAt p x → x.lasting = false) :
    ∀ b ∈ d.blocks, b.WellEnded := by
  intro b hb
  obtain ⟨k, hk⟩ := Array.mem_iff_getElem?.mp hb
  have hlt := (Array.getElem?_eq_some_iff.mp hk).1
  obtain ⟨id, rfl⟩ := BlockId.exists_index_eq (Nat.lt_of_lt_of_le hlt hd.blocks)
  exact Block.wellEnded_iff.mpr fun p x hx => h _ x (.block hk hx)

/-- **Which drafts can be mended.** Some continuation of the edits leads to a function exactly if the
draft has no fault of its own, no terminator with an instruction behind it and no branch without targets
at the end of a block. So a lasting fault rules out every continuation, and if all faults of the listing
are of the other kinds, some continuation mends them. -/
theorem repairable_iff (name : String) (edits : List Edit) :
    let d := ofEdits name edits
    ((∃ more f, (d.run more).build = .ok f) ↔ d.fault = none ∧ ∀ b ∈ d.blocks, b.WellEnded) ∧
      (∀ x, d.build = .error x → x.lasting = true → ∀ more f, (d.run more).build ≠ .ok f) ∧
      (d.fault = none → (∀ p x, d.listing.FaultAt p x → x.lasting = false) →
        ∃ more f, (d.run more).build = .ok f) := by
  intro d
  have hd : d.Within := within_ofEdits name edits
  refine ⟨?_, ?_, ?_⟩
  · rw [exists_build_iff_mendable hd]
    exact ⟨fun h => ⟨h.fault, h.blocks⟩, fun h => ⟨h.1, h.2⟩⟩
  · intro x hx hlasting more f hf
    have hmend := (exists_build_iff_mendable hd).mp ⟨more, f, hf⟩
    rw [build_of_no_fault hmend.fault, Listing.check_eq_error_iff] at hx
    obtain ⟨p, hp⟩ := Listing.exists_faultAt hd.blocks hx
    rw [not_lasting_of_faultAt hmend.blocks hp] at hlasting
    cases hlasting
  · intro hnone h
    exact (exists_build_iff_mendable hd).mpr ⟨hnone, wellEnded_of_not_lasting hd h⟩

end Draft

end LiveVars
