/-
Functions. A `Listing` is what was written down, with nothing promised; a
`Function` is a listing in which every reference points at something. The check
that leads from one to the other reports the first fault in a fixed order:
the function as a whole, then block by block; inside a block the instructions in
turn, then the targets of its branch, then its edges.
-/
import LiveVars.Function.Block
import LiveVars.Function.Fault

namespace LiveVars

/-! ## What is checked, part by part -/

/-- The first fault of instruction `k` of a block: a terminator that is not last, then an undeclared value. -/
def Instruction.fault? (values : Nat) (block : BlockId) (k : Nat) (isLast : Bool) (i : Instruction) :
    Option Fault :=
  if i.isTerminator && !isLast then some (.terminatorInside block k)
  else (i.mentions.find? fun v => values ≤ v.index).map (.undeclaredValue block k)

namespace Block

def instrFault? (values : Nat) (id : BlockId) (b : Block) : Option Fault :=
  b.instrs.zipIdx.findSome? fun (i, k) => i.fault? values id k (k + 1 == b.instrs.length)

/-- A branch at the end of a block that has no successors. -/
def targetFault? (id : BlockId) (b : Block) : Option Fault :=
  if b.endsInBranch && b.succs.isEmpty then some (.targetsMissing id (b.instrs.length - 1)) else none

/-- The first edge of a block that leads nowhere. -/
def edgeFault? (blocks : Nat) (id : BlockId) (b : Block) : Option Fault :=
  (b.succs.find? fun s => blocks ≤ s.index).map (.successorMissing id)

def fault? (values blocks : Nat) (id : BlockId) (b : Block) : Option Fault :=
  ((b.instrFault? values id).or (b.targetFault? id)).or (b.edgeFault? blocks id)

/-- What a block owes the function it stands in. -/
structure Valid (values blocks : Nat) (b : Block) : Prop where
  terminator_last : ∀ k i, b.instrs[k]? = some i → i.isTerminator = true → k + 1 = b.instrs.length
  declared : ∀ i ∈ b.instrs, ∀ v ∈ i.mentions, v.index < values
  branch_targets : b.endsInBranch = true → b.succs ≠ []
  succs_lt : ∀ s ∈ b.succs, s.index < blocks

end Block

/-! ## Listings and functions -/

/-- A function as written down: its entry, its blocks in layout order and the names of its values. -/
structure Listing where
  name : String
  entry : BlockId
  blocks : Array Block
  values : Array String
deriving DecidableEq

namespace Listing

def fault? (l : Listing) : Option Fault :=
  if l.blocks.size = 0 then some .noBlocks
  else if l.blocks.size ≤ l.entry.index then some (.entryMissing l.entry)
  else l.blocks.toList.zipIdx.findSome? fun (b, i) => b.fault? l.values.size l.blocks.size (.ofIndex i)

/-- Every reference in the listing points at something. -/
structure Valid (l : Listing) : Prop where
  entry_lt : l.entry.index < l.blocks.size
  blocks : ∀ b ∈ l.blocks, b.Valid l.values.size l.blocks.size

end Listing

/-- A listing in which every reference points at something. -/
structure Function extends Listing where
  valid : toListing.Valid
deriving DecidableEq

/-! ## A listing without fault is a function -/

theorem Instruction.fault?_eq_none {values : Nat} {block : BlockId} {k : Nat} {isLast : Bool}
    {i : Instruction} (h : i.fault? values block k isLast = none) :
    (i.isTerminator = true → isLast = true) ∧ ∀ v ∈ i.mentions, v.index < values := by
  unfold fault? at h
  split at h
  · cases h
  · rename_i hterm
    rw [Option.map_eq_none_iff, List.find?_eq_none] at h
    refine ⟨fun ht => ?_, fun v hv => by simpa using h v hv⟩
    simpa [ht] using hterm

theorem Block.valid_of_fault? {values blocks : Nat} {id : BlockId} {b : Block}
    (h : b.fault? values blocks id = none) : b.Valid values blocks := by
  simp only [fault?, Option.or_eq_none_iff] at h
  obtain ⟨⟨hinstr, htarget⟩, hedge⟩ := h
  have hi : ∀ k i, b.instrs[k]? = some i →
      (i.isTerminator = true → k + 1 = b.instrs.length) ∧ ∀ v ∈ i.mentions, v.index < values := by
    intro k i hk
    rw [instrFault?, List.findSome?_eq_none_iff] at hinstr
    have := Instruction.fault?_eq_none (hinstr (i, k) (List.mem_zipIdx_iff_getElem?.mpr hk))
    simpa using this
  refine ⟨fun k i hk => (hi k i hk).1, fun i him => ?_, fun hb => ?_, fun s hs => ?_⟩
  · obtain ⟨k, hk⟩ := List.getElem?_of_mem him
    exact (hi k i hk).2
  · intro hnil
    simp [targetFault?, hb, hnil] at htarget
  · rw [edgeFault?, Option.map_eq_none_iff, List.find?_eq_none] at hedge
    simpa using hedge s hs

theorem Listing.valid_of_fault? {l : Listing} (h : l.fault? = none) : l.Valid := by
  unfold fault? at h
  split at h
  · cases h
  · split at h
    · cases h
    · rename_i hentry
      refine ⟨by omega, fun b hb => ?_⟩
      rw [List.findSome?_eq_none_iff] at h
      obtain ⟨i, hi⟩ := List.getElem?_of_mem (Array.mem_toList_iff.mpr hb)
      exact Block.valid_of_fault? (h (b, i) (List.mem_zipIdx_iff_getElem?.mpr hi))

/-- The function a listing is, or its first fault. -/
def Listing.check (l : Listing) : Except Fault Function :=
  match h : l.fault? with
  | some fault => .error fault
  | none => .ok ⟨l, Listing.valid_of_fault? h⟩

/-! ## Looking things up -/

namespace Function

abbrev blockCount (f : Function) : Nat := f.blocks.size

abbrev valueCount (f : Function) : Nat := f.values.size

def block (f : Function) (b : Fin f.blockCount) : Block := f.blocks[b]

def block? (f : Function) (b : BlockId) : Option Block := f.blocks[b.index]?

def valueName? (f : Function) (v : ValueId) : Option String := f.values[v.index]?

/-- The first value with a given name. -/
def valueNamed? (f : Function) (name : String) : Option ValueId :=
  (f.values.findIdx? (· == name)).map ValueId.ofIndex

/-- The first block with a given name. -/
def blockNamed? (f : Function) (name : String) : Option BlockId :=
  (f.blocks.findIdx? (·.name == name)).map BlockId.ofIndex

theorem entry_lt (f : Function) : f.entry.index < f.blockCount := f.valid.entry_lt

theorem block_mem (f : Function) (b : Fin f.blockCount) : f.block b ∈ f.blocks :=
  Array.getElem_mem b.isLt

theorem succ_lt (f : Function) {b : Fin f.blockCount} {s : BlockId} (hs : s ∈ (f.block b).succs) :
    s.index < f.blockCount := (f.valid.blocks _ (f.block_mem b)).succs_lt s hs

end Function

end LiveVars
