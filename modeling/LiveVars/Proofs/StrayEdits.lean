/-
How building a draft comes out, told from its edits. An edit strays when it is addressed
to a block that the edits before it have not added. Edges may lead to blocks that come
later, so only the block an edit writes to counts, and no later edit makes good for one
that strayed: the draft keeps the first stray as its fault.

While there are ids left, an edit does four things to a draft that matter here
(`Draft.Follows`): it may add a block, declare a value, choose the entry or stray. Along a
sequence of edits these add up to counts, to the last choice and to the first stray. A
draft without a stray is built if its listing is valid, and otherwise fails with the
listing's first fault.
-/
import LiveVars.Function.Draft
import LiveVars.Proofs.FirstFault

namespace LiveVars

/-! ## What edits say -/

namespace Edit

/-- The block an edit writes to. -/
def block? : Edit → Option BlockId
  | push block _ | define block _ _ _ | finish block _ => some block
  | declare _ | addBlock _ | setEntry _ => none

def addsBlock : Edit → Bool
  | addBlock _ => true
  | _ => false

def declaresValue : Edit → Bool
  | declare _ | define _ _ _ _ => true
  | _ => false

def entry? : Edit → Option BlockId
  | setEntry block => some block
  | _ => none

def blocksAdded (edits : List Edit) : Nat := edits.countP addsBlock

def valuesDeclared (edits : List Edit) : Nat := edits.countP declaresValue

/-- The entry chosen last; the first block, if none was. -/
def chosenEntry (edits : List Edit) : BlockId := (edits.filterMap entry?).getLast?.getD (.ofIndex 0)

/-- In a draft that starts with so many blocks, edit `k` writes to block `b`, which is not there yet. -/
def Stray (blocks : Nat) (edits : List Edit) (k : Nat) (b : BlockId) : Prop :=
  ∃ e, edits[k]? = some e ∧ e.block? = some b ∧ blocks + blocksAdded (edits.take k) ≤ b.index

theorem not_stray_of_forall {blocks : Nat} {edits : List Edit}
    (h : ∀ k : Fin edits.length, ∀ b ∈ (edits.get k).block?, b.index < blocks + blocksAdded (edits.take k)) :
    ∀ k b, ¬ Stray blocks edits k b := by
  rintro k b ⟨e, he, hb, hle⟩
  obtain ⟨hk, rfl⟩ := List.getElem?_eq_some_iff.mp he
  exact absurd (h ⟨k, hk⟩ b hb) (Nat.not_lt.mpr hle)

/-- The fault of an edit to a draft with so many blocks. -/
def fault? (blocks : Nat) (e : Edit) : Option Fault :=
  e.block?.bind fun b => if blocks ≤ b.index then some (.unknownBlock b) else none

theorem blocksAdded_cons (e : Edit) (edits : List Edit) :
    blocksAdded (e :: edits) = (if e.addsBlock then 1 else 0) + blocksAdded edits := by
  rw [blocksAdded, List.countP_cons, Nat.add_comm, blocksAdded]

theorem valuesDeclared_cons (e : Edit) (edits : List Edit) :
    valuesDeclared (e :: edits) = (if e.declaresValue then 1 else 0) + valuesDeclared edits := by
  rw [valuesDeclared, List.countP_cons, Nat.add_comm, valuesDeclared]

theorem stray_zero {blocks : Nat} {e : Edit} {edits : List Edit} {b : BlockId} :
    Stray blocks (e :: edits) 0 b ↔ e.block? = some b ∧ blocks ≤ b.index := by
  simp [Stray, blocksAdded]

theorem fault?_of_stray {blocks : Nat} {e : Edit} {edits : List Edit} {b : BlockId}
    (h : Stray blocks (e :: edits) 0 b) : e.fault? blocks = some (.unknownBlock b) := by
  obtain ⟨hb, hle⟩ := stray_zero.mp h
  simp [fault?, hb, hle]

theorem fault?_of_no_stray {blocks : Nat} {e : Edit} {edits : List Edit}
    (h : ∀ b, ¬ Stray blocks (e :: edits) 0 b) : e.fault? blocks = none := by
  cases hb : e.block? with
  | none => simp [fault?, hb]
  | some b =>
    have hlt : ¬ blocks ≤ b.index := fun hle => h b (stray_zero.mpr ⟨hb, hle⟩)
    simp [fault?, hb, hlt]

theorem stray_succ {blocks k : Nat} {e : Edit} {edits : List Edit} {b : BlockId} :
    Stray blocks (e :: edits) (k + 1) b ↔ Stray (blocks + if e.addsBlock then 1 else 0) edits k b := by
  simp only [Stray, List.getElem?_cons_succ, List.take_succ_cons, blocksAdded_cons, Nat.add_assoc]

end Edit

/-! ## What an edit does to a draft -/

namespace Draft

open Edit

variable {d d' : Draft} {e : Edit} {edits : List Edit}

/-- In its sizes, its entry and its fault, `d'` differs from `d` by what edit `e` does. -/
structure Follows (d d' : Draft) (e : Edit) : Prop where
  size_blocks : d'.blocks.size = d.blocks.size + if e.addsBlock then 1 else 0
  size_values : d'.values.size = d.values.size + if e.declaresValue then 1 else 0
  entry : d'.entry = e.entry?.or d.entry
  fault : d'.fault = d.fault.or (e.fault? d.blocks.size)

/-- There are ids left for what the edits add to the draft. -/
structure Room (d : Draft) (edits : List Edit) : Prop where
  blocks : d.blocks.size + blocksAdded edits ≤ idLimit
  values : d.values.size + valuesDeclared edits ≤ idLimit

theorem declare_fst (h : d.values.size < idLimit) (name : String) :
    (d.declare name).1 = { d with values := d.values.push name } := by
  rw [declare, if_pos h]

theorem addBlock_fst (h : d.blocks.size < idLimit) (name : String) :
    (d.addBlock name).1 = { d with blocks := d.blocks.push (.named name) } := by
  rw [addBlock, if_pos h]

section Write

variable (d : Draft) (block : BlockId) (i : Instruction) (targets : List BlockId)

theorem size_blocks_write : (d.write block i targets).blocks.size = d.blocks.size := by
  unfold write
  split
  · exact Array.size_modify
  · rfl

theorem values_write : (d.write block i targets).values = d.values := by
  unfold write
  split <;> rfl

theorem entry_write : (d.write block i targets).entry = d.entry := by
  unfold write
  split <;> rfl

theorem fault_write : (d.write block i targets).fault =
    d.fault.or (if d.blocks.size ≤ block.index then some (.unknownBlock block) else none) := by
  unfold write
  split
  · rename_i h
    rw [if_neg (by omega), Option.or_none]
  · rename_i h
    rw [if_pos (by omega)]
    rfl

end Write

theorem Room.follows (h : d.Room (e :: edits)) : d.Follows (d.apply e).1 e := by
  have hblocks := h.blocks
  have hvalues := h.values
  rw [blocksAdded_cons] at hblocks
  rw [valuesDeclared_cons] at hvalues
  cases e with
  | declare name =>
    simp only [declaresValue, ite_true] at hvalues
    show d.Follows (d.declare name).1 _
    rw [declare_fst (by omega)]
    exact ⟨rfl, Array.size_push _, rfl, Option.or_none.symm⟩
  | addBlock name =>
    simp only [addsBlock, ite_true] at hblocks
    show d.Follows (d.addBlock name).1 _
    rw [addBlock_fst (by omega)]
    exact ⟨Array.size_push _, rfl, rfl, Option.or_none.symm⟩
  | setEntry block => exact ⟨rfl, rfl, rfl, Option.or_none.symm⟩
  | push block i =>
    exact ⟨size_blocks_write .., congrArg Array.size (values_write ..), entry_write .., fault_write ..⟩
  | define block opcode args name =>
    -- The value is declared first, which leaves the blocks and the fault as they are.
    simp only [declaresValue, ite_true] at hvalues
    show d.Follows ((d.declare name).1.write block _ []) _
    rw [declare_fst (by omega)]
    refine ⟨size_blocks_write .., ?_, entry_write .., fault_write ..⟩
    rw [values_write]
    exact Array.size_push _
  | finish block ending =>
    exact ⟨size_blocks_write .., congrArg Array.size (values_write ..), entry_write .., fault_write ..⟩

theorem Room.tail (h : d.Room (e :: edits)) : (d.apply e).1.Room edits := by
  have hblocks := h.blocks
  have hvalues := h.values
  rw [blocksAdded_cons] at hblocks
  rw [valuesDeclared_cons] at hvalues
  constructor
  · rw [h.follows.size_blocks]
    omega
  · rw [h.follows.size_values]
    omega

/-! ## What a sequence of edits does to a draft -/

theorem Room.size_blocks : ∀ {edits : List Edit} {d : Draft}, d.Room edits →
    (d.run edits).blocks.size = d.blocks.size + blocksAdded edits
  | [], _, _ => rfl
  | e :: edits, d, h => by
    rw [run_cons, h.tail.size_blocks, h.follows.size_blocks, blocksAdded_cons, Nat.add_assoc]

theorem Room.size_values : ∀ {edits : List Edit} {d : Draft}, d.Room edits →
    (d.run edits).values.size = d.values.size + valuesDeclared edits
  | [], _, _ => rfl
  | e :: edits, d, h => by
    rw [run_cons, h.tail.size_values, h.follows.size_values, valuesDeclared_cons, Nat.add_assoc]

theorem Room.entry : ∀ {edits : List Edit} {d : Draft}, d.Room edits →
    (d.run edits).entry = (edits.filterMap entry?).getLast?.or d.entry
  | [], _, _ => rfl
  | e :: edits, d, h => by
    rw [run_cons, h.tail.entry, h.follows.entry]
    cases he : e.entry? with
    | none => simp [he]
    | some b => simp [he, List.getLast?_cons]

theorem fault_declare_of_fault {x : Fault} (h : d.fault = some x) (name : String) :
    (d.declare name).1.fault = some x := by
  unfold declare
  split
  · exact h
  · simp [blame, h]

theorem fault_addBlock_of_fault {x : Fault} (h : d.fault = some x) (name : String) :
    (d.addBlock name).1.fault = some x := by
  unfold addBlock
  split
  · exact h
  · simp [blame, h]

theorem fault_write_of_fault {x : Fault} (h : d.fault = some x) (block : BlockId) (i : Instruction)
    (targets : List BlockId) : (d.write block i targets).fault = some x := by
  rw [fault_write, h, Option.some_or]

theorem fault_apply_of_fault {x : Fault} (h : d.fault = some x) (e : Edit) : (d.apply e).1.fault = some x := by
  cases e with
  | declare name => exact fault_declare_of_fault h name
  | addBlock name => exact fault_addBlock_of_fault h name
  | setEntry block => exact h
  | push block i => exact fault_write_of_fault h ..
  | define block opcode args name => exact fault_write_of_fault (fault_declare_of_fault h name) ..
  | finish block ending => exact fault_write_of_fault h ..

/-- A fault stays, whatever is done to the draft afterwards. -/
theorem fault_run_of_fault {x : Fault} : ∀ {edits : List Edit} {d : Draft}, d.fault = some x →
    (d.run edits).fault = some x
  | [], _, h => h
  | e :: edits, d, h => by
    rw [run_cons]
    exact fault_run_of_fault (fault_apply_of_fault h e)

theorem Room.fault_of_no_stray : ∀ {edits : List Edit} {d : Draft}, d.Room edits → d.fault = none →
    (∀ k b, ¬ Stray d.blocks.size edits k b) → (d.run edits).fault = none
  | [], _, _, hnone, _ => hnone
  | e :: edits, d, h, hnone, hno => by
    have hfault := h.follows.fault
    rw [hnone, fault?_of_no_stray (hno 0)] at hfault
    refine h.tail.fault_of_no_stray hfault fun k b hk => hno (k + 1) b ?_
    rw [h.follows.size_blocks] at hk
    exact stray_succ.mpr hk

theorem Room.fault_of_stray : ∀ {edits : List Edit} {d : Draft}, d.Room edits → d.fault = none →
    ∀ {k : Nat} {b : BlockId}, Stray d.blocks.size edits k b →
      (∀ j c, Stray d.blocks.size edits j c → k ≤ j) → (d.run edits).fault = some (.unknownBlock b)
  | [], _, _, _, _, _, hk, _ => by simp [Stray] at hk
  | e :: edits, d, h, hnone, 0, b, hk, _ => by
    -- The first stray is this edit, so the draft has its fault from here on.
    have hfault := h.follows.fault
    rw [hnone, fault?_of_stray hk] at hfault
    rw [run_cons]
    exact fault_run_of_fault hfault
  | e :: edits, d, h, hnone, k + 1, b, hk, hfirst => by
    -- This edit comes before the first stray, so it does not stray itself.
    have hstay : e.fault? d.blocks.size = none :=
      fault?_of_no_stray fun c hc => Nat.not_succ_le_zero k (hfirst 0 c hc)
    have hfault := h.follows.fault
    rw [hnone, hstay] at hfault
    have hk' : Stray (d.apply e).1.blocks.size edits k b := by
      rw [h.follows.size_blocks]
      exact stray_succ.mp hk
    rw [run_cons]
    refine h.tail.fault_of_stray hfault hk' fun j c hj => ?_
    rw [h.follows.size_blocks] at hj
    exact Nat.le_of_succ_le_succ (hfirst (j + 1) c (stray_succ.mpr hj))

end Draft

/-! ## What building comes to -/

namespace Draft

open Edit

variable {d : Draft}

theorem build_of_fault {x : Fault} (h : d.fault = some x) : d.build = .error x := by
  rw [build, h]

theorem build_of_no_fault (h : d.fault = none) : d.build = d.listing.check := by
  rw [build, h]

section OfEdits

variable {name : String} {edits : List Edit} (h : (empty name).Room edits)
include h

theorem size_blocks_ofEdits : (ofEdits name edits).blocks.size = blocksAdded edits :=
  h.size_blocks.trans (Nat.zero_add _)

theorem size_values_ofEdits : (ofEdits name edits).values.size = valuesDeclared edits :=
  h.size_values.trans (Nat.zero_add _)

theorem entry_ofEdits : (ofEdits name edits).listing.entry = chosenEntry edits := by
  have hentry : (ofEdits name edits).entry = (edits.filterMap entry?).getLast?.or none := h.entry
  rw [listing, hentry, Option.or_none]
  rfl

theorem valid_ofEdits_iff : (ofEdits name edits).listing.Valid ↔
    0 < blocksAdded edits ∧ (chosenEntry edits).index < blocksAdded edits ∧
      ∀ b ∈ (ofEdits name edits).blocks, b.Valid (valuesDeclared edits) (blocksAdded edits) := by
  rw [← size_blocks_ofEdits h, ← size_values_ofEdits h, ← entry_ofEdits h]
  exact ⟨fun hv => ⟨Nat.zero_lt_of_lt hv.entry_lt, hv.entry_lt, hv.blocks⟩, fun hv => ⟨hv.2.1, hv.2.2⟩⟩

end OfEdits

/-- **How building comes out.** With ids enough, a draft in which an edit strays fails with the first
stray. Any other is built exactly if there is a block, the entry is a block, and every block is valid; and
it fails with a fault exactly if that is the first fault of its listing. -/
theorem build_decided (name : String) (edits : List Edit) (hblocks : blocksAdded edits ≤ idLimit)
    (hvalues : valuesDeclared edits ≤ idLimit) :
    let d := ofEdits name edits
    (∀ k b, Stray 0 edits k b → (∀ j c, Stray 0 edits j c → k ≤ j) → d.build = .error (.unknownBlock b)) ∧
      ((∀ k b, ¬ Stray 0 edits k b) →
        ((∃ f, d.build = .ok f) ↔
          0 < blocksAdded edits ∧ (chosenEntry edits).index < blocksAdded edits ∧
            ∀ b ∈ d.blocks, b.Valid (valuesDeclared edits) (blocksAdded edits)) ∧
        ∀ x, d.build = .error x ↔ First d.listing.FaultAt x) := by
  intro d
  have hroom : (empty name).Room edits := ⟨(Nat.zero_add _).symm ▸ hblocks, (Nat.zero_add _).symm ▸ hvalues⟩
  refine ⟨fun k b hk hfirst => build_of_fault (hroom.fault_of_stray rfl hk hfirst), fun hno => ?_⟩
  have hlimit : d.listing.blocks.size ≤ idLimit := size_blocks_ofEdits hroom ▸ hblocks
  have hbuild : d.build = d.listing.check := build_of_no_fault (hroom.fault_of_no_stray rfl hno)
  rw [hbuild]
  constructor
  · rw [Listing.exists_check_eq_ok_iff, Listing.fault?_eq_none_iff hlimit]
    exact valid_ofEdits_iff hroom
  · intro x
    rw [Listing.check_eq_error_iff]
    exact (Listing.finds_fault? hlimit).eq_some_iff fun p x y hx hy => hx.unique hy

/-- An edge to a block that is missing; then, in the next block, a return that is not last and a value that
was not declared. -/
def faultyEdits : List Edit :=
  [.addBlock "a", .addBlock "b", .finish (.ofIndex 0) (.br (.ofIndex 9)), .finish (.ofIndex 1) (.ret []),
    .effect (.ofIndex 1) .call [.value (.ofIndex 5)]]

/-- With two strays more: one before its block is added, one to a block that never is. -/
def strayEdits : List Edit :=
  .effect (.ofIndex 2) .call [] :: faultyEdits ++ [.addBlock "c", .effect (.ofIndex 4) .call []]

/-- A return that is not last and names a value that was not declared, and an edge to a block that is missing. -/
def untidyEdits : List Edit :=
  [.addBlock "a", .addBlock "b", .finish (.ofIndex 0) (.ret [.value (.ofIndex 5)]),
    .finish (.ofIndex 0) (.br (.ofIndex 9))]

theorem build_decided_faulty : blocksAdded strayEdits ≤ idLimit ∧ valuesDeclared strayEdits ≤ idLimit ∧
    (ofEdits "f" strayEdits).build = .error (.unknownBlock (.ofIndex 2)) ∧
    First (ofEdits "f" faultyEdits).listing.FaultAt (.successorMissing (.ofIndex 0) (.ofIndex 9)) ∧
    First (ofEdits "f" untidyEdits).listing.FaultAt (.terminatorInside (.ofIndex 0) 0) := by
  refine ⟨by decide, by decide, ?_, ?_, ?_⟩
  · refine (build_decided "f" strayEdits (by decide) (by decide)).1 0 _ ⟨_, rfl, rfl, by decide⟩ ?_
    exact fun j _ _ => Nat.zero_le j
  · have hno : ∀ k b, ¬ Stray 0 faultyEdits k b := not_stray_of_forall (by decide)
    exact (((build_decided "f" faultyEdits (by decide) (by decide)).2 hno).2 _).mp rfl
  · have hno : ∀ k b, ¬ Stray 0 untidyEdits k b := not_stray_of_forall (by decide)
    exact (((build_decided "f" untidyEdits (by decide) (by decide)).2 hno).2 _).mp rfl

end Draft

end LiveVars
