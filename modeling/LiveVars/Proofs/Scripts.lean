/-
Functions written straight down: the values are declared, the blocks are added, and then
the blocks are filled in layout order, each with some instructions and perhaps an ending.
Such edits are a script, told by the names and by what each block is to hold (`Body`).

No edit of a script strays, because all blocks are there before the first is filled, and
block `i` is written to by its own edits only. So a script is built if every body fits, and
the function has the names and bodies of the script and nothing else (`build_script`).
-/
import Mathlib.Data.List.Nodup
import LiveVars.Proofs.Projection

namespace LiveVars

open Edit

theorem Instruction.mem_mentions {i : Instruction} {v : ValueId} :
    v ∈ i.mentions ↔ Operand.value v ∈ i.args ∨ i.result = some v := by
  rw [mentions, List.mem_append, mem_reads, Option.mem_toList]

/-- What a block is to hold: instructions, and perhaps an ending. -/
structure Body where
  instrs : List Instruction
  ending : Option Ending

namespace Body

variable {body : Body} {block : BlockId} {values blocks : Nat}

/-- The edits that fill a block. -/
def edits (body : Body) (block : BlockId) : List Edit :=
  body.instrs.map (.push block) ++ (body.ending.map (.finish block)).toList

/-- The instructions with the one of the ending. -/
def written (body : Body) : List Instruction := body.instrs ++ (body.ending.map Ending.instruction).toList

def targets (body : Body) : List BlockId := body.ending.toList.flatMap Ending.targets

/-- The body can stand in a function with so many values and blocks: nothing but its ending ends the block,
and every id points at something. -/
structure Fits (values blocks : Nat) (body : Body) : Prop where
  plain : ∀ i ∈ body.instrs, i.isTerminator = false
  declared : ∀ i ∈ body.written, ∀ v ∈ i.mentions, v.index < values
  targets_lt : ∀ t ∈ body.targets, t.index < blocks

theorem mem_written {i : Instruction} :
    i ∈ body.written ↔ i ∈ body.instrs ∨ ∃ e ∈ body.ending, e.instruction = i := by
  rw [written, List.mem_append, Option.mem_toList, Option.map_eq_some_iff]
  rfl

theorem writes_of_mem_edits {e : Edit} (he : e ∈ body.edits block) :
    e.block? = some block ∧ e.declaresValue = false := by
  rcases List.mem_append.mp he with he | he
  · obtain ⟨i, _, rfl⟩ := List.mem_map.mp he
    exact ⟨rfl, rfl⟩
  · rw [Option.mem_toList, Option.map_eq_some_iff] at he
    obtain ⟨ending, _, rfl⟩ := he
    exact ⟨rfl, rfl⟩

theorem filterMap_part?_edits (body : Body) (block : BlockId) :
    (body.edits block).filterMap (part? · .done) =
      body.instrs.map (Edit.Part.mk · []) ++ (body.ending.map fun e => ⟨e.instruction, e.targets⟩).toList := by
  have hinstrs : (body.instrs.map (push block)).filterMap (part? · .done) = body.instrs.map (Edit.Part.mk · []) := by
    rw [List.filterMap_map, ← List.filterMap_eq_map]
    rfl
  rw [edits, List.filterMap_append, hinstrs]
  cases body.ending with
  | none => rfl
  | some ending => simp [part?_finish]

theorem targets_ne_nil_of_isBranch {ending : Ending} (h : ending.instruction.opcode.isBranch = true) :
    ending.targets ≠ [] := by
  cases ending with
  | br | condBr | switch => simp [Ending.targets]
  | ret | unreachable => cases h

/-- A block that holds a body that fits is valid. -/
theorem Fits.valid (h : body.Fits values blocks) {b : Block} (hinstrs : b.instrs = body.written)
    (hsuccs : b.succs = body.targets.eraseDups) : b.Valid values blocks := by
  have hdeclared : ∀ i ∈ b.instrs, ∀ v ∈ i.mentions, v.index < values := hinstrs ▸ h.declared
  have hsuccs_lt : ∀ s ∈ b.succs, s.index < blocks := fun s hs => by
    rw [hsuccs, List.mem_eraseDups] at hs
    exact h.targets_lt s hs
  have hended : b.WellEnded := by
    cases hending : body.ending with
    | none =>
      refine Block.wellEnded_of_no_terminator fun i hi => h.plain i ?_
      simpa [hinstrs, written, hending] using hi
    | some ending =>
      have hlist : b.instrs = body.instrs ++ [ending.instruction] := by simp [hinstrs, written, hending]
      constructor
      · intro k i hi ht
        rw [hlist] at hi ⊢
        by_cases hk : k < body.instrs.length
        · rw [List.getElem?_append_left hk] at hi
          rw [h.plain i (List.mem_of_getElem? hi)] at ht
          cases ht
        · have hlt := (List.getElem?_eq_some_iff.mp hi).1
          rw [List.length_append, List.length_singleton] at hlt ⊢
          omega
      · intro hb hnil
        obtain ⟨i, hi, hbranch⟩ := Block.endsInBranch_iff.mp hb
        rw [hlist, List.getLast?_concat, Option.some.injEq] at hi
        obtain ⟨t, ht⟩ := List.exists_mem_of_ne_nil _ (targets_ne_nil_of_isBranch (hi ▸ hbranch))
        have hmem : t ∈ b.succs := by
          rw [hsuccs, List.mem_eraseDups]
          simpa [targets, hending] using ht
        rw [hnil] at hmem
        cases hmem
  exact ⟨hended.terminator_last, hdeclared, hended.branch_targets, hsuccs_lt⟩

end Body

/-- The edits that write a function straight down. -/
def script (values blocks : List String) (body : Nat → Body) : List Edit :=
  values.map .declare ++ blocks.map .addBlock ++
    (List.range blocks.length).flatMap fun i => (body i).edits (.ofIndex i)

/-- The function has the names of the script and in each block its body; the entry is the first block. -/
structure Function.Transcribes (f : Function) (name : String) (values blocks : List String) (body : Nat → Body) :
    Prop where
  named : f.name = name
  entry : f.entry = .ofIndex 0
  values : f.values.toList = values
  blockNames : f.blocks.toList.map Block.name = blocks
  instrs : ∀ b : Fin f.blockCount, (f.block b).instrs = (body b).written
  succs : ∀ b : Fin f.blockCount, (f.block b).succs = (body b).targets.eraseDups

namespace Function.Transcribes

variable {f : Function} {name : String} {values blocks : List String} {body : Nat → Body}

theorem blockCount (h : f.Transcribes name values blocks body) : f.blockCount = blocks.length := by
  rw [← h.blockNames, List.length_map, Array.length_toList]

theorem valueCount (h : f.Transcribes name values blocks body) : f.valueCount = values.length := by
  rw [← h.values, Array.length_toList]

end Function.Transcribes

/-! ## What the edits of a script are -/

section Script

variable {values blocks : List String} {body : Nat → Body}

/-- A list over a range is that of its one member with anything to add. -/
theorem flatMap_range_eq {α : Type} {n i : Nat} (hi : i < n) {f : Nat → List α}
    (hf : ∀ j < n, j ≠ i → f j = []) : (List.range n).flatMap f = f i := by
  have hnodup : (List.range n).Nodup := List.nodup_range
  obtain ⟨xs, ys, hsplit⟩ := List.append_of_mem (List.mem_range.mpr hi)
  have hmem : ∀ j, j ∈ xs ++ i :: ys → j < n := fun j hj => List.mem_range.mp (hsplit ▸ hj)
  rw [hsplit] at hnodup ⊢
  have hnot : ¬ i ∈ xs ++ ys := (List.nodup_cons.mp (List.nodup_middle.mp hnodup)).1
  have hxs : xs.flatMap f = [] := List.flatMap_eq_nil_iff.mpr fun j hj =>
    hf j (hmem j (by simp [hj])) fun he => hnot (by simp [← he, hj])
  have hys : ys.flatMap f = [] := List.flatMap_eq_nil_iff.mpr fun j hj =>
    hf j (hmem j (by simp [hj])) fun he => hnot (by simp [← he, hj])
  rw [List.flatMap_append, List.flatMap_cons, hxs, hys, List.nil_append, List.append_nil]

/-- The edits of a script that declare values and add blocks. -/
theorem block?_of_mem_names {e : Edit} (he : e ∈ values.map declare ++ blocks.map addBlock) : e.block? = none := by
  rcases List.mem_append.mp he with he | he
  · obtain ⟨_, _, rfl⟩ := List.mem_map.mp he
    rfl
  · obtain ⟨_, _, rfl⟩ := List.mem_map.mp he
    rfl

theorem mem_bodies {n : Nat} {e : Edit} (he : e ∈ (List.range n).flatMap fun i => (body i).edits (.ofIndex i)) :
    ∃ i < n, e.block? = some (.ofIndex i) ∧ e.declaresValue = false := by
  obtain ⟨i, hi, he⟩ := List.mem_flatMap.mp he
  exact ⟨i, List.mem_range.mp hi, Body.writes_of_mem_edits he⟩

theorem filter_writesTo_script (hblocks : blocks.length ≤ idLimit) {i : Nat} (hi : i < blocks.length) :
    (script values blocks body).filter (writesTo (.ofIndex i)) = (body i).edits (.ofIndex i) := by
  have hnames : (values.map declare ++ blocks.map addBlock).filter (writesTo (.ofIndex i)) = [] :=
    List.filter_eq_nil_iff.mpr fun e he hw => by
      rw [writesTo_iff, block?_of_mem_names he] at hw
      cases hw
  rw [script, List.filter_append, hnames, List.nil_append, List.filter_flatMap, flatMap_range_eq hi]
  · refine List.filter_eq_self.mpr fun e he => writesTo_iff.mpr ?_
    exact (Body.writes_of_mem_edits he).1
  · refine fun j hj hne => List.filter_eq_nil_iff.mpr fun e he hw => hne ?_
    rw [writesTo_iff, (Body.writes_of_mem_edits he).1, Option.some.injEq,
      BlockId.eq_ofIndex_iff (Nat.lt_of_lt_of_le hi hblocks)] at hw
    rwa [BlockId.index_ofIndex (Nat.lt_of_lt_of_le hj hblocks)] at hw

theorem filterMap_script {α : Type} {f : Edit → Option α}
    (hf : ∀ e b, e.block? = some b → e.declaresValue = false → f e = none) :
    (script values blocks body).filterMap f =
      (values.map declare).filterMap f ++ (blocks.map addBlock).filterMap f := by
  have hbodies : ((List.range blocks.length).flatMap fun i => (body i).edits (.ofIndex i)).filterMap f = [] :=
    List.filterMap_eq_nil_iff.mpr fun e he => by
      obtain ⟨_, _, hb, hd⟩ := mem_bodies he
      exact hf e _ hb hd
  rw [script, List.filterMap_append, hbodies, List.append_nil, List.filterMap_append]

theorem declared_script : (script values blocks body).filterMap declared? = values := by
  rw [filterMap_script]
  · simp [List.filterMap_map, Function.comp_def, declared?]
  · intro e b hb hd
    cases e with
    | declare | define => cases hd
    | addBlock | setEntry | push | finish => rfl

theorem added_script : (script values blocks body).filterMap added? = blocks := by
  rw [filterMap_script]
  · simp [List.filterMap_map, Function.comp_def, added?]
  · intro e b hb _
    cases e with
    | addBlock => cases hb
    | declare | setEntry | push | define | finish => rfl

theorem chosenEntry_script : chosenEntry (script values blocks body) = .ofIndex 0 := by
  have hnone : (script values blocks body).filterMap entry? = [] := by
    rw [filterMap_script]
    · simp [List.filterMap_map, Function.comp_def, entry?]
    · intro e b hb _
      cases e with
      | setEntry => cases hb
      | declare | addBlock | push | define | finish => rfl
  rw [chosenEntry, hnone]
  rfl

theorem blocksAdded_script : blocksAdded (script values blocks body) = blocks.length := by
  rw [← length_filterMap_added, added_script]

theorem valuesDeclared_script : valuesDeclared (script values blocks body) = values.length := by
  rw [← length_filterMap_declared, declared_script]

/-- By the time that a block is written to, all blocks are there. -/
theorem not_stray_script (hblocks : blocks.length ≤ idLimit) (k : Nat) (b : BlockId) :
    ¬ Stray 0 (script values blocks body) k b := by
  rintro ⟨e, he, hb, hle⟩
  rw [script] at he hle
  by_cases hk : k < (values.map declare ++ blocks.map addBlock).length
  · rw [List.getElem?_append_left hk] at he
    rw [block?_of_mem_names (List.mem_of_getElem? he)] at hb
    cases hb
  · rw [List.getElem?_append_right (by omega)] at he
    obtain ⟨i, hi, hblock, _⟩ := mem_bodies (List.mem_of_getElem? he)
    rw [hblock, Option.some.injEq] at hb
    have hadded : blocks.length ≤
        blocksAdded ((values.map declare ++ blocks.map addBlock ++
          (List.range blocks.length).flatMap fun i => (body i).edits (.ofIndex i)).take k) := by
      rw [List.take_append, List.take_of_length_le (by omega)]
      simp only [blocksAdded, List.countP_append, List.countP_map]
      have hall : blocks.countP (addsBlock ∘ addBlock) = blocks.length :=
        List.countP_eq_length.mpr fun _ _ => rfl
      omega
    rw [← hb, BlockId.index_ofIndex (Nat.lt_of_lt_of_le hi hblocks)] at hle
    omega

end Script

/-! ## The draft of a script, and its function -/

namespace Draft

variable {name : String} {values blocks : List String} {body : Nat → Body}

/-- What edits add to a block does not depend on their replies, if none of them declares the value it defines. -/
theorem parts_log_of_plain {edits : List Edit} (h : ∀ e ∈ edits, ∀ b, e.block? = some b → e.declaresValue = false)
    (b : BlockId) : parts (log name edits) b = (edits.filter (writesTo b)).filterMap (part? · .done) := by
  have hedits : (edits.filter (writesTo b)).filterMap (part? · .done) =
      ((log name edits).filter (·.1.writesTo b)).filterMap fun c => c.1.part? .done := by
    conv => lhs; rw [← map_fst_log name edits, List.filter_map, List.filterMap_map]
    rfl
  rw [hedits, parts]
  refine List.filterMap_congr fun c hc => ?_
  obtain ⟨hc, hw⟩ := List.mem_filter.mp hc
  have hmem : c.1 ∈ edits := by
    rw [← map_fst_log name edits]
    exact List.mem_map_of_mem hc
  have hd := h c.1 hmem b (writesTo_iff.mp hw)
  cases hcase : c.1 with
  | define => rw [hcase] at hd; cases hd
  | finish block ending => rw [part?_finish, part?_finish]
  | declare | addBlock | setEntry | push => rfl

theorem plain_script : ∀ e ∈ script values blocks body, ∀ b, e.block? = some b → e.declaresValue = false := by
  intro e he b hb
  rcases List.mem_append.mp he with he | he
  · rw [block?_of_mem_names he] at hb
    cases hb
  · exact (mem_bodies he).choose_spec.2.2

variable (hblocks : blocks.length ≤ idLimit) (hvalues : values.length ≤ idLimit)
include hblocks hvalues

theorem room_script (name : String) (body : Nat → Body) : (empty name).Room (script values blocks body) := by
  constructor
  · show 0 + blocksAdded (script values blocks body) ≤ idLimit
    rw [blocksAdded_script]
    omega
  · show 0 + valuesDeclared (script values blocks body) ≤ idLimit
    rw [valuesDeclared_script]
    omega

theorem fault_script (name : String) (body : Nat → Body) : (ofEdits name (script values blocks body)).fault = none :=
  (room_script hblocks hvalues name body).fault_of_no_stray rfl (not_stray_script hblocks)

/-- Block `i` of the draft holds body `i`. -/
theorem written_script {i : Nat} {b : Block} (hb : (ofEdits name (script values blocks body)).blocks[i]? = some b) :
    b.instrs = (body i).written ∧ b.succs = (body i).targets.eraseDups := by
  have hfault := fault_script hblocks hvalues name body
  have hi : i < blocks.length := by
    have hlt := (Array.getElem?_eq_some_iff.mp hb).1
    rwa [size_blocks_ofEdits (room_script hblocks hvalues name body), blocksAdded_script] at hlt
  have hindex : (BlockId.ofIndex i).index = i := BlockId.index_ofIndex (Nat.lt_of_lt_of_le hi hblocks)
  rw [← hindex] at hb
  obtain ⟨hinstrs, hsuccs⟩ := instrs_succs_ofEdits hfault hb
  rw [parts_log_of_plain plain_script, filter_writesTo_script hblocks hi, Body.filterMap_part?_edits]
    at hinstrs hsuccs
  refine ⟨hinstrs.trans ?_, hsuccs.trans (congrArg List.eraseDups ?_)⟩
  · cases hending : (body i).ending <;> simp [Body.written, hending, Function.comp_def]
  · cases hending : (body i).ending <;> simp [Body.targets, hending, List.flatMap_map]

/-- A script whose bodies fit is built, and the function holds what the script says. -/
theorem build_script (hpos : 0 < blocks.length) (name : String)
    (hfits : ∀ i < blocks.length, (body i).Fits values.length blocks.length) :
    ∃ f, (ofEdits name (script values blocks body)).build = .ok f ∧ f.Transcribes name values blocks body := by
  have hroom := room_script hblocks hvalues name body
  have hfault := fault_script hblocks hvalues name body
  have hsize : (ofEdits name (script values blocks body)).blocks.size = blocks.length := by
    rw [size_blocks_ofEdits hroom, blocksAdded_script]
  have hvalid : (ofEdits name (script values blocks body)).listing.Valid := by
    rw [valid_ofEdits_iff hroom, blocksAdded_script, valuesDeclared_script, chosenEntry_script]
    refine ⟨hpos, hpos, fun b hb => ?_⟩
    obtain ⟨i, hi, hb⟩ := Array.getElem_of_mem hb
    obtain ⟨hinstrs, hsuccs⟩ := written_script hblocks hvalues (Array.getElem?_eq_some_iff.mpr ⟨hi, hb⟩)
    exact (hfits i (hsize ▸ hi)).valid hinstrs hsuccs
  have hlimit : (ofEdits name (script values blocks body)).listing.blocks.size ≤ idLimit := hsize ▸ hblocks
  obtain ⟨f, hf⟩ := Listing.exists_check_eq_ok_iff.mpr ((Listing.fault?_eq_none_iff hlimit).mpr hvalid)
  rw [← build_of_no_fault hfault] at hf
  have hlisting := toListing_of_build hf
  have hprojects := projects_listing hfault
  rw [← hlisting] at hprojects
  have hwritten : ∀ b : Fin f.blockCount,
      (f.block b).instrs = (body b).written ∧ (f.block b).succs = (body b).targets.eraseDups := by
    intro b
    have hsame : f.blocks = (ofEdits name (script values blocks body)).blocks := congrArg Listing.blocks hlisting
    have hb : (ofEdits name (script values blocks body)).blocks[b.val]? = some (f.block b) := by
      rw [← hsame]
      exact Array.getElem?_eq_getElem b.isLt
    exact written_script hblocks hvalues hb
  refine ⟨f, hf, hprojects.named, hprojects.entry.trans chosenEntry_script, ?_, ?_, fun b => (hwritten b).1,
    fun b => (hwritten b).2⟩
  · rw [hprojects.values, declared_script]
  · rw [hprojects.blockNames, added_script]

end Draft

end LiveVars
