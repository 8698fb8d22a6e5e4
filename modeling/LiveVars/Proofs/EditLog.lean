/-
What is left of edits. A draft is nothing but what its edits say: its values are the
declarations in order, its blocks are the additions in order, and a block is what the edits
that write to it add, one after the other.

Edits answer with ids, and an instruction that declares its own result has the id in its
reply as that result. So drafts are told from edits together with their replies
(`Draft.log`). A part (`Edit.Part`) is what one edit adds to its block, and a block of a
draft is the empty block of its name with the parts of its edits added in turn. That
equation, for every block id, is what an edit keeps as long as it causes no fault
(`Draft.Mirrors.apply`), and so it holds of a draft after any edits that caused none
(`Draft.mirrors_ofEdits`).
-/
import LiveVars.Proofs.Repair
import Mathlib.Data.List.Induction

namespace LiveVars

/-! ## What edits say of tables and blocks -/

namespace Edit

/-- The name of the value that an edit declares. -/
def declared? : Edit → Option String
  | declare name | define _ _ _ name => some name
  | addBlock _ | setEntry _ | push _ _ | finish _ _ => none

/-- The name of the block that an edit adds. -/
def added? : Edit → Option String
  | addBlock name => some name
  | _ => none

def writesTo (b : BlockId) (e : Edit) : Bool := e.block? == some b

/-- What an edit adds to a block: an instruction, and the blocks that may follow. -/
structure Part where
  instr : Instruction
  targets : List BlockId
deriving DecidableEq

/-- What an edit adds to the block it writes to, if it got the given reply. -/
def part? : Edit → Reply → Option Part
  | push _ i, _ => some ⟨i, []⟩
  | define _ opcode args _, .value v => some ⟨⟨opcode, args, some v⟩, []⟩
  | finish _ (.br target), _ => some ⟨⟨.br, [], none⟩, [target]⟩
  | finish _ (.condBr cond yes no), _ => some ⟨⟨.condBr, [cond], none⟩, [yes, no]⟩
  | finish _ (.switch scrutinee default cases), _ =>
    some ⟨⟨.switch, scrutinee :: cases.map fun c => .const (.int c.1), none⟩, default :: cases.map Prod.snd⟩
  | finish _ (.ret values), _ => some ⟨⟨.ret, values, none⟩, []⟩
  | finish _ .unreachable, _ => some ⟨⟨.unreachable, [], none⟩, []⟩
  | _, _ => none

/-- What edits with their replies add to a block, in order. -/
def parts (calls : List (Edit × Reply)) (b : BlockId) : List Part :=
  (calls.filter (·.1.writesTo b)).filterMap fun c => c.1.part? c.2

/-- The reply to an edit, in a draft with so many values and blocks. -/
def reply (values blocks : Nat) : Edit → Reply
  | declare _ | define _ _ _ _ => .value (.ofIndex values)
  | addBlock _ => .block (.ofIndex blocks)
  | setEntry _ | push _ _ | finish _ _ => .done

theorem writesTo_iff {b : BlockId} {e : Edit} : e.writesTo b = true ↔ e.block? = some b := by
  rw [writesTo, beq_iff_eq]

theorem part?_finish (b : BlockId) (ending : Ending) (r : Reply) :
    part? (finish b ending) r = some ⟨ending.instruction, ending.targets⟩ := by
  cases ending <;> rfl

theorem parts_of_unwritten {calls : List (Edit × Reply)} {b : BlockId}
    (h : ∀ c ∈ calls, c.1.block? ≠ some b) : parts calls b = [] := by
  have hnone : calls.filter (·.1.writesTo b) = [] :=
    List.filter_eq_nil_iff.mpr fun c hc hw => h c hc (writesTo_iff.mp hw)
  rw [parts, hnone, List.filterMap_nil]

theorem parts_concat_of_unwritten {e : Edit} {b : BlockId} (h : e.block? ≠ some b)
    (calls : List (Edit × Reply)) (r : Reply) : parts (calls ++ [(e, r)]) b = parts calls b := by
  simp [parts, writesTo, h]

theorem parts_concat {e : Edit} {r : Reply} {b : BlockId} {p : Part} (hb : e.block? = some b)
    (hp : e.part? r = some p) (calls : List (Edit × Reply)) :
    parts (calls ++ [(e, r)]) b = parts calls b ++ [p] := by
  simp [parts, writesTo, hb, hp]

theorem mem_parts_iff {calls : List (Edit × Reply)} {b : BlockId} {p : Part} :
    p ∈ parts calls b ↔ ∃ e r, (e, r) ∈ calls ∧ e.block? = some b ∧ e.part? r = some p := by
  simp [parts, writesTo_iff, and_assoc]

theorem filterMap_declared_filter (edits : List Edit) :
    (edits.filter declaresValue).filterMap declared? = edits.filterMap declared? := by
  have hsame : (fun e => if declaresValue e then declared? e else none) = declared? :=
    funext fun e => by cases e <;> rfl
  rw [List.filterMap_filter, hsame]

theorem filterMap_concat {α : Type} (f : Edit → Option α) (calls : List (Edit × Reply)) (e : Edit)
    (r : Reply) :
    (calls ++ [(e, r)]).filterMap (fun c => f c.1) = calls.filterMap (fun c => f c.1) ++ (f e).toList := by
  cases h : f e <;> simp [h]

theorem length_filterMap_declared (edits : List Edit) :
    (edits.filterMap declared?).length = valuesDeclared edits := by
  rw [List.length_filterMap_eq_countP, valuesDeclared]
  refine List.countP_congr fun e _ => ?_
  cases e <;> simp [declared?, declaresValue]

theorem length_filterMap_added (edits : List Edit) :
    (edits.filterMap added?).length = blocksAdded edits := by
  rw [List.length_filterMap_eq_countP, blocksAdded]
  refine List.countP_congr fun e _ => ?_
  cases e <;> simp [added?, addsBlock]

end Edit

/-! ## Adding parts to a block -/

namespace Block

open Edit

def add (b : Block) (p : Part) : Block := (b.append p.instr).connectAll p.targets

theorem name_connectAll : ∀ (targets : List BlockId) (b : Block), (b.connectAll targets).name = b.name
  | [], _ => rfl
  | t :: targets, b => by
    have hname : (b.connect t).name = b.name := by
      unfold connect
      split <;> rfl
    exact (name_connectAll targets (b.connect t)).trans hname

theorem name_foldl_add : ∀ (ps : List Part) (b : Block), (ps.foldl add b).name = b.name
  | [], _ => rfl
  | p :: ps, b => (name_foldl_add ps (b.add p)).trans (name_connectAll p.targets (b.append p.instr))

theorem instrs_foldl_add : ∀ (ps : List Part) (b : Block),
    (ps.foldl add b).instrs = b.instrs ++ ps.map Part.instr
  | [], b => by simp
  | p :: ps, b => by
    rw [List.foldl_cons, instrs_foldl_add ps, add, instrs_connectAll, instrs_append]
    simp

theorem succs_connect {b : Block} {ts : List BlockId} (h : b.succs = ts.eraseDups) (t : BlockId) :
    (b.connect t).succs = (ts ++ [t]).eraseDups := by
  have hmem : t ∈ b.succs ↔ t ∈ ts := by rw [h, List.mem_eraseDups]
  rw [List.eraseDups_append, List.cons_removeAll]
  unfold connect
  split
  · rename_i ht
    simp [h, hmem.mp ht]
  · rename_i ht
    have hone : [t].eraseDups = [t] := by rw [List.eraseDups_cons, List.filter_nil, List.eraseDups_nil]
    simp [h, mt hmem.mpr ht, hone]

theorem succs_connectAll : ∀ (targets : List BlockId) {b : Block} {ts : List BlockId},
    b.succs = ts.eraseDups → (b.connectAll targets).succs = (ts ++ targets).eraseDups
  | [], b, ts, h => by rw [List.append_nil]; exact h
  | t :: targets, b, ts, h => by
    have ih := succs_connectAll targets (succs_connect h t)
    rw [List.append_assoc] at ih
    exact ih

/-- The successors after adding parts: every target named so far, at the place where it was first named. -/
theorem succs_foldl_add : ∀ (ps : List Part) {b : Block} {ts : List BlockId}, b.succs = ts.eraseDups →
    (ps.foldl add b).succs = (ts ++ ps.flatMap Part.targets).eraseDups
  | [], b, ts, h => by simpa using h
  | p :: ps, b, ts, h => by
    have hadd : (b.add p).succs = (ts ++ p.targets).eraseDups := succs_connectAll p.targets h
    rw [List.foldl_cons, succs_foldl_add ps hadd, List.flatMap_cons, List.append_assoc]

end Block

namespace Draft

open Edit

variable {d d' : Draft} {e : Edit} {r : Reply} {name : String} {edits : List Edit}
  {calls : List (Edit × Reply)}

theorem name_apply (d : Draft) (e : Edit) : (d.apply e).1.name = d.name := by
  have hdeclare : ∀ name, (d.declare name).1.name = d.name := by
    intro name
    unfold declare
    split <;> rfl
  have hwrite : ∀ (d : Draft) block i targets, (d.write block i targets).name = d.name := by
    intro d block i targets
    unfold write
    split <;> rfl
  cases e with
  | declare name => exact hdeclare name
  | addBlock name =>
    show (d.addBlock name).1.name = d.name
    unfold addBlock
    split <;> rfl
  | setEntry block => rfl
  | push block i => exact hwrite ..
  | define block opcode args name => exact (hwrite ..).trans (hdeclare name)
  | finish block ending => exact hwrite ..

theorem name_run : ∀ (edits : List Edit) (d : Draft), (d.run edits).name = d.name
  | [], _ => rfl
  | e :: edits, d => (name_run edits (d.apply e).1).trans (name_apply d e)

/-! ## Edits that cause no fault -/

theorem fault_of_apply (h : (d.apply e).1.fault = none) : d.fault = none := by
  refine Option.eq_none_iff_forall_ne_some.mpr fun x hx => ?_
  rw [fault_apply_of_fault hx e] at h
  cases h

theorem size_values_lt (h : (d.declare name).1.fault = none) : d.values.size < idLimit := by
  unfold declare at h
  split at h
  · assumption
  · simp [blame] at h

theorem size_blocks_lt (h : (d.addBlock name).1.fault = none) : d.blocks.size < idLimit := by
  unfold addBlock at h
  split at h
  · assumption
  · simp [blame] at h

theorem fault_of_write {block : BlockId} {i : Instruction} {targets : List BlockId}
    (h : (d.write block i targets).fault = none) : d.fault = none ∧ block.index < d.blocks.size := by
  rw [fault_write, Option.or_eq_none_iff] at h
  refine ⟨h.1, ?_⟩
  have hle := h.2
  split at hle
  · cases hle
  · omega

theorem blocks_write {block : BlockId} (h : block.index < d.blocks.size) (p : Part) :
    (d.write block p.instr p.targets).blocks = d.blocks.modify block.index (·.add p) := by
  rw [write, if_pos h]
  rfl

theorem apply_define (d : Draft) (block : BlockId) (opcode : Opcode) (args : List Operand) (name : String) :
    d.apply (.define block opcode args name) =
      ((d.declare name).1.write block ⟨opcode, args, some (d.declare name).2⟩ [], .value (d.declare name).2) :=
  rfl

/-- An edit that causes no fault replies with the next free id of its kind. -/
theorem reply_apply (h : (d.apply e).1.fault = none) :
    (d.apply e).2 = e.reply d.values.size d.blocks.size := by
  cases e with
  | declare name =>
    show Reply.value (d.declare name).2 = _
    rw [declare, if_pos (size_values_lt h)]
    rfl
  | addBlock name =>
    show Reply.block (d.addBlock name).2 = _
    rw [addBlock, if_pos (size_blocks_lt h)]
    rfl
  | setEntry | push | finish => rfl
  | define block opcode args name =>
    rw [apply_define] at h
    show Reply.value (d.declare name).2 = _
    rw [declare, if_pos (size_values_lt (fault_of_write h).1)]
    rfl

/-! ## What a draft holds of the edits so far -/

/-- The tables of the draft, told from the edits it went through and their replies. -/
structure Mirrors (d : Draft) (calls : List (Edit × Reply)) : Prop where
  values : d.values.toList = calls.filterMap (·.1.declared?)
  size_blocks : d.blocks.size = (calls.filterMap (·.1.added?)).length
  known : ∀ c ∈ calls, ∀ b, c.1.block? = some b → b.index < d.blocks.size
  blocks : ∀ b : BlockId, d.blocks[b.index]? =
    (calls.filterMap (·.1.added?))[b.index]?.map fun name => (parts calls b).foldl Block.add (.named name)

namespace Mirrors

theorem empty (name : String) : (Draft.empty name).Mirrors [] where
  values := rfl
  size_blocks := rfl
  known _ hc := by simp at hc
  blocks _ := rfl

theorem known_concat (h : d.Mirrors calls) (hsize : d.blocks.size ≤ d'.blocks.size)
    (he : ∀ b, e.block? = some b → b.index < d'.blocks.size) :
    ∀ c ∈ calls ++ [(e, r)], ∀ b, c.1.block? = some b → b.index < d'.blocks.size := by
  intro c hc b hcb
  rcases List.mem_append.mp hc with hc | hc
  · exact Nat.lt_of_lt_of_le (h.known c hc b hcb) hsize
  · rw [List.mem_singleton.mp hc] at hcb
    exact he b hcb

/-- An edit that leaves the blocks alone. -/
theorem keep (h : d.Mirrors calls) (hb : e.block? = none) (ha : e.added? = none)
    (hvalues : d'.values.toList = d.values.toList ++ e.declared?.toList) (hblocks : d'.blocks = d.blocks) :
    d'.Mirrors (calls ++ [(e, r)]) where
  values := by rw [hvalues, h.values, filterMap_concat]
  size_blocks := by simp [hblocks, h.size_blocks, ha]
  known := h.known_concat (by simp [hblocks]) (by simp [hb])
  blocks b := by
    rw [hblocks, h.blocks, filterMap_concat, parts_concat_of_unwritten (by simp [hb]), ha, Option.toList_none,
      List.append_nil]

theorem addBlock (h : d.Mirrors calls) (hvalues : d'.values = d.values)
    (hblocks : d'.blocks = d.blocks.push (.named name)) : d'.Mirrors (calls ++ [(.addBlock name, r)]) where
  values := by simp [hvalues, h.values, declared?]
  size_blocks := by simp [hblocks, h.size_blocks, added?]
  known := h.known_concat (by simp [hblocks]) (by simp [block?])
  blocks b := by
    rw [hblocks, Array.getElem?_push, h.size_blocks, filterMap_concat, parts_concat_of_unwritten (by simp [block?])]
    split
    · -- The new block. No edit wrote to it before, because it was not there.
      rename_i hnew
      have hnone : parts calls b = [] := by
        refine parts_of_unwritten fun c hc hcb => ?_
        have hlt := h.known c hc b hcb
        rw [h.size_blocks] at hlt
        omega
      rw [hnone, hnew]
      simp [added?]
    · rename_i hold
      rw [h.blocks]
      by_cases hlt : b.index < (calls.filterMap (·.1.added?)).length
      · rw [List.getElem?_append_left hlt]
      · rw [List.getElem?_eq_none (by omega), List.getElem?_eq_none]
        rw [List.length_append]
        exact Nat.succ_le_of_lt (by omega)

theorem write {p : Part} {block : BlockId} (h : d.Mirrors calls) (hb : e.block? = some block)
    (hp : e.part? r = some p) (ha : e.added? = none) (hlt : block.index < d.blocks.size)
    (hvalues : d'.values.toList = d.values.toList ++ e.declared?.toList)
    (hblocks : d'.blocks = d.blocks.modify block.index (·.add p)) : d'.Mirrors (calls ++ [(e, r)]) where
  values := by rw [hvalues, h.values, filterMap_concat]
  size_blocks := by simp [hblocks, h.size_blocks, ha]
  known := by
    have hsize : d'.blocks.size = d.blocks.size := by rw [hblocks, Array.size_modify]
    refine h.known_concat (Nat.le_of_eq hsize.symm) fun b hcb => ?_
    rw [hb] at hcb
    cases hcb
    rw [hsize]
    exact hlt
  blocks b := by
    rw [hblocks, Array.getElem?_modify, h.blocks, filterMap_concat, ha, Option.toList_none, List.append_nil]
    by_cases hbb : block = b
    · subst hbb
      rw [if_pos rfl, parts_concat hb hp, Option.map_map]
      simp only [List.foldl_append, List.foldl_cons, List.foldl_nil]
      rfl
    · have hindex : block.index ≠ b.index := fun hi => hbb (BlockId.eq_of_index_eq hi)
      rw [if_neg hindex, parts_concat_of_unwritten (by simp [hb, hbb])]

/-- As long as it causes no fault, an edit adds to the draft what it says and nothing else. -/
theorem apply (h : d.Mirrors calls) (hno : (d.apply e).1.fault = none) :
    (d.apply e).1.Mirrors (calls ++ [(e, (d.apply e).2)]) := by
  cases e with
  | declare name =>
    refine h.keep rfl rfl ?_ (blocks_declare d name)
    show (d.declare name).1.values.toList = _
    rw [declare_fst (size_values_lt hno), Array.toList_push]
    rfl
  | addBlock name =>
    have hfst : (d.apply (.addBlock name)).1 = _ := addBlock_fst (size_blocks_lt hno) name
    exact h.addBlock (by rw [hfst]) (by rw [hfst])
  | setEntry block => exact h.keep rfl rfl (List.append_nil _).symm rfl
  | push block i =>
    obtain ⟨_, hlt⟩ := fault_of_write hno
    refine h.write rfl rfl rfl hlt ?_ (blocks_write hlt ⟨i, []⟩)
    exact (congrArg Array.toList (values_write ..)).trans (List.append_nil _).symm
  | define block opcode args name =>
    -- The value is declared first, which leaves the blocks as they are.
    rw [apply_define] at hno ⊢
    obtain ⟨hdeclare, hlt⟩ := fault_of_write hno
    have hblocks := blocks_write hlt ⟨⟨opcode, args, some (d.declare name).2⟩, []⟩
    rw [blocks_declare] at hlt hblocks
    refine h.write rfl rfl rfl hlt ?_ hblocks
    rw [values_write, declare_fst (size_values_lt hdeclare), Array.toList_push]
    rfl
  | finish block ending =>
    obtain ⟨_, hlt⟩ := fault_of_write hno
    refine h.write rfl (part?_finish block ending _) rfl hlt ?_ (blocks_write hlt ⟨_, _⟩)
    exact (congrArg Array.toList (values_write ..)).trans (List.append_nil _).symm

theorem map_name_blocks (h : d.Mirrors calls) (hd : d.Within) :
    d.blocks.toList.map Block.name = calls.filterMap (·.1.added?) := by
  have hsize := h.size_blocks
  have hlimit := hd.blocks
  refine List.ext_getElem? fun k => ?_
  by_cases hk : k < idLimit
  · obtain ⟨b, rfl⟩ := BlockId.exists_index_eq hk
    have hname : Block.name ∘ (fun name => (parts calls b).foldl Block.add (.named name)) = id :=
      funext fun _ => Block.name_foldl_add ..
    rw [List.getElem?_map, Array.getElem?_toList, h.blocks, Option.map_map, hname, Option.map_id_fun, id]
  · have hlength : (d.blocks.toList.map Block.name).length = d.blocks.size := List.length_map ..
    rw [List.getElem?_eq_none (by omega), List.getElem?_eq_none (by omega)]

theorem blocks_eq {calls' : List (Edit × Reply)} (h : d.Mirrors calls) (h' : d'.Mirrors calls')
    (hd : d.Within) (hd' : d'.Within)
    (hadded : calls.filterMap (·.1.added?) = calls'.filterMap (·.1.added?))
    (hparts : ∀ b, parts calls b = parts calls' b) : d.blocks = d'.blocks := by
  refine Array.ext_getElem? fun k => ?_
  by_cases hk : k < idLimit
  · obtain ⟨b, rfl⟩ := BlockId.exists_index_eq hk
    rw [h.blocks, h'.blocks, hadded, hparts]
  · have := hd.blocks
    have := hd'.blocks
    rw [Array.getElem?_eq_none (by omega), Array.getElem?_eq_none (by omega)]

end Mirrors

/-! ## What a sequence of edits leaves -/

/-- Edits to an empty draft, each with the reply it gets. -/
def log (name : String) (edits : List Edit) : List (Edit × Reply) :=
  edits.zip (((Draft.empty name).history edits).map Prod.fst)

theorem history_append : ∀ (es es' : List Edit) (d : Draft),
    d.history (es ++ es') = d.history es ++ (d.run es).history es'
  | [], _, _ => rfl
  | e :: es, es', d => congrArg (_ :: ·) (history_append es es' (d.apply e).1)

theorem length_history : ∀ (es : List Edit) (d : Draft), (d.history es).length = es.length
  | [], _ => rfl
  | e :: es, d => congrArg (· + 1) (length_history es (d.apply e).1)

theorem ofEdits_concat (name : String) (edits : List Edit) (e : Edit) :
    ofEdits name (edits ++ [e]) = ((ofEdits name edits).apply e).1 := run_append ..

theorem log_concat (name : String) (edits : List Edit) (e : Edit) :
    log name (edits ++ [e]) = log name edits ++ [(e, ((ofEdits name edits).apply e).2)] := by
  rw [log, history_append, List.map_append, List.zip_append (by simp [length_history])]
  rfl

theorem map_fst_log (name : String) (edits : List Edit) : (log name edits).map Prod.fst = edits :=
  List.map_fst_zip (by simp [length_history])

theorem filterMap_log {α : Type} (f : Edit → Option α) (name : String) (edits : List Edit) :
    (log name edits).filterMap (fun c => f c.1) = edits.filterMap f := by
  have h := List.filterMap_map (f := Prod.fst) (g := f) (l := log name edits)
  rw [map_fst_log] at h
  exact h.symm

theorem mirrors_ofEdits (h : (ofEdits name edits).fault = none) :
    (ofEdits name edits).Mirrors (log name edits) := by
  induction edits using List.reverseRecOn with
  | nil => exact .empty name
  | append_singleton edits e ih =>
    rw [ofEdits_concat] at h ⊢
    rw [log_concat]
    exact (ih (fault_of_apply h)).apply h

/-- A block has the parts of the edits to it. -/
theorem instrs_succs_ofEdits (h : (ofEdits name edits).fault = none) {id : BlockId} {b : Block}
    (hb : (ofEdits name edits).blocks[id.index]? = some b) :
    b.instrs = (parts (log name edits) id).map Part.instr ∧
      b.succs = ((parts (log name edits) id).flatMap Part.targets).eraseDups := by
  rw [(mirrors_ofEdits h).blocks, Option.map_eq_some_iff] at hb
  obtain ⟨block, _, rfl⟩ := hb
  have hempty : (Block.named block).succs = ([] : List BlockId).eraseDups := rfl
  exact ⟨Block.instrs_foldl_add .., Block.succs_foldl_add _ hempty⟩

/-- Where no fault turned up, there were ids enough. -/
theorem room_ofEdits (h : (ofEdits name edits).fault = none) : (Draft.empty name).Room edits := by
  have hmirror := mirrors_ofEdits h
  have hwithin := within_ofEdits name edits
  have hblocks : (ofEdits name edits).blocks.size = blocksAdded edits := by
    rw [hmirror.size_blocks, filterMap_log, length_filterMap_added]
  have hvalues : (ofEdits name edits).values.size = valuesDeclared edits := by
    rw [← Array.length_toList, hmirror.values, filterMap_log, length_filterMap_declared]
  refine ⟨?_, ?_⟩
  · show 0 + blocksAdded edits ≤ idLimit
    rw [Nat.zero_add, ← hblocks]
    exact hwithin.blocks
  · show 0 + valuesDeclared edits ≤ idLimit
    rw [Nat.zero_add, ← hvalues]
    exact hwithin.values

theorem getElem?_log (h : (ofEdits name edits).fault = none) {j : Nat} (he : edits[j]? = some e) :
    (log name edits)[j]? = some (e, e.reply (valuesDeclared (edits.take j)) (blocksAdded (edits.take j))) := by
  induction edits using List.reverseRecOn with
  | nil => simp at he
  | append_singleton edits e' ih =>
    rw [ofEdits_concat] at h
    have hbefore := fault_of_apply h
    have hlength : (log name edits).length = edits.length := by
      rw [← List.length_map Prod.fst, map_fst_log]
    rw [log_concat]
    by_cases hj : j < edits.length
    · rw [List.getElem?_append_left hj] at he
      rw [List.getElem?_append_left (by omega), List.take_append_of_le_length (by omega)]
      exact ih hbefore he
    · -- The last edit, which sees the draft that all the others left.
      have hj' : j = edits.length := by
        have hlt := (List.getElem?_eq_some_iff.mp he).1
        rw [List.length_append, List.length_singleton] at hlt
        omega
      subst hj'
      have hroom := room_ofEdits hbefore
      rw [List.getElem?_concat_length, Option.some.injEq] at he
      rw [List.take_left, ← hlength, List.getElem?_concat_length, he, reply_apply (he ▸ h),
        size_values_ofEdits hroom, size_blocks_ofEdits hroom]

end Draft

end LiveVars
