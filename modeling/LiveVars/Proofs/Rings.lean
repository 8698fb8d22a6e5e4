/-
Rings of every length, from the edits to the counts of whole runs. A ring is a script
whose bodies fit, so it is built, and its equations are those of a circle, whether or not
the reads of terminators count. What is live and how long a run takes is then read off
the circle.
-/
import LiveVars.Proofs.Circular
import LiveVars.Proofs.Predecessors
import LiveVars.Proofs.Scripts

namespace LiveVars

namespace Sample

variable {len : Nat} {v : ValueId}

/-- The instruction of block `i` of a ring. -/
def ringInstr (i : Nat) : Instruction :=
  if i = 0 then ⟨.add, [.value acc, .const (.int 1)], some tmp⟩
  else ⟨.mul, [.value tmp, .const (.int 2)], some tmp⟩

/-- What block `i` of a ring holds. -/
def ringBody (len i : Nat) : Body := ⟨[ringInstr i], some (.br (.ofIndex ((i + 1) % len)))⟩

/-! ## The instruction of a block -/

theorem isTerminator_ringInstr (i : Nat) : (ringInstr i).isTerminator = false := by
  unfold ringInstr
  split <;> rfl

theorem result_ringInstr (i : Nat) : (ringInstr i).result = some tmp := by
  unfold ringInstr
  split <;> rfl

theorem mem_args_ringInstr {i : Nat} : Operand.value v ∈ (ringInstr i).args ↔ v = if i = 0 then acc else tmp := by
  unfold ringInstr
  split <;> simp

theorem written_ringBody (len i : Nat) : (ringBody len i).written = [ringInstr i, ⟨.br, [], none⟩] := rfl

theorem targets_ringBody (len i : Nat) : (ringBody len i).targets = [.ofIndex ((i + 1) % len)] := rfl

/-! ## Building it -/

theorem ringEdits_eq_script (len : Nat) :
    ringEdits len = script ["acc", "tmp"] ((List.range len).map (s!"r{·}")) (ringBody len) := by
  have hblock : ∀ i, ringBlock len i = (ringBody len i).edits (.ofIndex i) := fun i => by
    by_cases hi : i = 0 <;> simp [ringBlock, ringBody, ringInstr, Body.edits, Edit.assign, hi]
  rw [ringEdits, script, List.length_map, List.length_range, List.map_map, funext hblock]
  rfl

theorem fits_ringBody (hpos : 0 < len) (hlen : len ≤ idLimit) (i : Nat) : (ringBody len i).Fits 2 len where
  plain j hj := by
    obtain rfl := List.mem_singleton.mp hj
    exact isTerminator_ringInstr i
  declared j hj v hv := by
    have hlt : acc.index < 2 ∧ tmp.index < 2 := by decide
    rw [written_ringBody, List.mem_pair] at hj
    rcases hj with rfl | rfl
    · rw [Instruction.mem_mentions, mem_args_ringInstr, result_ringInstr, Option.some.injEq] at hv
      rcases hv with rfl | rfl
      · split
        · exact hlt.1
        · exact hlt.2
      · exact hlt.2
    · cases hv
  targets_lt t ht := by
    have hlt := Nat.mod_lt (i + 1) hpos
    rw [targets_ringBody, List.mem_singleton] at ht
    rw [ht, BlockId.index_ofIndex (Nat.lt_of_lt_of_le hlt hlen)]
    exact hlt

theorem exists_ring (hpos : 1 ≤ len) (hlen : len ≤ idLimit) : ∃ f, ring len = .ok f ∧
    f.Transcribes s!"ring_{len}" ["acc", "tmp"] ((List.range len).map (s!"r{·}")) (ringBody len) := by
  have hvalues : ["acc", "tmp"].length ≤ idLimit := by decide
  have hcount : ((List.range len).map (s!"r{·}")).length = len := by simp
  have hfits : ∀ i < ((List.range len).map (s!"r{·}")).length,
      (ringBody len i).Fits ["acc", "tmp"].length ((List.range len).map (s!"r{·}")).length := fun i _ => by
    rw [hcount]
    exact fits_ringBody hpos hlen i
  obtain ⟨f, hf, ht⟩ := Draft.build_script (by rwa [hcount]) hvalues (by rwa [hcount]) s!"ring_{len}" hfits
  refine ⟨f, ?_, ht⟩
  rw [ring, ringDraft, Nat.max_eq_left hpos, ringEdits_eq_script]
  exact hf

/-! ## Its equations -/

section Equations

variable {f : Function} {name : String} {names : List String}

theorem succs_ring (hlen : f.blockCount ≤ idLimit)
    (ht : f.Transcribes name ["acc", "tmp"] names (ringBody f.blockCount)) (b : Fin f.blockCount) :
    f.graph.succs.get b = [next b] := by
  have hsuccs : (f.block b).succs = [.ofIndex ((b + 1) % f.blockCount)] := ht.succs b
  rw [← f.map_ofIndex_succsOf b, List.map_eq_singleton_iff] at hsuccs
  obtain ⟨s, hs, hindex⟩ := hsuccs
  have hnext := (next b).isLt
  have hval : s.val = (next b).val := by
    rw [← BlockId.index_ofIndex (Nat.lt_of_lt_of_le s.isLt hlen), hindex]
    exact BlockId.index_ofIndex (Nat.lt_of_lt_of_le hnext hlen)
  rw [Function.get_succs_graph, hs, Fin.ext hval]

theorem circular_equations (hlen : f.blockCount ≤ idLimit)
    (ht : f.Transcribes name ["acc", "tmp"] names (ringBody f.blockCount)) (policy : TerminatorReads) :
    (f.equations policy).Circular where
  entry := by
    show f.entry.index = 0
    rw [ht.entry]
    rfl
  succs := succs_ring hlen ht
  mem_uses b v := by
    rw [Function.mem_uses_iff, Block.Reads, ht.instrs, written_ringBody]
    simp [isTerminator_ringInstr, mem_args_ringInstr]
  mem_defs b v := by
    rw [Function.mem_defs_iff, Block.Defines, ht.instrs, written_ringBody]
    simp [isTerminator_ringInstr, result_ringInstr, @eq_comm _ tmp]

end Equations

/-! ## The ring as a whole -/

/-- **Rings in closed form.** A ring of any length is built. Under all settings `acc` is live everywhere and
`tmp` at every boundary but that from the last block to the first. Sweeps along the layout, which is also the
search's way through, number one more than the blocks; against it three are enough, as they are for a single
block; and there the queue visits every block twice and one block a third time. -/
theorem ring_closed_form (len : Nat) (hpos : 1 ≤ len) (hlen : len ≤ idLimit) : ∃ f, ring len = .ok f ∧
    f.blockCount = len ∧ f.blocks.toList.map Block.name = (List.range len).map (s!"r{·}") ∧
    f.values.toList = ["acc", "tmp"] ∧
    (∀ (c : Settings) (b : Fin f.blockCount) (v : ValueId),
      (v ∈ (f.liveness c).liveIn.get b ↔ v = acc ∨ v = tmp ∧ b.val ≠ 0) ∧
      (v ∈ (f.liveness c).liveOut.get b ↔ v = acc ∨ v = tmp ∧ b.val ≠ len - 1)) ∧
    ∀ policy : TerminatorReads,
      let sweeps := fun o => (f.liveness ⟨.roundRobin, o, policy⟩).stats.sweeps
      let visits := fun o => (f.liveness ⟨.worklist, o, policy⟩).stats.visits
      (2 ≤ len → sweeps .layout = len + 1 ∧ sweeps .reversePostorder = len + 1 ∧
        sweeps .reverseLayout = 3 ∧ sweeps .postorder = 3) ∧
      (len = 1 → ∀ o, sweeps o = 3) ∧
      visits .reverseLayout = 2 * len + 1 ∧ visits .postorder = 2 * len + 1 := by
  obtain ⟨f, hf, ht⟩ := exists_ring hpos hlen
  obtain rfl : f.blockCount = len := by simpa using ht.blockCount
  refine ⟨f, hf, rfl, ht.blockNames, ht.values, fun c b v => ?_, fun policy => ?_⟩
  · have hc := circular_equations hlen ht c.terminatorReads
    have hexact := f.exact_solve c
    have hlast : b.val ≠ f.blockCount - 1 ↔ b.val + 1 ≠ f.blockCount := by omega
    rw [hlast]
    exact ⟨(hexact.liveIn b v).trans hc.readAhead_iff_ring, (hexact.liveOut b v).trans hc.readAfter_iff_ring⟩
  · have hc := circular_equations hlen ht policy
    intro sweeps visits
    obtain ⟨halong, hagainst⟩ := Graph.visits_circle hc.entry hc.succs
    have hthree : sweeps .reverseLayout = 3 := RoundRobin.sweeps_reverseLayout hc
    have hvisits : visits .reverseLayout = 2 * f.blockCount + 1 := Worklist.visits_reverseLayout hc
    -- a run knows the order only by the list of blocks it comes to
    have hsweeps : ∀ {o o'}, f.graph.visits o = f.graph.visits o' → sweeps o = sweeps o' :=
      congrArg fun order => (RoundRobin.solve (f.equations policy) order).stats.sweeps
    have hpost : visits .postorder = visits .reverseLayout :=
      congrArg (fun order => (Worklist.solve (f.equations policy) order).stats.visits) hagainst
    refine ⟨fun htwo => ?_, fun hone => ?_, hvisits, hpost.trans hvisits⟩
    · have hmany : sweeps .layout = f.blockCount + 1 := RoundRobin.sweeps_layout hc htwo
      exact ⟨hmany, (hsweeps halong).trans hmany, hthree, (hsweeps hagainst).trans hthree⟩
    · have hsame : f.graph.visits .layout = f.graph.visits .reverseLayout := by
        obtain ⟨b, hb⟩ := List.length_eq_one_iff.mp (List.length_finRange.trans hone)
        show List.finRange f.blockCount = (List.finRange f.blockCount).reverse
        rw [hb]
        rfl
      intro o
      cases o with
      | layout => exact (hsweeps hsame).trans hthree
      | reverseLayout => exact hthree
      | postorder => exact (hsweeps hagainst).trans hthree
      | reversePostorder => exact (hsweeps (halong.trans hsame)).trans hthree

theorem ring_closed_form_sixtyFour : (1 ≤ 64 ∧ 64 ≤ idLimit) ∧ ∃ f, ring 64 = .ok f ∧
    (f.liveness ⟨.roundRobin, .layout, .tracked⟩).stats.sweeps = 65 ∧
    (f.liveness ⟨.roundRobin, .reversePostorder, .tracked⟩).stats.sweeps = 65 ∧
    (f.liveness ⟨.roundRobin, .reverseLayout, .tracked⟩).stats.sweeps = 3 ∧
    (f.liveness ⟨.worklist, .postorder, .tracked⟩).stats.visits = 129 := by
  obtain ⟨f, hf, _, _, _, _, hruns⟩ := ring_closed_form 64 (by decide) (by decide)
  obtain ⟨hsweeps, _, _, hvisits⟩ := hruns .tracked
  obtain ⟨hlayout, hrpo, hreverse, _⟩ := hsweeps (by decide)
  exact ⟨by decide, f, hf, hlayout, hrpo, hreverse, hvisits⟩

/-- Along the layout a ring takes the most sweeps that its size allows, so its visits are the first to outgrow
their count. -/
theorem visits_ring_layout (htwo : 2 ≤ len) (hlen : len ≤ idLimit) (policy : TerminatorReads) :
    ∃ f, ring len = .ok f ∧
      (f.liveness ⟨.roundRobin, .layout, policy⟩).stats.visits = (len + 1) * len % UInt64.size := by
  obtain ⟨f, hf, ht⟩ := exists_ring (by omega) hlen
  obtain rfl : f.blockCount = len := by simpa using ht.blockCount
  have hvisits := RoundRobin.visits_solve_eq (f.equations policy) (List.finRange f.blockCount)
  rw [RoundRobin.sweeps_layout (circular_equations hlen ht policy) htwo, List.length_finRange] at hvisits
  exact ⟨f, hf, hvisits⟩

/-- That is in the largest ring: of its count, no more is left than one visit for each block. -/
example : (idLimit + 1) * idLimit % UInt64.size = idLimit := by decide

end Sample

end LiveVars
