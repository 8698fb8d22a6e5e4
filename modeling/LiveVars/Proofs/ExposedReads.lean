/-
The live sets held against single instructions. A read is exposed to a block when a route
from the block leads to it and no instruction met before it, in the blocks left or in its
own block, has the value as its result. An exposed read makes its value live.

The converse fails in general, because the use set of a block forgets where its reads
stand: a read behind a definition in the same block counts all the same. It holds for a
value that each block reads no later than it first defines it. A route then ends at the
first read of its last block. The blocks it leaves define nothing on the way, and their
terminators, which no definition set looks at, are branches without a result: this is
where it matters that the function was built by edits.
-/
import LiveVars.Proofs.LiveSets
import LiveVars.Proofs.WrittenBlocks

namespace LiveVars

namespace Block

variable {policy : TerminatorReads} {b : Block} {v : ValueId}

/-- The position of the first instruction whose counted reads include `v`; the number of instructions if
there is none. -/
def firstRead (policy : TerminatorReads) (b : Block) (v : ValueId) : Nat :=
  b.instrs.findIdx fun i => i.counts policy && decide (Operand.value v ∈ i.args)

/-- The position of the first instruction with result `v`; the number of instructions if there is none. -/
def firstResult (b : Block) (v : ValueId) : Nat := b.instrs.findIdx fun i => i.result == some v

theorem getElem?_firstRead (h : b.Reads policy v) : ∃ i, b.instrs[b.firstRead policy v]? = some i ∧
    (i.isTerminator = false ∨ policy = .tracked) ∧ Operand.value v ∈ i.args := by
  obtain ⟨i, hi, hcounts, hargs⟩ := h
  have hlt : b.firstRead policy v < b.instrs.length :=
    List.findIdx_lt_length_of_exists ⟨i, hi, by simp [Instruction.counts_iff.mpr hcounts, hargs]⟩
  have hfirst := List.getElem?_eq_getElem hlt
  have hp := List.findIdx_of_getElem?_eq_some hfirst
  rw [Bool.and_eq_true, Instruction.counts_iff, decide_eq_true_iff] at hp
  exact ⟨_, hfirst, hp⟩

theorem result_ne_of_lt_firstResult {j : Nat} (hj : j ≤ b.firstResult v) :
    ∀ i ∈ b.instrs.take j, i.result ≠ some v := by
  intro i hi
  obtain ⟨k, hk, rfl⟩ := List.mem_take_iff_getElem.mp hi
  have hlt : k < b.firstResult v := by omega
  simpa using List.not_of_lt_findIdx hlt

end Block

namespace Function

variable {f : Function} {policy : TerminatorReads} {v : ValueId}

/-- A route from `b` leads to an instruction whose counted reads include `v`, and no instruction met
before it has result `v`. -/
def ExposedRead (f : Function) (policy : TerminatorReads) (v : ValueId) (b : Fin f.blockCount) : Prop :=
  ∃ passed c j i, f.Route b passed c ∧ (f.block c).instrs[j]? = some i ∧
    (i.isTerminator = false ∨ policy = .tracked) ∧ Operand.value v ∈ i.args ∧
    (∀ p ∈ passed, ∀ i' ∈ (f.block p).instrs, i'.result ≠ some v) ∧
    ∀ i' ∈ (f.block c).instrs.take j, i'.result ≠ some v

theorem ExposedRead.readAhead {b : Fin f.blockCount} (h : f.ExposedRead policy v b) :
    f.ReadAhead policy v b := by
  obtain ⟨passed, c, j, i, hw, hi, hcounts, hargs, hpassed, _⟩ := h
  refine ⟨passed, c, hw, ⟨i, List.mem_of_getElem? hi, hcounts, hargs⟩, fun p hp hdef => ?_⟩
  obtain ⟨i', hi', _, hres⟩ := hdef
  exact hpassed p hp i' hi' hres

/-- Where edits wrote the function, a block left on a route has no result but those it defines. -/
theorem result_ne_of_not_defines {b c : Fin f.blockCount} {passed : List (Fin f.blockCount)}
    (hf : ∀ b, (f.block b).Written) (hr : f.Route b passed c) {p : Fin f.blockCount} (hp : p ∈ passed)
    (hdef : ¬ (f.block p).Defines v) : ∀ i ∈ (f.block p).instrs, i.result ≠ some v := by
  intro i hi hres
  cases ht : i.isTerminator with
  | false => exact hdef ⟨i, hi, ht, hres⟩
  | true =>
    obtain ⟨s, he⟩ := (walk_iff_route.mpr hr).exists_edge p hp
    obtain ⟨t, hsucc, _⟩ := edge_iff.mp he
    have hnone :=
      (hf p).result_of_terminator (f.valid.blocks _ (f.block_mem p)) (List.ne_nil_of_mem hsucc) hi ht
    rw [hnone] at hres
    cases hres

theorem ReadAhead.exposedRead {b : Fin f.blockCount} (hf : ∀ b, (f.block b).Written)
    (hfirst : ∀ d, (f.block d).Reads policy v → (f.block d).firstRead policy v ≤ (f.block d).firstResult v)
    (h : f.ReadAhead policy v b) : f.ExposedRead policy v b := by
  obtain ⟨passed, c, hw, hreads, hdef⟩ := h
  obtain ⟨i, hi, hcounts, hargs⟩ := Block.getElem?_firstRead hreads
  refine ⟨passed, c, _, i, hw, hi, hcounts, hargs, fun p hp => ?_, ?_⟩
  · exact result_ne_of_not_defines hf hw hp (hdef p hp)
  · exact Block.result_ne_of_lt_firstResult (hfirst c hreads)

/-- **Live sets and exposed reads.** In a function built by edits, a value with an exposed read is
live; and a live value has one, if each block that uses it first reads it no later than it first
defines it. -/
theorem liveIn_exposedRead {name : String} {edits : List Edit} {f : Function}
    (hf : (Draft.ofEdits name edits).build = .ok f) (c : Settings) (b : Fin f.blockCount) (v : ValueId) :
    (f.ExposedRead c.terminatorReads v b → v ∈ (f.liveness c).liveIn.get b) ∧
      (v ∈ (f.liveness c).liveIn.get b →
        (∀ d : Fin f.blockCount, v ∈ (f.liveness c).uses.get d →
          (f.block d).firstRead c.terminatorReads v ≤ (f.block d).firstResult v) →
        f.ExposedRead c.terminatorReads v b) := by
  refine ⟨fun h => mem_liveIn_iff.mpr h.readAhead, fun hlive hfirst => ?_⟩
  refine (mem_liveIn_iff.mp hlive).exposedRead (Draft.written_of_build hf) fun d hd => ?_
  exact hfirst d (mem_uses_iff.mpr hd)

/-- The second block of the ring does not read `acc` itself; the read that makes it live there is in the
first block. -/
theorem liveIn_exposedRead_ring : ∃ f, (Draft.ofEdits "ring" (Sample.ringEdits 2)).build = .ok f ∧
    ∃ b : Fin f.blockCount, ¬ Sample.acc ∈ (f.liveness .default).uses.get b ∧
      Sample.acc ∈ (f.liveness .default).liveIn.get b ∧
      (∀ d : Fin f.blockCount, Sample.acc ∈ (f.liveness .default).uses.get d →
        (f.block d).firstRead .ignored Sample.acc ≤ (f.block d).firstResult Sample.acc) ∧
      f.ExposedRead .ignored Sample.acc b := by
  have hf : (Draft.ofEdits "ring" (Sample.ringEdits 2)).build = .ok _ := rfl
  refine ⟨_, hf, (1 : Fin 2), ?_, ?_, ?_, ?_⟩
  · decide +kernel
  · decide +kernel
  · decide +kernel
  · exact (liveIn_exposedRead hf .default _ _).2 (by decide +kernel) (by decide +kernel)

end Function

end LiveVars
