/-
What the live sets of a function are: a value is live before a block exactly when some
route along stored successors leads from the block to an instruction that reads it, past
blocks that do not define it, and live after a block exactly when it is live before a
successor. The settings play
no part in this but for the reads of terminators, so solvers and orders agree; and a
table of sets that satisfies the equations holds the live sets, and nothing else where
there are no cycles.

Both solvers end with the exact facts (`RoundRobin.exact_solve`, `Worklist.exact_solve`),
and every order they are given has every block. The rest is reading `Equations.ReadAhead`
in terms of instructions, and the check of a result in terms of `Equations.Settled`.
-/
import LiveVars.Liveness.Basic
import LiveVars.Proofs.Queue
import LiveVars.Proofs.Sweeps
import LiveVars.Proofs.VisitOrder
import LiveVars.Sample.Ring

namespace LiveVars

/-! ## Reading ahead, instruction by instruction -/

namespace Block

/-- An instruction of the block reads `v`, and its reads count. -/
def Reads (policy : TerminatorReads) (b : Block) (v : ValueId) : Prop :=
  ∃ i ∈ b.instrs, (i.isTerminator = false ∨ policy = .tracked) ∧ Operand.value v ∈ i.args

/-- An instruction of the block that is not a terminator has result `v`. -/
def Defines (b : Block) (v : ValueId) : Prop :=
  ∃ i ∈ b.instrs, i.isTerminator = false ∧ i.result = some v

end Block

theorem Instruction.counts_iff {policy : TerminatorReads} {i : Instruction} :
    i.counts policy = true ↔ i.isTerminator = false ∨ policy = .tracked := by
  cases policy <;> simp [counts]

namespace Function

variable {f : Function} {policy : TerminatorReads} {v : ValueId}

/-- A route from `b` leads to a block that reads `v`, and no block left on the way defines it. -/
def ReadAhead (f : Function) (policy : TerminatorReads) (v : ValueId) (b : Fin f.blockCount) : Prop :=
  ∃ passed c, f.Route b passed c ∧ (f.block c).Reads policy v ∧
    ∀ p ∈ passed, ¬ (f.block p).Defines v

theorem mem_uses_iff {b : Fin f.blockCount} :
    v ∈ (f.equations policy).uses.get b ↔ (f.block b).Reads policy v := by
  rw [equations_uses, Block.mem_uses]
  simp only [Instruction.counts_iff, Instruction.mem_reads]
  exact Iff.rfl

theorem mem_defs_iff {b : Fin f.blockCount} :
    v ∈ (f.equations policy).defs.get b ↔ (f.block b).Defines v := by
  rw [equations_defs, Block.mem_defs]
  exact Iff.rfl

theorem readAhead_equations_iff {b : Fin f.blockCount} :
    (f.equations policy).ReadAhead v b ↔ f.ReadAhead policy v b := by
  simp only [Equations.ReadAhead, mem_uses_iff, mem_defs_iff, ReadAhead, ← walk_iff_route]
  exact Iff.rfl

/-- A value that is read is one of the function's own. -/
theorem index_lt_of_reads {b : Fin f.blockCount} (h : (f.block b).Reads policy v) :
    v.index < f.valueCount := by
  obtain ⟨i, hi, _, hargs⟩ := h
  have hmentions : v ∈ i.mentions := List.mem_append_left _ (Instruction.mem_reads.mpr hargs)
  exact (f.valid.blocks _ (f.block_mem b)).declared i hi v hmentions

theorem ReadAhead.index_lt {b : Fin f.blockCount} (h : f.ReadAhead policy v b) : v.index < f.valueCount := by
  obtain ⟨_, c, _, hreads, _⟩ := h
  exact index_lt_of_reads hreads

/-! ## The live sets -/

theorem exact_solve (f : Function) (c : Settings) :
    (f.equations c.terminatorReads).Exact (f.solve c).facts := by
  have hall := (f.equations c.terminatorReads).graph.mem_visits c.order
  unfold solve
  cases c.strategy with
  | roundRobin => exact RoundRobin.exact_solve hall
  | worklist => exact Worklist.exact_solve hall

theorem mem_liveIn_iff {c : Settings} {b : Fin f.blockCount} :
    v ∈ (f.liveness c).liveIn.get b ↔ f.ReadAhead c.terminatorReads v b :=
  ((f.exact_solve c).liveIn b v).trans readAhead_equations_iff

theorem mem_liveOut_iff {c : Settings} {b : Fin f.blockCount} :
    v ∈ (f.liveness c).liveOut.get b ↔ ∃ s, f.GoesTo b s ∧ f.ReadAhead c.terminatorReads v s := by
  refine ((f.exact_solve c).liveOut b v).trans ?_
  simp only [readAhead_equations_iff]
  exact exists_congr fun s => and_congr_left' edge_iff

/-- **The live sets are what routes find.** Whatever the settings, a value is live before a block
exactly when a route along stored successors leads from the block to one that reads it, and no block
left on the way defines it. It is live after a block exactly when such a route starts at a stored
successor. -/
theorem mem_liveness_iff_readAhead (f : Function) (c : Settings) (b : Fin f.blockCount) (v : ValueId) :
    (v ∈ (f.liveness c).liveIn.get b ↔ f.ReadAhead c.terminatorReads v b) ∧
      (v ∈ (f.liveness c).liveOut.get b ↔
        ∃ s, f.GoesTo b s ∧ f.ReadAhead c.terminatorReads v s) :=
  ⟨mem_liveIn_iff, mem_liveOut_iff⟩

/-! ## Solvers and orders agree -/

/-- **Solvers and orders agree.** The facts found do not depend on the solver or on the order it is
given, which may be any list that misses no block. -/
theorem solvers_agree (f : Function) (policy : TerminatorReads) (order order' : List (Fin f.blockCount))
    (h : ∀ b, b ∈ order) (h' : ∀ b, b ∈ order') :
    let e := f.equations policy
    (RoundRobin.solve e order).facts = (Worklist.solve e order').facts ∧
      (RoundRobin.solve e order).facts = (RoundRobin.solve e order').facts ∧
      (Worklist.solve e order).facts = (Worklist.solve e order').facts := by
  intro e
  have hsweeps : e.Exact (RoundRobin.solve e order).facts := RoundRobin.exact_solve h
  have hqueue' : e.Exact (Worklist.solve e order').facts := Worklist.exact_solve h'
  refine ⟨hsweeps.unique hqueue', hsweeps.unique ?_, Equations.Exact.unique ?_ hqueue'⟩
  · exact RoundRobin.exact_solve h'
  · exact Worklist.exact_solve h

theorem solvers_agree_ring : ∃ f, Sample.ring 3 = .ok f ∧ ∃ order order' : List (Fin f.blockCount),
    (∀ b, b ∈ order) ∧ (∀ b, b ∈ order') ∧ ¬ order.Nodup ∧
      (RoundRobin.solve (f.equations .tracked) order).facts =
        (Worklist.solve (f.equations .tracked) order').facts := by
  have h : ∀ b : Fin 3, b ∈ [0, 1, 0, 2] := by decide
  have h' : ∀ b : Fin 3, b ∈ [2, 2, 1, 0] := by decide
  have hrep : ¬ ([0, 1, 0, 2] : List (Fin 3)).Nodup := by decide
  refine ⟨_, rfl, _, _, h, h', hrep, ?_⟩
  exact And.left (solvers_agree _ .tracked _ _ h h')

end Function

/-! ## Results that the check accepts -/

namespace Liveness

variable {f : Function} {l : Liveness f.blockCount}

theorem violationAt?_eq_none_iff {n : Nat} {l : Liveness n} {b : Fin n} {succs : List (Fin n)} :
    l.violationAt? b succs = none ↔
      unionAt l.liveIn succs = l.liveOut.get b ∧
        liveBefore (l.uses.get b) (l.defs.get b) (l.liveOut.get b) = l.liveIn.get b := by
  unfold violationAt?
  split
  · rename_i hout
    exact ⟨fun h => (by cases h), fun h => absurd h.1 hout⟩
  · rename_i hout
    split
    · rename_i hin
      exact ⟨fun h => (by cases h), fun h => absurd h.2 hin⟩
    · rename_i hin
      exact ⟨fun _ => ⟨Decidable.not_not.mp hout, Decidable.not_not.mp hin⟩, fun _ => rfl⟩

theorem violation?_eq_none_iff : l.violation? f = none ↔ ∀ b : Fin f.blockCount,
    unionAt l.liveIn (f.succsOf b) = l.liveOut.get b ∧
      liveBefore (l.uses.get b) (l.defs.get b) (l.liveOut.get b) = l.liveIn.get b := by
  simp only [violation?, dite_true, List.findSome?_eq_none_iff, List.mem_finRange, true_implies,
    violationAt?_eq_none_iff]
  simp

/-- With the use and definition sets of the function, the check accepts what satisfies the equations. -/
theorem violation?_eq_none_iff_settled {policy : TerminatorReads}
    (huses : l.uses = (f.equations policy).uses) (hdefs : l.defs = (f.equations policy).defs) :
    l.violation? f = none ↔ ∀ b, (f.equations policy).Settled ⟨l.liveIn, l.liveOut⟩ b := by
  rw [violation?_eq_none_iff]
  refine forall_congr' fun b => ?_
  have hsuccs : (f.equations policy).graph.succs.get b = f.succsOf b := get_ofFn ..
  simp only [Equations.Settled, Equations.outOf, Equations.inOf, hsuccs, huses, hdefs]
  exact and_congr eq_comm eq_comm

end Liveness

namespace Function

/-- **The live sets are the least that the check accepts.** A result is accepted for the function it
was computed for; its sets lie in those of every accepted table with the same use and definition sets,
and if no block gets back to itself that table is the result. -/
theorem liveness_least_accepted (f : Function) (c : Settings) :
    (f.liveness c).violation? f = none ∧
      ∀ m : Liveness f.blockCount, m.uses = (f.equations c.terminatorReads).uses →
        m.defs = (f.equations c.terminatorReads).defs → m.violation? f = none →
        (∀ b : Fin f.blockCount, (f.liveness c).liveIn.get b ⊆ m.liveIn.get b ∧
          (f.liveness c).liveOut.get b ⊆ m.liveOut.get b) ∧
        (f.graph.Acyclic → m.liveIn = (f.liveness c).liveIn ∧ m.liveOut = (f.liveness c).liveOut) := by
  have hexact := f.exact_solve c
  refine ⟨(Liveness.violation?_eq_none_iff_settled rfl rfl).mpr hexact.settled, ?_⟩
  intro m huses hdefs haccepted
  have hsettled := (Liveness.violation?_eq_none_iff_settled huses hdefs).mp haccepted
  refine ⟨hexact.least hsettled, fun hacyclic => ?_⟩
  have hm := (Equations.Sound.of_acyclic hacyclic hsettled).exact hsettled
  have hfacts : (⟨m.liveIn, m.liveOut⟩ : Facts f.blockCount) = (f.solve c).facts := hm.unique hexact
  exact ⟨congrArg Facts.liveIn hfacts, congrArg Facts.liveOut hfacts⟩

/-- Two blocks in a row: the first defines a value that the second reads. -/
def pairEdits : List Edit :=
  [.addBlock "b1", .addBlock "b2", .define (.ofIndex 0) .copy [.const (.int 7)] "x",
    .finish (.ofIndex 0) (.br (.ofIndex 1)), .effect (.ofIndex 1) .call [.value (.ofIndex 0)],
    .finish (.ofIndex 1) (.ret [])]

theorem liveness_least_accepted_pair : ∃ f, (Draft.ofEdits "pair" pairEdits).build = .ok f ∧
    f.graph.Acyclic ∧ ∃ m : Liveness f.blockCount, m.uses = (f.equations .ignored).uses ∧
      m.defs = (f.equations .ignored).defs ∧ m.violation? f = none ∧
      m.liveIn = (f.liveness .default).liveIn ∧ m.liveOut = (f.liveness .default).liveOut := by
  let x : ValueSet := .ofList [.ofIndex 0]
  refine ⟨_, rfl, .of_edge_lt (by decide), ⟨#v[∅, x], #v[x, ∅], _, _, ⟨0, 0⟩⟩, rfl, rfl, by decide, ?_⟩
  exact ((liveness_least_accepted _ .default).2 _ rfl rfl (by decide)).2 (.of_edge_lt (by decide))

end Function

end LiveVars
