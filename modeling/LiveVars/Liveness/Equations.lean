/-
The equations of liveness, two for each block `b`:

  out(b) = the union of in(s) over the successors s of b
  in(b)  = use(b) ∪ (out(b) \ def(b))

`Facts` is a guess at their solution, and a block is `Settled` when the guess
satisfies its two equations.
-/
import LiveVars.Graph.Basic
import LiveVars.Liveness.UseDef

namespace LiveVars

/-- The equations of a graph whose blocks read and define the given sets. -/
structure Equations (n : Nat) where
  graph : Graph n
  uses : Vector ValueSet n
  defs : Vector ValueSet n

/-- A set before and a set after each block. -/
structure Facts (n : Nat) where
  liveIn : Vector ValueSet n
  liveOut : Vector ValueSet n
deriving DecidableEq

def Function.equations (f : Function) (policy : TerminatorReads) : Equations f.blockCount where
  graph := f.graph
  uses := Vector.ofFn fun b => (f.block b).uses policy
  defs := Vector.ofFn fun b => (f.block b).defs

def unionAt {n : Nat} (sets : Vector ValueSet n) (bs : List (Fin n)) : ValueSet :=
  bs.foldl (fun acc b => acc ∪ sets.get b) ∅

/-- What is live before a block that reads `uses`, defines `defs` and has `out` live after it. -/
def liveBefore (uses defs out : ValueSet) : ValueSet := uses ∪ (out \ defs)

/-- Nothing is known to be live. -/
def Facts.bottom (n : Nat) : Facts n := ⟨Vector.replicate n ∅, Vector.replicate n ∅⟩

def Facts.write {n : Nat} (facts : Facts n) (b : Fin n) (before after : ValueSet) : Facts n :=
  ⟨put facts.liveIn b before, put facts.liveOut b after⟩

theorem Facts.write_get {n : Nat} (facts : Facts n) (b : Fin n) :
    facts.write b (facts.liveIn.get b) (facts.liveOut.get b) = facts := by
  simp only [write, put_get]

namespace Equations

variable {n : Nat}

/-- The right-hand side of the equation for out(b). -/
def outOf (e : Equations n) (liveIn : Vector ValueSet n) (b : Fin n) : ValueSet :=
  unionAt liveIn (e.graph.succs.get b)

/-- The right-hand side of the equation for in(b). -/
def inOf (e : Equations n) (b : Fin n) (out : ValueSet) : ValueSet :=
  liveBefore (e.uses.get b) (e.defs.get b) out

/-- Both equations of a block hold. -/
def Settled (e : Equations n) (facts : Facts n) (b : Fin n) : Prop :=
  facts.liveOut.get b = e.outOf facts.liveIn b ∧ facts.liveIn.get b = e.inOf b (facts.liveOut.get b)

instance (e : Equations n) (facts : Facts n) (b : Fin n) : Decidable (e.Settled facts b) :=
  inferInstanceAs (Decidable (_ ∧ _))

end Equations

/-! ## Membership -/

theorem mem_foldl_union {n : Nat} {sets : Vector ValueSet n} {v : ValueId} :
    ∀ {bs : List (Fin n)} {acc : ValueSet},
      v ∈ bs.foldl (fun acc b => acc ∪ sets.get b) acc ↔ v ∈ acc ∨ ∃ b ∈ bs, v ∈ sets.get b
  | [], acc => by simp
  | b :: bs, acc => by
    rw [List.foldl_cons, mem_foldl_union, ValueSet.mem_union]
    simp only [List.mem_cons, exists_eq_or_imp, or_assoc]

theorem mem_unionAt {n : Nat} {sets : Vector ValueSet n} {bs : List (Fin n)} {v : ValueId} :
    v ∈ unionAt sets bs ↔ ∃ b ∈ bs, v ∈ sets.get b := by
  simp only [unionAt, mem_foldl_union, ValueSet.not_mem_empty, false_or]

theorem mem_liveBefore {uses defs out : ValueSet} {v : ValueId} :
    v ∈ liveBefore uses defs out ↔ v ∈ uses ∨ v ∈ out ∧ ¬ v ∈ defs := by
  simp only [liveBefore, ValueSet.mem_union, ValueSet.mem_diff]

namespace Function

theorem equations_uses {f : Function} {policy : TerminatorReads} (b : Fin f.blockCount) :
    (f.equations policy).uses.get b = (f.block b).uses policy := by
  simp only [equations, get_ofFn]

theorem equations_defs {f : Function} {policy : TerminatorReads} (b : Fin f.blockCount) :
    (f.equations policy).defs.get b = (f.block b).defs := by
  simp only [equations, get_ofFn]

end Function

namespace Equations

variable {n : Nat} {e : Equations n}

theorem mem_outOf {liveIn : Vector ValueSet n} {b : Fin n} {v : ValueId} :
    v ∈ e.outOf liveIn b ↔ ∃ s, e.graph.Edge b s ∧ v ∈ liveIn.get s := mem_unionAt

theorem mem_inOf {b : Fin n} {out : ValueSet} {v : ValueId} :
    v ∈ e.inOf b out ↔ v ∈ e.uses.get b ∨ v ∈ out ∧ ¬ v ∈ e.defs.get b := mem_liveBefore

theorem outOf_mono {liveIn liveIn' : Vector ValueSet n} (h : ∀ s : Fin n, liveIn.get s ⊆ liveIn'.get s)
    (b : Fin n) : e.outOf liveIn b ⊆ e.outOf liveIn' b := by
  intro v hv
  obtain ⟨s, hs, hv⟩ := mem_outOf.mp hv
  exact mem_outOf.mpr ⟨s, hs, h s v hv⟩

theorem inOf_mono {out out' : ValueSet} (h : out ⊆ out') (b : Fin n) : e.inOf b out ⊆ e.inOf b out' := by
  intro v hv
  rcases mem_inOf.mp hv with hv | ⟨hv, hd⟩
  · exact mem_inOf.mpr (Or.inl hv)
  · exact mem_inOf.mpr (Or.inr ⟨h v hv, hd⟩)

end Equations

end LiveVars
