/-
What the equations of liveness mean. A value is read ahead of a block when a walk from
there leads to a block that reads it and leaves no block that defines it
(`Equations.ReadAhead`). That relation satisfies the two equations of every block
(`readAhead_iff`), and it is their least solution:

  - facts that satisfy the equations hold every value read ahead (`ReadAhead.mem_liveIn`),
    by induction on the walk;
  - facts that visits lead to hold no other value (`Approximation.Reached.sound`), by
    induction on the visits, in whatever order they come.

Facts with both properties are `Exact`, and there is one such table of facts. Without
cycles the second property is no extra: going round in a circle is the only way to hold a
value that nobody reads (`Sound.of_acyclic`).
-/
import LiveVars.Liveness.Approximation
import LiveVars.Proofs.Walk

namespace LiveVars

namespace Equations

variable {n : Nat} {e : Equations n} {facts : Facts n} {v : ValueId}

/-- A walk from `b` leads to a block that reads `v`, and no block left on the way defines it. -/
def ReadAhead (e : Equations n) (v : ValueId) (b : Fin n) : Prop :=
  ∃ passed c, e.graph.Walk b passed c ∧ v ∈ e.uses.get c ∧ ∀ p ∈ passed, ¬ v ∈ e.defs.get p

/-- Every member of the facts is read ahead. -/
structure Sound (e : Equations n) (facts : Facts n) : Prop where
  liveIn : ∀ (b : Fin n) v, v ∈ facts.liveIn.get b → e.ReadAhead v b
  liveOut : ∀ (b : Fin n) v, v ∈ facts.liveOut.get b → ∃ s, e.graph.Edge b s ∧ e.ReadAhead v s

/-- The members of the facts are the values read ahead. -/
structure Exact (e : Equations n) (facts : Facts n) : Prop where
  liveIn : ∀ (b : Fin n) v, v ∈ facts.liveIn.get b ↔ e.ReadAhead v b
  liveOut : ∀ (b : Fin n) v, v ∈ facts.liveOut.get b ↔ ∃ s, e.graph.Edge b s ∧ e.ReadAhead v s

/-! ## Reading ahead, one edge at a time -/

theorem ReadAhead.of_use {b : Fin n} (h : v ∈ e.uses.get b) : e.ReadAhead v b :=
  ⟨[], b, .here b, h, by simp⟩

theorem ReadAhead.of_edge {b s : Fin n} (he : e.graph.Edge b s) (hd : ¬ v ∈ e.defs.get b)
    (h : e.ReadAhead v s) : e.ReadAhead v b := by
  obtain ⟨passed, c, hw, huse, hdef⟩ := h
  refine ⟨b :: passed, c, .onward he hw, huse, fun p hp => ?_⟩
  rcases List.mem_cons.mp hp with rfl | hp
  · exact hd
  · exact hdef p hp

theorem readAhead_iff {b : Fin n} : e.ReadAhead v b ↔
    v ∈ e.uses.get b ∨ (∃ s, e.graph.Edge b s ∧ e.ReadAhead v s) ∧ ¬ v ∈ e.defs.get b := by
  constructor
  · intro h
    obtain ⟨passed, c, hw, huse, hdef⟩ := h
    cases hw with
    | here _ => exact Or.inl huse
    | onward he hw =>
      refine Or.inr ⟨⟨_, he, _, c, hw, huse, fun p hp => hdef p (by simp [hp])⟩, ?_⟩
      exact hdef b (by simp)
  · intro h
    rcases h with h | ⟨⟨s, he, h⟩, hd⟩
    · exact .of_use h
    · exact .of_edge he hd h

/-! ## Facts that satisfy the equations -/

theorem ReadAhead.mem_liveIn (hs : ∀ b, e.Settled facts b) {b : Fin n} (h : e.ReadAhead v b) :
    v ∈ facts.liveIn.get b := by
  obtain ⟨passed, c, hw, huse, hdef⟩ := h
  induction hw with
  | here c =>
    rw [(hs c).2]
    exact mem_inOf.mpr (Or.inl huse)
  | @onward b s _ _ he _ ih =>
    have hv : v ∈ facts.liveIn.get s := ih huse fun p hp => hdef p (by simp [hp])
    have hout : v ∈ facts.liveOut.get b := by
      rw [(hs b).1]
      exact mem_outOf.mpr ⟨s, he, hv⟩
    rw [(hs b).2]
    exact mem_inOf.mpr (Or.inr ⟨hout, hdef b (by simp)⟩)

theorem Sound.exact (h : e.Sound facts) (hs : ∀ b, e.Settled facts b) : e.Exact facts where
  liveIn b v := ⟨h.liveIn b v, fun hv => hv.mem_liveIn hs⟩
  liveOut b v := by
    refine ⟨h.liveOut b v, fun ⟨s, he, hv⟩ => ?_⟩
    rw [(hs b).1]
    exact mem_outOf.mpr ⟨s, he, hv.mem_liveIn hs⟩

theorem Exact.settled (h : e.Exact facts) (b : Fin n) : e.Settled facts b := by
  constructor
  · refine ValueSet.ext fun v => ?_
    rw [h.liveOut, mem_outOf]
    simp only [h.liveIn]
  · refine ValueSet.ext fun v => ?_
    rw [h.liveIn, mem_inOf, h.liveOut]
    exact readAhead_iff

theorem eq_of_mem_iff {xs ys : Vector ValueSet n} (h : ∀ b v, v ∈ xs.get b ↔ v ∈ ys.get b) : xs = ys :=
  Vector.ext fun i hi => ValueSet.ext (h ⟨i, hi⟩)

theorem Exact.unique {facts' : Facts n} (h : e.Exact facts) (h' : e.Exact facts') : facts = facts' := by
  have hin : facts.liveIn = facts'.liveIn :=
    eq_of_mem_iff fun b v => (h.liveIn b v).trans (h'.liveIn b v).symm
  have hout : facts.liveOut = facts'.liveOut :=
    eq_of_mem_iff fun b v => (h.liveOut b v).trans (h'.liveOut b v).symm
  exact congr (congrArg Facts.mk hin) hout

/-- Exact facts lie in all facts that satisfy the equations. -/
theorem Exact.least {facts' : Facts n} (h : e.Exact facts) (hs : ∀ b, e.Settled facts' b) (b : Fin n) :
    facts.liveIn.get b ⊆ facts'.liveIn.get b ∧ facts.liveOut.get b ⊆ facts'.liveOut.get b := by
  refine ⟨fun v hv => ((h.liveIn b v).mp hv).mem_liveIn hs, fun v hv => ?_⟩
  obtain ⟨s, he, hv⟩ := (h.liveOut b v).mp hv
  rw [(hs b).1]
  exact mem_outOf.mpr ⟨s, he, hv.mem_liveIn hs⟩

theorem Sound.of_acyclic (hg : e.graph.Acyclic) (hs : ∀ b, e.Settled facts b) : e.Sound facts := by
  have hin : ∀ (b : Fin n) v, v ∈ facts.liveIn.get b → e.ReadAhead v b := by
    intro b
    -- From a block to its successors: the recursion ends because no walk comes back.
    induction b using hg.wellFounded_edge.induction with
    | _ b ih =>
      intro v hv
      rw [(hs b).2] at hv
      rcases mem_inOf.mp hv with huse | ⟨hout, hd⟩
      · exact .of_use huse
      · rw [(hs b).1] at hout
        obtain ⟨s, he, hv⟩ := mem_outOf.mp hout
        exact .of_edge he hd (ih s he v hv)
  refine ⟨hin, fun b v hv => ?_⟩
  rw [(hs b).1] at hv
  obtain ⟨s, he, hv⟩ := mem_outOf.mp hv
  exact ⟨s, he, hin s v hv⟩

/-! ## A visit adds nothing that is not read ahead -/

theorem Sound.bottom (e : Equations n) : e.Sound (.bottom n) := by
  constructor <;> intro b v hv <;> simp [Facts.bottom] at hv

theorem Sound.outOf (h : e.Sound facts) {b : Fin n} (hv : v ∈ e.outOf facts.liveIn b) :
    ∃ s, e.graph.Edge b s ∧ e.ReadAhead v s := by
  obtain ⟨s, he, hv⟩ := mem_outOf.mp hv
  exact ⟨s, he, h.liveIn s v hv⟩

theorem Sound.revise (h : e.Sound facts) (b : Fin n) : e.Sound (e.revise facts b) where
  liveIn c v hv := by
    by_cases hc : c = b
    · subst hc
      rw [revise_liveIn_self] at hv
      rcases mem_inOf.mp hv with huse | ⟨hout, hd⟩
      · exact .of_use huse
      · exact readAhead_iff.mpr (Or.inr ⟨h.outOf hout, hd⟩)
    · rw [revise_liveIn_other _ _ hc] at hv
      exact h.liveIn c v hv
  liveOut c v hv := by
    by_cases hc : c = b
    · subst hc
      rw [revise_liveOut_self] at hv
      exact h.outOf hv
    · rw [revise_liveOut_other _ _ hc] at hv
      exact h.liveOut c v hv

end Equations

/-! ## Facts that visits lead to -/

namespace Approximation

variable {n : Nat} {e : Equations n}

/-- The approximations that visits lead to, starting from nothing. -/
inductive Reached : Approximation e → Prop
  | bottom : Reached (.bottom e)
  | visit {a : Approximation e} (h : Reached a) (b : Fin n) : Reached (a.visit b).1

theorem Reached.sound {a : Approximation e} (h : Reached a) : e.Sound a.facts := by
  induction h with
  | bottom => exact .bottom e
  | visit _ b ih =>
    rw [visit_facts]
    exact ih.revise b

end Approximation

end LiveVars
