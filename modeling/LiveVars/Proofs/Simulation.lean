/-
Live values carried from one function to another. A map of blocks may merge blocks and
leave some out; what counts for a value `v` here and a value `w` there is that edges go to
edges, that a block which uses `v` goes to one that uses `w`, and that a block which does
not define `v` goes to one that does not define `w` (`Equations.Carries`). A walk that
reads `v` ahead then goes to a walk that reads `w` ahead, so `w` is live wherever `v` is.

With the three conditions read backwards (`Equations.Reflects`) a walk over there can be
followed back from any block it starts from, and the two values are live at the same
blocks. Nothing else about the functions plays a part: not their layout or entry, no name,
not the order of instructions or edges, and no other value.
-/
import LiveVars.Proofs.LiveSets

namespace LiveVars

namespace Equations

variable {n m : Nat} {e : Equations n} {e' : Equations m} {p : Fin n → Fin m} {v w : ValueId}

/-- The map `p` of blocks keeps edges, takes uses of `v` to uses of `w`, and finds a definition of `w`
only where there is one of `v`. -/
structure Carries (e : Equations n) (e' : Equations m) (p : Fin n → Fin m) (v w : ValueId) : Prop where
  edge : ∀ b s, e.graph.Edge b s → e'.graph.Edge (p b) (p s)
  use : ∀ b, v ∈ e.uses.get b → w ∈ e'.uses.get (p b)
  define : ∀ b, w ∈ e'.defs.get (p b) → v ∈ e.defs.get b

/-- The conditions of `Carries` backwards: an edge from the image of a block is the image of an edge from
the block, and uses and definitions come from uses and definitions. -/
structure Reflects (e : Equations n) (e' : Equations m) (p : Fin n → Fin m) (v w : ValueId) : Prop where
  edge : ∀ b t, e'.graph.Edge (p b) t → ∃ s, e.graph.Edge b s ∧ p s = t
  use : ∀ b, w ∈ e'.uses.get (p b) → v ∈ e.uses.get b
  define : ∀ b, v ∈ e.defs.get b → w ∈ e'.defs.get (p b)

instance : Decidable (e.Carries e' p v w) :=
  decidable_of_iff (_ ∧ _ ∧ _) ⟨fun ⟨h₁, h₂, h₃⟩ => ⟨h₁, h₂, h₃⟩, fun ⟨h₁, h₂, h₃⟩ => ⟨h₁, h₂, h₃⟩⟩

instance : Decidable (e.Reflects e' p v w) :=
  decidable_of_iff (_ ∧ _ ∧ _) ⟨fun ⟨h₁, h₂, h₃⟩ => ⟨h₁, h₂, h₃⟩, fun ⟨h₁, h₂, h₃⟩ => ⟨h₁, h₂, h₃⟩⟩

theorem Carries.walk (h : e.Carries e' p v w) {b c : Fin n} {passed : List (Fin n)}
    (hw : e.graph.Walk b passed c) : e'.graph.Walk (p b) (passed.map p) (p c) := by
  induction hw with
  | here b => exact .here (p b)
  | onward he _ ih => exact .onward (h.edge _ _ he) ih

theorem Carries.readAhead (h : e.Carries e' p v w) {b : Fin n} (hv : e.ReadAhead v b) :
    e'.ReadAhead w (p b) := by
  obtain ⟨passed, c, hw, huse, hdef⟩ := hv
  refine ⟨passed.map p, p c, h.walk hw, h.use c huse, fun q hq hw => ?_⟩
  obtain ⟨a, ha, rfl⟩ := List.mem_map.mp hq
  exact hdef a ha (h.define a hw)

theorem Reflects.readAhead (h : e.Reflects e' p v w) {b : Fin n} (hw : e'.ReadAhead w (p b)) :
    e.ReadAhead v b := by
  obtain ⟨passed, c, hwalk, huse, hdef⟩ := hw
  -- The walk is followed back one edge at a time: `b` is any block that goes to where it starts.
  generalize hq : p b = q at hwalk
  induction hwalk generalizing b with
  | here c =>
    subst hq
    exact .of_use (h.use b huse)
  | onward he _ ih =>
    subst hq
    obtain ⟨s, hs, rfl⟩ := h.edge b _ he
    refine .of_edge hs (fun hv => ?_) (ih huse (fun a ha => hdef a (by simp [ha])) rfl)
    exact hdef (p b) (by simp) (h.define b hv)

end Equations

namespace Function

/-- **Simulation.** If a map of blocks carries `v` in one function to `w` in another, `w` is live at the
image of every block at which `v` is live, before it and after it, under any settings on either side; and
if the map also reflects them, nowhere else among the images. -/
theorem liveness_carried (f g : Function) (c c' : Settings) (p : Fin f.blockCount → Fin g.blockCount)
    (v w : ValueId)
    (h : (f.equations c.terminatorReads).Carries (g.equations c'.terminatorReads) p v w) :
    (∀ b, (v ∈ (f.liveness c).liveIn.get b → w ∈ (g.liveness c').liveIn.get (p b)) ∧
        (v ∈ (f.liveness c).liveOut.get b → w ∈ (g.liveness c').liveOut.get (p b))) ∧
      ((f.equations c.terminatorReads).Reflects (g.equations c'.terminatorReads) p v w →
        ∀ b, (w ∈ (g.liveness c').liveIn.get (p b) → v ∈ (f.liveness c).liveIn.get b) ∧
          (w ∈ (g.liveness c').liveOut.get (p b) → v ∈ (f.liveness c).liveOut.get b)) := by
  have hf := f.exact_solve c
  have hg := g.exact_solve c'
  refine ⟨fun b => ⟨fun hv => ?_, fun hv => ?_⟩, fun h' b => ⟨fun hw => ?_, fun hw => ?_⟩⟩
  · exact (hg.liveIn _ w).mpr (h.readAhead ((hf.liveIn b v).mp hv))
  · obtain ⟨s, he, hs⟩ := (hf.liveOut b v).mp hv
    exact (hg.liveOut _ w).mpr ⟨p s, h.edge b s he, h.readAhead hs⟩
  · exact (hf.liveIn b v).mpr (h'.readAhead ((hg.liveIn _ w).mp hw))
  · obtain ⟨t, he, ht⟩ := (hg.liveOut _ w).mp hw
    obtain ⟨s, hs, rfl⟩ := h'.edge b t he
    exact (hf.liveOut b v).mpr ⟨s, hs, h'.readAhead ht⟩

/-- One block that copies `y` to `t`, over and over. -/
def loopEdits : List Edit :=
  [.declare "t", .declare "y", .addBlock "loop",
    .assign (.ofIndex 0) .copy [.value (.ofIndex 1)] (.ofIndex 0), .finish (.ofIndex 0) (.br (.ofIndex 0))]

/-- The loop unrolled once, with the values declared in the other order and a call for one of the copies. -/
def unrolledEdits : List Edit :=
  [.declare "x", .declare "u", .addBlock "even", .addBlock "odd",
    .assign (.ofIndex 0) .copy [.value (.ofIndex 0)] (.ofIndex 1), .finish (.ofIndex 0) (.br (.ofIndex 1)),
    .effect (.ofIndex 1) .call [.value (.ofIndex 0)], .finish (.ofIndex 1) (.br (.ofIndex 0))]

theorem liveness_carried_unrolled : ∃ f g, (Draft.ofEdits "f" unrolledEdits).build = .ok f ∧
    (Draft.ofEdits "g" loopEdits).build = .ok g ∧ ∃ p : Fin f.blockCount → Fin g.blockCount,
      (f.equations .ignored).Carries (g.equations .tracked) p (.ofIndex 0) (.ofIndex 1) ∧
      (f.equations .ignored).Reflects (g.equations .tracked) p (.ofIndex 0) (.ofIndex 1) ∧
      ∀ b, (.ofIndex 0 ∈ (f.liveness .default).liveIn.get b ↔
        .ofIndex 1 ∈ (g.liveness ⟨.worklist, .layout, .tracked⟩).liveIn.get (p b)) := by
  refine ⟨_, _, rfl, rfl, fun _ => ⟨0, by decide⟩, by decide, by decide, fun b => ?_⟩
  constructor
  · exact ((liveness_carried _ _ .default _ (fun _ => ⟨0, by decide⟩) _ _ (by decide)).1 b).1
  · exact ((liveness_carried _ _ .default _ (fun _ => ⟨0, by decide⟩) _ _ (by decide)).2 (by decide) b).1

end Function

end LiveVars
