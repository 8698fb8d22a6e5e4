/-
Facts on their way up to the solution. An approximation never holds more than its
own equations would give back, and it names no value that nobody reads. A visit
replaces the two sets of one block by the right-hand sides of its equations, so it
can only add members; `room` counts what could still be added, and a visit that
changes anything leaves less of it (`room_visit_lt`).
-/
import LiveVars.Liveness.Equations
import LiveVars.Table

namespace LiveVars

namespace Equations

variable {n : Nat}

/-- Every value that some block reads. -/
def everRead (e : Equations n) : ValueSet := unionAt e.uses (List.finRange n)

/-- The two sets of a block replaced by the right-hand sides of its equations. -/
def revise (e : Equations n) (facts : Facts n) (b : Fin n) : Facts n :=
  facts.write b (e.inOf b (e.outOf facts.liveIn b)) (e.outOf facts.liveIn b)

/-- The facts lie below what their own equations give, and in the values that are read at all. -/
structure Climbing (e : Equations n) (facts : Facts n) : Prop where
  liveOut_sub : ∀ b : Fin n, facts.liveOut.get b ⊆ e.outOf facts.liveIn b
  liveIn_sub : ∀ b : Fin n, facts.liveIn.get b ⊆ e.inOf b (facts.liveOut.get b)
  liveIn_read : ∀ b : Fin n, facts.liveIn.get b ⊆ e.everRead

theorem revise_liveIn_self (e : Equations n) (facts : Facts n) (b : Fin n) :
    (e.revise facts b).liveIn.get b = e.inOf b (e.outOf facts.liveIn b) := get_put_self ..

theorem revise_liveOut_self (e : Equations n) (facts : Facts n) (b : Fin n) :
    (e.revise facts b).liveOut.get b = e.outOf facts.liveIn b := get_put_self ..

theorem revise_liveIn_other (e : Equations n) (facts : Facts n) {b c : Fin n} (h : c ≠ b) :
    (e.revise facts b).liveIn.get c = facts.liveIn.get c := get_put_other _ _ h

theorem revise_liveOut_other (e : Equations n) (facts : Facts n) {b c : Fin n} (h : c ≠ b) :
    (e.revise facts b).liveOut.get c = facts.liveOut.get c := get_put_other _ _ h

end Equations

namespace Equations.Climbing

variable {n : Nat} {e : Equations n} {facts : Facts n}

theorem bottom (e : Equations n) : e.Climbing (.bottom n) := by
  constructor <;> intro b v hv <;> simp [Facts.bottom] at hv

theorem mem_everRead {v : ValueId} {b : Fin n} (h : v ∈ e.uses.get b) : v ∈ e.everRead :=
  mem_unionAt.mpr ⟨b, List.mem_finRange b, h⟩

theorem outOf_read (h : e.Climbing facts) (b : Fin n) : e.outOf facts.liveIn b ⊆ e.everRead := by
  intro v hv
  obtain ⟨s, _, hv⟩ := mem_outOf.mp hv
  exact h.liveIn_read s v hv

theorem inOf_read {b : Fin n} {out : ValueSet} (h : out ⊆ e.everRead) : e.inOf b out ⊆ e.everRead := by
  intro v hv
  rcases mem_inOf.mp hv with hv | ⟨hv, _⟩
  · exact mem_everRead hv
  · exact h v hv

theorem liveOut_read (h : e.Climbing facts) (b : Fin n) : facts.liveOut.get b ⊆ e.everRead :=
  ValueSet.subset_trans (h.liveOut_sub b) (h.outOf_read b)

theorem liveIn_revise (h : e.Climbing facts) (b c : Fin n) :
    facts.liveIn.get c ⊆ (e.revise facts b).liveIn.get c := by
  by_cases hc : c = b
  · subst hc
    rw [revise_liveIn_self]
    exact ValueSet.subset_trans (h.liveIn_sub c) (inOf_mono (h.liveOut_sub c) c)
  · rw [revise_liveIn_other _ _ hc]
    exact ValueSet.subset_refl _

theorem liveOut_revise (h : e.Climbing facts) (b c : Fin n) :
    facts.liveOut.get c ⊆ (e.revise facts b).liveOut.get c := by
  by_cases hc : c = b
  · subst hc
    rw [revise_liveOut_self]
    exact h.liveOut_sub c
  · rw [revise_liveOut_other _ _ hc]
    exact ValueSet.subset_refl _

theorem revise (h : e.Climbing facts) (b : Fin n) : e.Climbing (e.revise facts b) where
  liveOut_sub c := by
    refine ValueSet.subset_trans ?_ (outOf_mono (h.liveIn_revise b) c)
    by_cases hc : c = b
    · subst hc
      rw [revise_liveOut_self]
      exact ValueSet.subset_refl _
    · rw [revise_liveOut_other _ _ hc]
      exact h.liveOut_sub c
  liveIn_sub c := by
    by_cases hc : c = b
    · subst hc
      rw [revise_liveIn_self, revise_liveOut_self]
      exact ValueSet.subset_refl _
    · rw [revise_liveIn_other _ _ hc, revise_liveOut_other _ _ hc]
      exact h.liveIn_sub c
  liveIn_read c := by
    by_cases hc : c = b
    · subst hc
      rw [revise_liveIn_self]
      exact inOf_read (h.outOf_read c)
    · rw [revise_liveIn_other _ _ hc]
      exact h.liveIn_read c

end Equations.Climbing

/-! ## Approximations and visits -/

/-- Facts on their way up to the solution of the equations. -/
structure Approximation {n : Nat} (e : Equations n) where
  facts : Facts n
  climbing : e.Climbing facts

namespace Approximation

variable {n : Nat} {e : Equations n}

def bottom (e : Equations n) : Approximation e := ⟨.bottom n, .bottom e⟩

/-- Brings one block up to date, and tells whether that changed anything. -/
def visit (a : Approximation e) (b : Fin n) : Approximation e × Bool :=
  let out := e.outOf a.facts.liveIn b
  let before := e.inOf b out
  if out = a.facts.liveOut.get b ∧ before = a.facts.liveIn.get b then (a, false)
  else (⟨a.facts.write b before out, a.climbing.revise b⟩, true)

/-- The places in a table of sets that a value may come to: each value that is read, at each block. -/
def places (e : Equations n) : List (Fin n × ValueId) :=
  (List.finRange n).flatMap fun b => e.everRead.ids.map fun v => (b, v)

/-- Whether a place is free in a table of sets. -/
def free (sets : Vector ValueSet n) (p : Fin n × ValueId) : Bool := decide (¬ p.2 ∈ sets.get p.1)

/-- How many members could still be added, over all sets. -/
def room (a : Approximation e) : Nat :=
  (places e).countP (free a.facts.liveIn) + (places e).countP (free a.facts.liveOut)

theorem mem_places {b : Fin n} {v : ValueId} (h : v ∈ e.everRead) : (b, v) ∈ places e :=
  List.mem_flatMap.mpr ⟨b, List.mem_finRange b, List.mem_map.mpr ⟨v, h, rfl⟩⟩

theorem free_of_subset {sets sets' : Vector ValueSet n} (h : ∀ b, sets.get b ⊆ sets'.get b)
    {p : Fin n × ValueId} (hp : free sets' p = true) : free sets p = true :=
  decide_eq_true fun hm => of_decide_eq_true hp (h p.1 p.2 hm)

theorem countP_free_le {sets sets' : Vector ValueSet n} (h : ∀ b, sets.get b ⊆ sets'.get b) :
    (places e).countP (free sets') ≤ (places e).countP (free sets) :=
  List.countP_mono_left fun _ _ => free_of_subset h

theorem countP_free_lt {sets sets' : Vector ValueSet n} (h : ∀ b, sets.get b ⊆ sets'.get b) {b : Fin n}
    (hread : sets'.get b ⊆ e.everRead) (hne : sets.get b ≠ sets'.get b) :
    (places e).countP (free sets') < (places e).countP (free sets) := by
  obtain ⟨v, hv, hnew⟩ := ValueSet.exists_mem_not_mem (h b) hne
  refine countP_lt_countP (fun _ _ => free_of_subset h) (mem_places (hread v hv)) (decide_eq_true hnew) ?_
  simpa [free] using hv

/-- A visit changes nothing exactly at a block that is settled. -/
theorem visit_unchanged_iff {a : Approximation e} {b : Fin n} :
    (a.visit b).2 = false ↔ e.Settled a.facts b := by
  simp only [visit, Equations.Settled]
  split
  · rename_i h
    exact ⟨fun _ => ⟨h.1.symm, by rw [← h.1]; exact h.2.symm⟩, fun _ => rfl⟩
  · rename_i h
    refine ⟨fun hc => by simp at hc, fun hs => absurd ⟨hs.1.symm, ?_⟩ h⟩
    rw [← hs.1]
    exact hs.2.symm

theorem visit_fst_of_unchanged {a : Approximation e} {b : Fin n} (h : (a.visit b).2 = false) :
    (a.visit b).1 = a := by
  simp only [visit] at h ⊢
  split at h
  · rename_i hc; rw [if_pos hc]
  · cases h

/-- A visit writes the right-hand sides, whether or not they are new. -/
theorem visit_facts (a : Approximation e) (b : Fin n) :
    (a.visit b).1.facts = e.revise a.facts b := by
  simp only [visit]
  split
  · rename_i h
    rw [Equations.revise, h.2, h.1, Facts.write_get]
  · rfl

/-- A visit that changes something uses up room. -/
theorem room_visit_lt {a : Approximation e} {b : Fin n} (h : (a.visit b).2 = true) :
    (a.visit b).1.room < a.room := by
  have hin := a.climbing.liveIn_revise b
  have hout := a.climbing.liveOut_revise b
  have hunsettled : ¬ e.Settled a.facts b := fun hs => by
    rw [visit_unchanged_iff.mpr hs] at h
    cases h
  rw [room, room, visit_facts]
  by_cases hsame : a.facts.liveOut.get b = e.outOf a.facts.liveIn b
  · have hlt := countP_free_lt hin ((a.climbing.revise b).liveIn_read b) fun heq =>
      hunsettled ⟨hsame, by rw [hsame]; exact heq.trans (e.revise_liveIn_self ..)⟩
    have hle := countP_free_le (e := e) hout
    omega
  · have hlt := countP_free_lt hout ((a.climbing.revise b).liveOut_read b) fun heq =>
      hsame (heq.trans (e.revise_liveOut_self ..))
    have hle := countP_free_le (e := e) hin
    omega

theorem room_visit_le (a : Approximation e) (b : Fin n) : (a.visit b).1.room ≤ a.room := by
  cases h : (a.visit b).2 with
  | false => exact Nat.le_of_eq (by rw [visit_fst_of_unchanged h])
  | true => exact Nat.le_of_lt (room_visit_lt h)

end Approximation

end LiveVars
