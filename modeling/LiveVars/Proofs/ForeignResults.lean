/-
A result held against a function that it need not have been computed for. The check takes
the edges from the function and all sets from the result. What it asks of the sets before a
block does not involve edges, and either solver leaves it satisfied
(`Function.transferred_liveness`); so that part never fails. What remains is one question for
each block: do the sets before its successors make up the set after it
(`Liveness.Joined`)? The check answers with the first block where they do not.

The edges come in through what they join only, hence neither their order nor anything else
in the function matters.
-/
import LiveVars.Proofs.FinishingOrder
import LiveVars.Proofs.LiveSets
import LiveVars.Proofs.Repair

namespace LiveVars

theorem unionAt_congr {n : Nat} {sets : Vector ValueSet n} {bs bs' : List (Fin n)}
    (h : ∀ b, b ∈ bs ↔ b ∈ bs') : unionAt sets bs = unionAt sets bs' := by
  refine ValueSet.ext fun v => ?_
  rw [mem_unionAt, mem_unionAt]
  simp only [h]

theorem Function.mem_succsOf {f : Function} {b s : Fin f.blockCount} :
    s ∈ f.succsOf b ↔ ∃ t ∈ (f.block b).succs, t.index = s := by
  rw [← get_succs_graph]
  exact f.edge_iff

theorem Function.mem_map_cast_succsOf {f : Function} {n : Nat} (hn : f.blockCount = n) {b : Fin f.blockCount}
    {s : Fin n} : s ∈ (f.succsOf b).map (Fin.cast hn) ↔ ∃ t ∈ (f.block b).succs, t.index = s := by
  subst hn
  simp [mem_succsOf]

namespace Liveness

variable {n : Nat} {l : Liveness n} {f : Function}

/-- The result has `v` live before block `k`. -/
def Before (l : Liveness n) (k : Nat) (v : ValueId) : Prop := ∃ h : k < n, v ∈ l.liveIn.get ⟨k, h⟩

/-- The result has `v` live after block `k`. -/
def After (l : Liveness n) (k : Nat) (v : ValueId) : Prop := ∃ h : k < n, v ∈ l.liveOut.get ⟨k, h⟩

theorem before_iff {k : Nat} (h : k < n) {v : ValueId} : l.Before k v ↔ v ∈ l.liveIn.get ⟨k, h⟩ :=
  ⟨fun ⟨_, hv⟩ => hv, fun hv => ⟨h, hv⟩⟩

theorem after_iff {k : Nat} (h : k < n) {v : ValueId} : l.After k v ↔ v ∈ l.liveOut.get ⟨k, h⟩ :=
  ⟨fun ⟨_, hv⟩ => hv, fun hv => ⟨h, hv⟩⟩

/-- What is live after a block of `f` is what is live before one of its successors. -/
def Joined (l : Liveness n) (f : Function) (b : Fin f.blockCount) : Prop :=
  ∀ v, l.After b v ↔ ∃ s ∈ (f.block b).succs, l.Before s.index v

/-- What is live before each block is what its sets make of what is live after it. -/
def Transferred (l : Liveness n) : Prop :=
  ∀ b : Fin n, liveBefore (l.uses.get b) (l.defs.get b) (l.liveOut.get b) = l.liveIn.get b

/-! ## One block -/

theorem violationAt?_of_transferred (h : l.Transferred) (b : Fin n) (succs : List (Fin n)) :
    l.violationAt? b succs =
      if unionAt l.liveIn succs = l.liveOut.get b then none else some (.liveOut (.ofIndex b)) := by
  unfold violationAt?
  by_cases hout : unionAt l.liveIn succs = l.liveOut.get b
  · rw [if_neg (by simp [hout]), if_neg (by simp [h b]), if_pos hout]
  · rw [if_pos hout, if_neg hout]

theorem violationAt?_congr {b : Fin n} {succs succs' : List (Fin n)} (h : ∀ s, s ∈ succs ↔ s ∈ succs') :
    l.violationAt? b succs = l.violationAt? b succs' := by
  unfold violationAt?
  rw [unionAt_congr h]

theorem unionAt_eq_iff_joined {l : Liveness f.blockCount} {b : Fin f.blockCount} :
    unionAt l.liveIn (f.succsOf b) = l.liveOut.get b ↔ l.Joined f b := by
  have hunion : ∀ v, v ∈ unionAt l.liveIn (f.succsOf b) ↔
      ∃ s ∈ (f.block b).succs, l.Before s.index v := by
    intro v
    rw [mem_unionAt]
    constructor
    · rintro ⟨s, hs, hv⟩
      obtain ⟨t, ht, hts⟩ := Function.mem_succsOf.mp hs
      exact ⟨t, ht, hts ▸ s.isLt, by simpa [hts] using hv⟩
    · rintro ⟨t, ht, hlt, hv⟩
      exact ⟨⟨t.index, hlt⟩, Function.mem_succsOf.mpr ⟨t, ht, rfl⟩, hv⟩
  constructor
  · intro h v
    rw [after_iff b.isLt, ← hunion, h]
  · intro h
    refine ValueSet.ext fun v => ?_
    rw [hunion, ← after_iff b.isLt, h v]

section Transferred

variable {l : Liveness f.blockCount} (h : l.Transferred) {b : Fin f.blockCount}
include h

theorem violationAt?_eq_none_iff_joined : l.violationAt? b (f.succsOf b) = none ↔ l.Joined f b := by
  rw [violationAt?_of_transferred h, ← unionAt_eq_iff_joined]
  split <;> simp_all

theorem violationAt?_eq_some_iff {x : Violation} :
    l.violationAt? b (f.succsOf b) = some x ↔ x = .liveOut (.ofIndex b) ∧ ¬ l.Joined f b := by
  rw [violationAt?_of_transferred h, ← unionAt_eq_iff_joined]
  split <;> simp_all [eq_comm]

end Transferred

/-! ## All blocks in turn -/

theorem violation?_of_ne (hn : f.blockCount ≠ n) : l.violation? f = some .blockCount := dif_neg hn

theorem violation?_eq_none_iff_joined (hn : f.blockCount = n) (h : l.Transferred) :
    l.violation? f = none ↔ ∀ b, l.Joined f b := by
  subst hn
  rw [violation?_eq_none_iff]
  refine forall_congr' fun b => ?_
  rw [unionAt_eq_iff_joined]
  exact and_iff_left (h b)

/-- The check fails at the first block that is not joined. -/
theorem violation?_eq_some_iff (hn : f.blockCount = n) (h : l.Transferred) {x : Violation} :
    l.violation? f = some x ↔
      ∃ b : Fin f.blockCount, x = .liveOut (.ofIndex b) ∧ ¬ l.Joined f b ∧ ∀ c < b, l.Joined f c := by
  subst hn
  have hcheck : l.violation? f = Fin.findSome? fun b => l.violationAt? b (f.succsOf b) := by
    rw [Fin.findSome?_eq_findSome?_finRange]
    simp [violation?]
  rw [hcheck, Fin.findSome?_eq_some_iff]
  refine exists_congr fun b => ?_
  rw [violationAt?_eq_some_iff h, and_assoc]
  simp only [violationAt?_eq_none_iff_joined h]

/-- Two functions with the same edges are the same to the check. -/
theorem violation?_congr {g : Function} (hn : g.blockCount = f.blockCount)
    (h : ∀ b s, s ∈ (g.block b).succs ↔ s ∈ (f.block (b.cast hn)).succs) :
    l.violation? g = l.violation? f := by
  by_cases hf : f.blockCount = n
  · subst hf
    have hrange : List.finRange f.blockCount = (List.finRange g.blockCount).map (Fin.cast hn) :=
      List.ext_getElem (by simp [hn]) fun i _ _ => by simp
    rw [violation?, violation?, dif_pos hn, dif_pos rfl, hrange, List.findSome?_map]
    refine congrArg (List.findSome? · _) (funext fun b => violationAt?_congr fun s => ?_)
    rw [Function.mem_map_cast_succsOf, Function.mem_map_cast_succsOf]
    simp only [h]
  · rw [violation?_of_ne hf, violation?_of_ne (by rw [hn]; exact hf)]

end Liveness

namespace Function

theorem transferred_liveness (f : Function) (c : Settings) : (f.liveness c).Transferred :=
  fun b => ((f.exact_solve c).settled b).2.symm

/-- **A result held against another function.** Let `l` be computed for `a` and held against `b`, which edits
built. The check refuses it outright exactly if the numbers of blocks differ. If they do not, all that is
looked up is there, and the check accepts exactly if at every block of `b` what is live after it is what is
live before its successors in `b`; otherwise it names the first block where that is not so. It never blames
what is live before a block. So of `b` it is only the sets of successors that count. -/
theorem violation?_of_liveness (a : Function) (c : Settings) {name : String} {edits : List Edit} {b : Function}
    (hb : (Draft.ofEdits name edits).build = .ok b) :
    let l := a.liveness c
    (l.violation? b = some .blockCount ↔ a.blockCount ≠ b.blockCount) ∧
    (∀ id, l.violation? b ≠ some (.liveIn id)) ∧
    (a.blockCount = b.blockCount →
      (∀ i : Fin b.blockCount, i < a.blockCount ∧ ∀ s ∈ (b.block i).succs, s.index < a.blockCount) ∧
      (l.violation? b = none ↔ ∀ i, l.Joined b i) ∧
      ∀ id, l.violation? b = some (.liveOut id) ↔
        ∃ i : Fin b.blockCount, i.val = id.index ∧ ¬ l.Joined b i ∧ ∀ j < i, l.Joined b j) ∧
    ∀ (b' : Function) (hn : b'.blockCount = b.blockCount),
      (∀ i s, s ∈ (b'.block i).succs ↔ s ∈ (b.block (i.cast hn)).succs) →
        l.violation? b' = l.violation? b := by
  intro l
  have htransferred : l.Transferred := a.transferred_liveness c
  have hlimit := Draft.blockCount_le_of_build hb
  refine ⟨⟨?_, ?_⟩, ?_, ?_, ?_⟩
  · intro h hn
    obtain ⟨i, hi, _⟩ := (Liveness.violation?_eq_some_iff hn.symm htransferred).mp h
    cases hi
  · exact fun hn => Liveness.violation?_of_ne (Ne.symm hn)
  · intro id h
    by_cases hn : b.blockCount = a.blockCount
    · obtain ⟨i, hi, _⟩ := (Liveness.violation?_eq_some_iff hn htransferred).mp h
      cases hi
    · rw [Liveness.violation?_of_ne hn] at h
      cases h
  · intro hn
    refine ⟨fun i => ⟨?_, fun s hs => ?_⟩, ?_, fun id => ?_⟩
    · rw [hn]
      exact i.isLt
    · rw [hn]
      exact b.succ_lt hs
    · exact Liveness.violation?_eq_none_iff_joined hn.symm htransferred
    · rw [Liveness.violation?_eq_some_iff hn.symm htransferred]
      refine exists_congr fun i => and_congr_left fun _ => ?_
      rw [Violation.liveOut.injEq, BlockId.eq_ofIndex_iff (by omega), eq_comm]
  · exact fun b' hn h => Liveness.violation?_congr hn h

/-- The diamond with its left side cut off from the block where the sides meet. -/
def severedEdits : List Edit :=
  [.declare "c", .addBlock "top", .addBlock "join", .addBlock "left", .addBlock "right",
    .finish (.ofIndex 0) (.condBr (.value (.ofIndex 0)) (.ofIndex 3) (.ofIndex 2)),
    .finish (.ofIndex 2) (.ret []), .finish (.ofIndex 3) (.br (.ofIndex 1)), .finish (.ofIndex 1) (.ret [])]

def severed : Function :=
  ⟨(Draft.ofEdits "severed" severedEdits).listing, Listing.valid_of_fault? (by decide)⟩

theorem build_severed : (Draft.ofEdits "severed" severedEdits).build = .ok severed := rfl

theorem violation?_of_liveness_severed : diamond.blockCount = severed.blockCount ∧
    (diamond.liveness .default).violation? severed = some (.liveOut (.ofIndex 2)) ∧
    ∃ i : Fin severed.blockCount, i.val = 2 ∧ ¬ (diamond.liveness .default).Joined severed i ∧
      ∀ j < i, (diamond.liveness .default).Joined severed j := by
  have hcheck : (diamond.liveness .default).violation? severed = some (.liveOut (.ofIndex 2)) := by decide +kernel
  have hcount : diamond.blockCount = severed.blockCount := by decide
  obtain ⟨_, _, hsame, _⟩ := violation?_of_liveness diamond .default build_severed
  obtain ⟨i, hi, hfirst⟩ := ((hsame hcount).2.2 _).mp hcheck
  exact ⟨hcount, hcheck, i, hi, hfirst⟩

end Function

end LiveVars
