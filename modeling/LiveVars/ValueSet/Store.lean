/-
The stores that sets of value ids are kept in, and the operations on sets that are
written over them. A store is given by what can be done with it; how it keeps the ids,
and in which order `ids` goes through them, is its own affair. What is expected of it is
`Lawful`: each law says of one operation which ids are found afterwards, or what one of
the tests tells about the ids that are found.

Union, difference and the ascending enumeration are not part of a store. They are put
together from its operations, and what they do follows from the laws
(`contains_union`, `contains_subtract`, `mem_sorted`, `pairwise_sorted`).
-/
import LiveVars.Id

namespace LiveVars

/-- The operations of a store with the states `σ`. -/
structure Store (σ : Type) where
  empty : σ
  collect : List ValueId → σ
  copy : σ → σ
  /-- Puts an id in, and tells whether it was absent. -/
  insert : σ → ValueId → σ × Bool
  contains : σ → ValueId → Bool
  extend : σ → List ValueId → σ
  /-- Keeps the ids that pass a test. -/
  retain : σ → (ValueId → Bool) → σ
  clear : σ → σ
  isSubset : σ → σ → Bool
  equal : σ → σ → Bool
  size : σ → Nat
  isEmpty : σ → Bool
  /-- The ids one by one, in an order of the store's own. -/
  ids : σ → List ValueId

namespace Store

variable {σ : Type} {S : Store σ} {s t : σ} {v : ValueId}

/-- Puts the ids of the second set into the first. -/
def union (S : Store σ) (s t : σ) : σ := S.extend s (S.ids t)

/-- Takes the ids of the second set out of the first, which is not gone through if there are none. -/
def subtract (S : Store σ) (s t : σ) : σ :=
  if S.isEmpty t then s else S.retain s fun v => !S.contains t v

/-- The ids by ascending index. -/
def sorted (S : Store σ) (s : σ) : List ValueId :=
  (S.ids s).mergeSort fun v w => decide (v.index ≤ w.index)

/-- What is expected of a store. -/
structure Lawful (S : Store σ) : Prop where
  contains_empty : ∀ v, S.contains S.empty v = false
  contains_collect : ∀ vs v, S.contains (S.collect vs) v = true ↔ v ∈ vs
  contains_copy : ∀ s v, S.contains (S.copy s) v = S.contains s v
  contains_insert : ∀ s v w, S.contains (S.insert s v).1 w = true ↔ w = v ∨ S.contains s w = true
  insert_absent : ∀ s v, (S.insert s v).2 = !S.contains s v
  contains_extend : ∀ s vs v, S.contains (S.extend s vs) v = true ↔ v ∈ vs ∨ S.contains s v = true
  contains_retain : ∀ s p v, S.contains (S.retain s p) v = true ↔ S.contains s v = true ∧ p v = true
  contains_clear : ∀ s v, S.contains (S.clear s) v = false
  isSubset_iff : ∀ s t, S.isSubset s t = true ↔ ∀ v ∈ S.ids s, S.contains t v = true
  equal_iff : ∀ s t, S.equal s t = true ↔ S.size s = S.size t ∧ ∀ v ∈ S.ids s, S.contains t v = true
  size_eq : ∀ s, S.size s = (S.ids s).length
  isEmpty_iff : ∀ s, S.isEmpty s = true ↔ ∀ v, S.contains s v = false
  mem_ids : ∀ s v, v ∈ S.ids s ↔ S.contains s v = true
  nodup_ids : ∀ s, (S.ids s).Nodup

namespace Lawful

theorem contains_union (h : S.Lawful) :
    S.contains (S.union s t) v = true ↔ S.contains s v = true ∨ S.contains t v = true := by
  rw [union, h.contains_extend, h.mem_ids, or_comm]

/-- Going through the set is saved only where there is nothing to take out. -/
theorem contains_subtract (h : S.Lawful) :
    S.contains (S.subtract s t) v = true ↔ S.contains s v = true ∧ S.contains t v = false := by
  unfold subtract
  split
  · rename_i hempty
    simp [(h.isEmpty_iff t).mp hempty v]
  · rw [h.contains_retain, Bool.not_eq_true']

theorem mem_sorted (h : S.Lawful) : v ∈ S.sorted s ↔ S.contains s v = true := by
  rw [sorted, List.mem_mergeSort, h.mem_ids]

/-- No id comes twice, so the enumeration goes up at every step. -/
theorem pairwise_sorted (h : S.Lawful) (s : σ) : (S.sorted s).Pairwise (· < ·) := by
  have hle : (S.sorted s).Pairwise fun v w => decide (v.index ≤ w.index) = true :=
    List.pairwise_mergeSort (by simpa using fun _ _ _ => Nat.le_trans) (by simpa using fun v w => Nat.le_total ..) _
  have hnodup : (S.sorted s).Nodup := (List.mergeSort_perm ..).nodup_iff.mpr (h.nodup_ids s)
  refine (hle.and hnodup).imp fun ⟨hvw, hne⟩ => ValueId.lt_def.mpr ?_
  exact Nat.lt_of_le_of_ne (of_decide_eq_true hvw) fun heq => hne (ValueId.eq_of_index_eq heq)

end Lawful

end Store

end LiveVars
