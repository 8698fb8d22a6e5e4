/-
Finite sets of value ids, kept in strictly ascending lists. That is one of the stores that
sets may be kept in (`ValueSet.store`), and the one that the solvers use: it holds a
set in one way only, so two sets are equal exactly when they have the same members
(`ValueSet.ext`).

Each operation is described by one membership lemma.
-/
import LiveVars.ValueSet.Store

namespace LiveVars

/-! ## Strictly ascending lists -/

namespace Ascending

/-- Puts `v` at its place, or leaves the list alone when `v` is there already. -/
def insert (v : ValueId) : List ValueId → List ValueId
  | [] => [v]
  | x :: xs =>
    if v < x then v :: x :: xs
    else if x < v then x :: insert v xs
    else x :: xs

theorem mem_insert {a v : ValueId} : ∀ {xs : List ValueId}, a ∈ insert v xs ↔ a = v ∨ a ∈ xs
  | [] => by simp [insert]
  | x :: xs => by
    have ih := @mem_insert a v xs
    simp only [insert]
    split
    · simp
    · split
      · simp only [List.mem_cons, ih]; grind
      · have : v = x := ValueId.eq_of_not_lt ‹_› ‹_›
        simp only [List.mem_cons, this]; grind

theorem pairwise_insert {v : ValueId} :
    ∀ {xs : List ValueId}, xs.Pairwise (· < ·) → (insert v xs).Pairwise (· < ·)
  | [], _ => by simp [insert]
  | x :: xs, h => by
    have hx := List.pairwise_cons.mp h
    simp only [insert]
    split
    · rename_i hlt
      refine List.pairwise_cons.mpr ⟨fun a ha => ?_, h⟩
      rcases List.mem_cons.mp ha with rfl | ha
      · exact hlt
      · exact ValueId.lt_trans hlt (hx.1 a ha)
    · split
      · rename_i hlt
        refine List.pairwise_cons.mpr ⟨fun a ha => ?_, pairwise_insert hx.2⟩
        rcases mem_insert.mp ha with rfl | ha
        · exact hlt
        · exact hx.1 a ha
      · exact h

/-- An ascending list whose members all lie in another ascending list is a sublist of it. -/
theorem sublist_of_subset :
    ∀ {xs ys : List ValueId}, xs.Pairwise (· < ·) → ys.Pairwise (· < ·) → (∀ a ∈ xs, a ∈ ys) →
      xs.Sublist ys
  | [], _, _, _, _ => List.nil_sublist _
  | x :: xs, [], _, _, h => by simpa using h x (by simp)
  | x :: xs, y :: ys, hxs, hys, h => by
    have hx := List.pairwise_cons.mp hxs
    have hy := List.pairwise_cons.mp hys
    by_cases hxy : x = y
    · subst hxy
      refine (sublist_of_subset hx.2 hy.2 fun a ha => ?_).cons_cons x
      rcases List.mem_cons.mp (h a (by simp [ha])) with rfl | hm
      · exact absurd (hx.1 a ha) (ValueId.lt_irrefl a)
      · exact hm
    · refine (sublist_of_subset hxs hy.2 fun a ha => ?_).cons y
      have hxm : x ∈ ys := by
        rcases List.mem_cons.mp (h x (by simp)) with hm | hm
        · exact absurd hm hxy
        · exact hm
      rcases List.mem_cons.mp (h a ha) with rfl | hm
      · rcases List.mem_cons.mp ha with rfl | ha
        · exact absurd rfl hxy
        · exact absurd (hx.1 a ha) (ValueId.lt_asymm (hy.1 x hxm))
      · exact hm

end Ascending

/-! ## Value sets -/

/-- A finite set of value ids. -/
structure ValueSet where
  ids : List ValueId
  ascending : ids.Pairwise (· < ·)
deriving DecidableEq

namespace ValueSet

instance : Membership ValueId ValueSet := ⟨fun s v => v ∈ s.ids⟩

theorem mem_ids {v : ValueId} {s : ValueSet} : v ∈ s.ids ↔ v ∈ s := Iff.rfl

instance (v : ValueId) (s : ValueSet) : Decidable (v ∈ s) :=
  inferInstanceAs (Decidable (v ∈ s.ids))

instance : HasSubset ValueSet := ⟨fun s t => ∀ v, v ∈ s → v ∈ t⟩

theorem subset_def {s t : ValueSet} : s ⊆ t ↔ ∀ v, v ∈ s → v ∈ t := Iff.rfl

def empty : ValueSet := ⟨[], List.Pairwise.nil⟩

instance : EmptyCollection ValueSet := ⟨empty⟩

instance : Inhabited ValueSet := ⟨∅⟩

def insert (s : ValueSet) (v : ValueId) : ValueSet :=
  ⟨Ascending.insert v s.ids, Ascending.pairwise_insert s.ascending⟩

def insertAll (s : ValueSet) (vs : List ValueId) : ValueSet := vs.foldl insert s

def ofList (vs : List ValueId) : ValueSet := insertAll ∅ vs

/-- The members that pass a test. -/
def filter (s : ValueSet) (p : ValueId → Bool) : ValueSet := ⟨s.ids.filter p, s.ascending.filter p⟩

/-- Whether the first set lies in the second. -/
def isSubset (s t : ValueSet) : Bool := s.ids.all (· ∈ t)

def size (s : ValueSet) : Nat := s.ids.length

def isEmpty (s : ValueSet) : Bool := s.ids.isEmpty

/-! ## Membership -/

theorem ext {s t : ValueSet} (h : ∀ v, v ∈ s ↔ v ∈ t) : s = t := by
  obtain ⟨xs, hxs⟩ := s
  obtain ⟨ys, hys⟩ := t
  have h₁ := Ascending.sublist_of_subset hxs hys fun a ha => (h a).mp ha
  have h₂ := Ascending.sublist_of_subset hys hxs fun a ha => (h a).mpr ha
  have : xs = ys := h₁.eq_of_length_le h₂.length_le
  subst this
  rfl

@[simp] theorem not_mem_empty {v : ValueId} : ¬ v ∈ (∅ : ValueSet) := List.not_mem_nil

@[simp] theorem mem_insert {v w : ValueId} {s : ValueSet} : v ∈ s.insert w ↔ v = w ∨ v ∈ s :=
  Ascending.mem_insert

@[simp] theorem mem_insertAll {v : ValueId} :
    ∀ {vs : List ValueId} {s : ValueSet}, v ∈ s.insertAll vs ↔ v ∈ vs ∨ v ∈ s
  | [], s => by simp [insertAll]
  | w :: vs, s => by
    have ih := @mem_insertAll v vs (s.insert w)
    simp only [insertAll, List.foldl_cons] at ih ⊢
    rw [ih, mem_insert, List.mem_cons]
    grind

@[simp] theorem mem_ofList {v : ValueId} {vs : List ValueId} : v ∈ ofList vs ↔ v ∈ vs := by
  simp [ofList]

@[simp] theorem mem_filter {v : ValueId} {s : ValueSet} {p : ValueId → Bool} :
    v ∈ s.filter p ↔ v ∈ s ∧ p v = true := List.mem_filter

theorem isSubset_iff {s t : ValueSet} : s.isSubset t = true ↔ s ⊆ t := by
  simp only [isSubset, List.all_eq_true, decide_eq_true_iff, mem_ids, subset_def]

instance (s t : ValueSet) : Decidable (s ⊆ t) := decidable_of_iff _ isSubset_iff

theorem isEmpty_iff {s : ValueSet} : s.isEmpty = true ↔ ∀ v, ¬ v ∈ s :=
  List.isEmpty_iff.trans List.eq_nil_iff_forall_not_mem

theorem nodup_ids (s : ValueSet) : s.ids.Nodup := by
  refine s.ascending.imp fun hlt heq => ?_
  subst heq
  exact ValueId.lt_irrefl _ hlt

/-! ## Inclusion and size -/

theorem subset_refl (s : ValueSet) : s ⊆ s := fun _ h => h

theorem subset_trans {s t u : ValueSet} (h : s ⊆ t) (h' : t ⊆ u) : s ⊆ u :=
  fun v hv => h' v (h v hv)

theorem subset_antisymm {s t : ValueSet} (h : s ⊆ t) (h' : t ⊆ s) : s = t :=
  ext fun v => ⟨h v, h' v⟩

/-- A set that lies in another one and differs from it lacks one of its members. -/
theorem exists_mem_not_mem {s t : ValueSet} (h : s ⊆ t) (hne : s ≠ t) : ∃ v, v ∈ t ∧ ¬ v ∈ s :=
  Classical.byContradiction fun hno => hne (subset_antisymm h fun v hv =>
    Classical.byContradiction fun hv' => hno ⟨v, hv, hv'⟩)

theorem size_le_of_subset {s t : ValueSet} (h : s ⊆ t) : s.size ≤ t.size :=
  (Ascending.sublist_of_subset s.ascending t.ascending h).length_le

/-- A set that lies in another one and differs from it is smaller. -/
theorem size_lt_of_subset {s t : ValueSet} (h : s ⊆ t) (hne : s ≠ t) : s.size < t.size := by
  have hsub := Ascending.sublist_of_subset s.ascending t.ascending h
  refine Nat.lt_of_le_of_ne hsub.length_le fun hlen => hne ?_
  exact ext fun v => by rw [← mem_ids, ← mem_ids, hsub.eq_of_length hlen]

/-! ## The store of ascending lists -/

def store : Store ValueSet where
  empty := ∅
  collect := ofList
  copy s := s
  insert s v := (s.insert v, decide (¬ v ∈ s))
  contains s v := decide (v ∈ s)
  extend := insertAll
  retain := filter
  clear _ := ∅
  isSubset := isSubset
  equal s t := decide (s = t)
  size := size
  isEmpty := isEmpty
  ids := ids

theorem contains_store {s : ValueSet} {v : ValueId} : store.contains s v = true ↔ v ∈ s := decide_eq_true_iff

theorem lawful_store : store.Lawful where
  contains_empty _ := rfl
  contains_collect _ _ := by simp [store]
  contains_copy _ _ := rfl
  contains_insert _ _ _ := by simp [store]
  insert_absent _ _ := by simp [store]
  contains_extend _ _ _ := by simp [store]
  contains_retain _ _ _ := by simp [store]
  contains_clear _ _ := rfl
  isSubset_iff s t := by simp only [contains_store]; exact isSubset_iff
  equal_iff s t := by
    simp only [contains_store]
    refine decide_eq_true_iff.trans ⟨fun h => ?_, fun ⟨hsize, hsub⟩ => ?_⟩
    · subst h
      exact ⟨rfl, fun _ hv => hv⟩
    · refine Decidable.byContradiction fun hne => ?_
      exact absurd hsize (Nat.ne_of_lt (size_lt_of_subset hsub hne))
  size_eq _ := rfl
  isEmpty_iff s := by simpa [store] using isEmpty_iff
  mem_ids _ _ := contains_store.symm
  nodup_ids := nodup_ids

instance : Union ValueSet := ⟨store.union⟩

instance : SDiff ValueSet := ⟨store.subtract⟩

@[simp] theorem mem_union {v : ValueId} {s t : ValueSet} : v ∈ s ∪ t ↔ v ∈ s ∨ v ∈ t := by
  have h := lawful_store.contains_union (v := v) (s := s) (t := t)
  simp only [contains_store] at h
  exact h

@[simp] theorem mem_diff {v : ValueId} {s t : ValueSet} : v ∈ s \ t ↔ v ∈ s ∧ ¬ v ∈ t := by
  have h := lawful_store.contains_subtract (v := v) (s := s) (t := t)
  simp only [← Bool.not_eq_true, contains_store] at h
  exact h

/-- The members by ascending index. -/
def sorted (s : ValueSet) : List ValueId := store.sorted s

theorem mem_sorted {v : ValueId} {s : ValueSet} : v ∈ s.sorted ↔ v ∈ s :=
  lawful_store.mem_sorted.trans contains_store

theorem pairwise_sorted (s : ValueSet) : s.sorted.Pairwise (· < ·) := lawful_store.pairwise_sorted s

end ValueSet

end LiveVars
