/-
Tables with one entry for each position below `n`: what writing an entry does to the
others. The searches and solvers stop because a count of what is left to do goes down
(`countP_lt_countP`).
-/
namespace LiveVars

/-- The table with the entry at one position replaced. -/
@[inline] def put {α : Type} {n : Nat} (xs : Vector α n) (b : Fin n) (a : α) : Vector α n :=
  xs.set b.val a b.isLt

section

variable {α : Type} {n : Nat}

@[simp] theorem get_put_self (xs : Vector α n) (b : Fin n) (a : α) : (put xs b a).get b = a :=
  Vector.getElem_set_self b.isLt

theorem get_put_other (xs : Vector α n) {b c : Fin n} (a : α) (h : c ≠ b) :
    (put xs b a).get c = xs.get c :=
  Vector.getElem_set_ne b.isLt c.isLt fun he => h (Fin.ext he.symm)

theorem get_put_true {marks : Vector Bool n} {b c : Fin n} :
    (put marks b true).get c = true ↔ c = b ∨ marks.get c = true := by
  by_cases hc : c = b
  · subst hc
    simp
  · rw [get_put_other _ _ hc]
    simp [hc]

/-- Writing back what is there changes nothing. -/
theorem put_get (xs : Vector α n) (b : Fin n) : put xs b (xs.get b) = xs :=
  Vector.set_getElem_self b.isLt

@[simp] theorem get_replicate (a : α) (b : Fin n) : (Vector.replicate n a).get b = a :=
  Vector.getElem_replicate b.isLt

@[simp] theorem get_ofFn (f : Fin n → α) (b : Fin n) : (Vector.ofFn f).get b = f b :=
  Vector.getElem_ofFn b.isLt

end

/-- A test that fewer members pass, and one member fewer for sure, counts less. -/
theorem countP_lt_countP {α : Type} {p q : α → Bool} {as : List α} (h : ∀ a ∈ as, p a = true → q a = true)
    {b : α} (hb : b ∈ as) (hq : q b = true) (hp : ¬ p b = true) : as.countP p < as.countP q := by
  have hsame : as.filter p = (as.filter q).filter p := by
    rw [List.filter_filter]
    refine List.filter_congr fun a ha => ?_
    cases hpa : p a with
    | false => rfl
    | true => rw [h a ha hpa, Bool.and_true]
  rw [List.countP_eq_length_filter, List.countP_eq_length_filter, hsame]
  exact List.length_filter_lt_length_iff_exists.mpr ⟨b, List.mem_filter.mpr ⟨hb, hq⟩, hp⟩

end LiveVars
