/-
Registers hold finite sets. A command has an effect on sets and may ask something of them;
both are said here in terms of finite sets alone (`Command.effect`, `Command.question`).
Carrying out a command on registers has that effect on the sets they stand for
(`sets_run`), and its answer is that to the question (`answer_run`), so any sequence of
commands is answered as finite sets would answer it. A command may name one register twice;
nothing here depends on the two names being different.

The registers may be kept in any store that is lawful. A store can hold one set in many
ways, and then the ways differ by the commands that led to them. What it compares, counts
and enumerates does not: two states that hold each other's ids hold one finite set, because
a finite set inside another one of the same size is all of it (`equal_iff_members`).
-/
import LiveVars.ValueSet.Registers
import Mathlib.Data.Finset.Card

namespace LiveVars

/-! ## The finite set that a store holds -/

namespace Store

variable {σ : Type} {S : Store σ} {s t : σ}

/-- The ids that a state of the store holds. -/
def members (S : Store σ) (s : σ) : Finset ValueId := (S.ids s).toFinset

/-- What is to be seen of a state is what there is to see of the finite set. -/
structure Shows (S : Store σ) (s : σ) (set : Finset ValueId) : Prop where
  contains_iff : ∀ v, S.contains s v = true ↔ v ∈ set
  size : S.size s = set.card
  isEmpty_iff : S.isEmpty s = true ↔ S.size s = 0
  ascending : (S.sorted s).Pairwise (· < ·)
  enumerates : (S.sorted s).toFinset = set

namespace Lawful

theorem mem_members (h : S.Lawful) {v : ValueId} : v ∈ S.members s ↔ S.contains s v = true := by
  rw [members, List.mem_toFinset, h.mem_ids]

theorem card_members (h : S.Lawful) (s : σ) : (S.members s).card = S.size s := by
  rw [members, List.toFinset_card_of_nodup (h.nodup_ids s), h.size_eq]

theorem members_empty (h : S.Lawful) : S.members S.empty = ∅ := by
  ext v
  simp [h.mem_members, h.contains_empty]

theorem members_collect (h : S.Lawful) (vs : List ValueId) : S.members (S.collect vs) = vs.toFinset := by
  ext v
  simp [h.mem_members, h.contains_collect]

theorem members_copy (h : S.Lawful) (s : σ) : S.members (S.copy s) = S.members s := by
  ext v
  simp [h.mem_members, h.contains_copy]

theorem members_insert (h : S.Lawful) (s : σ) (v : ValueId) :
    S.members (S.insert s v).1 = Insert.insert v (S.members s) := by
  ext w
  simp [h.mem_members, h.contains_insert]

theorem members_extend (h : S.Lawful) (s : σ) (vs : List ValueId) :
    S.members (S.extend s vs) = S.members s ∪ vs.toFinset := by
  ext v
  simp [h.mem_members, h.contains_extend, or_comm]

theorem members_union (h : S.Lawful) (s t : σ) : S.members (S.union s t) = S.members s ∪ S.members t := by
  ext v
  simp [h.mem_members, h.contains_union]

theorem members_subtract (h : S.Lawful) (s t : σ) :
    S.members (S.subtract s t) = S.members s \ S.members t := by
  ext v
  simp [h.mem_members, h.contains_subtract]

theorem members_clear (h : S.Lawful) (s : σ) : S.members (S.clear s) = ∅ := by
  ext v
  simp [h.mem_members, h.contains_clear]

theorem forall_ids_iff (h : S.Lawful) :
    (∀ v ∈ S.ids s, S.contains t v = true) ↔ S.members s ⊆ S.members t := by
  simp only [Finset.subset_iff, h.mem_members, h.mem_ids]

theorem equal_iff_members (h : S.Lawful) : S.equal s t = true ↔ S.members s = S.members t := by
  rw [h.equal_iff, h.forall_ids_iff, ← h.card_members s, ← h.card_members t]
  refine ⟨fun ⟨hcard, hsub⟩ => Finset.eq_of_subset_of_card_le hsub (Nat.le_of_eq hcard.symm), fun heq => ?_⟩
  rw [heq]
  exact ⟨rfl, Finset.Subset.refl _⟩

theorem isEmpty_iff_size (h : S.Lawful) : S.isEmpty s = true ↔ S.size s = 0 := by
  rw [h.isEmpty_iff, ← h.card_members, Finset.card_eq_zero, Finset.eq_empty_iff_forall_notMem]
  simp only [h.mem_members, Bool.not_eq_true]

theorem shows_members (h : S.Lawful) (s : σ) : S.Shows s (S.members s) where
  contains_iff _ := h.mem_members.symm
  size := (h.card_members s).symm
  isEmpty_iff := h.isEmpty_iff_size
  ascending := h.pairwise_sorted s
  enumerates := by
    ext v
    rw [List.mem_toFinset, h.mem_sorted, h.mem_members]

end Lawful

end Store

namespace Registers

/-! ## Commands on finite sets -/

namespace Command

/-- What a command makes of the sets. -/
def effect (sets : String → Finset ValueId) : Command → String → Finset ValueId
  | reset r | clear r => Function.update sets r ∅
  | collect r vs => Function.update sets r vs.toFinset
  | copy r source => Function.update sets r (sets source)
  | insert r v => Function.update sets r (Insert.insert v (sets r))
  | extend r vs => Function.update sets r (sets r ∪ vs.toFinset)
  | union r other => Function.update sets r (sets r ∪ sets other)
  | subtract r other => Function.update sets r (sets r \ sets other)
  | contains _ _ | subset _ _ | equal _ _ => sets

/-- What a command asks of the sets it finds. An insertion asks whether the id is new. -/
def question (sets : String → Finset ValueId) : Command → Option Prop
  | insert r v => some (¬ v ∈ sets r)
  | contains r v => some (v ∈ sets r)
  | subset r other => some (sets r ⊆ sets other)
  | equal r other => some (sets r = sets other)
  | reset _ | collect _ _ | copy _ _ | extend _ _ | union _ _ | subtract _ _ | clear _ => none

/-- The questions of commands carried out in turn, each with the set that its register is left with. -/
def outcomes (sets : String → Finset ValueId) : List Command → List (Option Prop × Finset ValueId)
  | [] => []
  | c :: cs => (c.question sets, c.effect sets c.register) :: outcomes (c.effect sets) cs

end Command

/-! ## One command -/

variable {σ : Type} {S : Store σ}

/-- The sets that registers stand for. -/
def sets (S : Store σ) (regs : Registers σ) : String → Finset ValueId := fun r => S.members (regs r)

/-- An answer is there if there is a question, and says whether it is so. -/
def Answers : Option Bool → Option Prop → Prop := Option.Rel fun answer p => answer = true ↔ p

theorem sets_blank (h : S.Lawful) : sets S (blank S) = fun _ => ∅ := funext fun _ => h.members_empty

theorem sets_write (regs : Registers σ) (r : String) (s : σ) :
    sets S (regs.write r s) = Function.update (sets S regs) r (S.members s) := by
  funext q
  by_cases hq : q = r
  · subst hq
    simp [sets]
  · simp [sets, write_other regs s hq, hq]

theorem sets_run (h : S.Lawful) (regs : Registers σ) (c : Command) :
    sets S (regs.run S c).1 = c.effect (sets S regs) := by
  cases c with
  | reset r | collect r vs | copy r source | insert r v | extend r vs | union r other | subtract r other
  | clear r =>
    simp only [run, sets_write, h.members_empty, h.members_collect, h.members_copy, h.members_insert,
      h.members_extend, h.members_union, h.members_subtract, h.members_clear, Command.effect, sets]
  | contains r v | subset r other | equal r other => rfl

theorem answer_run (h : S.Lawful) (regs : Registers σ) (c : Command) :
    Answers (regs.run S c).2 (c.question (sets S regs)) := by
  cases c with
  | insert r v => exact .some (by simp [sets, h.insert_absent, h.mem_members])
  | contains r v => exact .some h.mem_members.symm
  | subset r other => exact .some ((h.isSubset_iff ..).trans h.forall_ids_iff)
  | equal r other => exact .some h.equal_iff_members
  | reset | collect | copy | extend | union | subtract | clear => exact .none

/-! ## Commands in turn -/

/-- The registers after commands carried out in turn. -/
def after (S : Store σ) (regs : Registers σ) (cs : List Command) : Registers σ :=
  cs.foldl (fun regs c => (regs.run S c).1) regs

theorem sets_after (h : S.Lawful) : ∀ (cs : List Command) (regs : Registers σ),
    sets S (regs.after S cs) = cs.foldl Command.effect (sets S regs)
  | [], _ => rfl
  | c :: cs, regs => by
    have hrest := sets_after h cs (regs.run S c).1
    rw [sets_run h] at hrest
    exact hrest

theorem answers_outcomes (h : S.Lawful) : ∀ (cs : List Command) (regs : Registers σ),
    List.Forall₂ (fun a o => Answers a.1 o.1 ∧ S.Shows a.2 o.2) (regs.answers S cs)
      (Command.outcomes (sets S regs) cs)
  | [], _ => .nil
  | c :: cs, regs => by
    have hset : S.Shows ((regs.run S c).1 c.register) (c.effect (sets S regs) c.register) := by
      rw [← sets_run h]
      exact h.shows_members _
    refine .cons ⟨answer_run h regs c, hset⟩ ?_
    rw [← sets_run h]
    exact answers_outcomes h cs (regs.run S c).1

/-- **Registers are finite sets.** Let the store be lawful. Commands carried out in turn on blank registers are
answered as they would be on finite sets that are empty at first, and leave the register they name with what
that set has to show. After them every register shows its set: its members, their number, whether there is
none, and the members in strictly ascending order. Two registers compare equal exactly if they have the same
members, also where the two come from different sequences of commands. -/
theorem registers_are_finsets (h : S.Lawful) (cs : List Command) :
    List.Forall₂ (fun a o => Answers a.1 o.1 ∧ S.Shows a.2 o.2) ((blank S).answers S cs)
        (Command.outcomes (fun _ => ∅) cs) ∧
      (∀ r, S.Shows ((blank S).after S cs r) (cs.foldl Command.effect (fun _ => ∅) r)) ∧
      ∀ cs' r r', S.equal ((blank S).after S cs r) ((blank S).after S cs' r') = true ↔
        ∀ v, S.contains ((blank S).after S cs r) v = S.contains ((blank S).after S cs' r') v := by
  rw [← sets_blank h]
  refine ⟨answers_outcomes h cs _, fun r => ?_, fun cs' r r' => ?_⟩
  · rw [← sets_after h]
    exact h.shows_members _
  · rw [h.equal_iff_members, Finset.ext_iff]
    refine forall_congr' fun v => ?_
    rw [h.mem_members, h.mem_members]
    exact Bool.eq_iff_iff.symm

/-- A store that puts every id on a pile, whether or not it is there already, and sorts out the repetitions
when it is asked for the ids. -/
def pile : Store (List ValueId) where
  empty := []
  collect vs := vs
  copy s := s
  insert s v := (v :: s, decide (¬ v ∈ s))
  contains s v := decide (v ∈ s)
  extend s vs := vs ++ s
  retain s p := s.filter p
  clear _ := []
  isSubset s t := s.all (· ∈ t)
  equal s t := decide (s.dedup.length = t.dedup.length) && s.all (· ∈ t)
  size s := s.dedup.length
  isEmpty s := s.isEmpty
  ids s := s.dedup

theorem lawful_pile : pile.Lawful where
  contains_empty _ := rfl
  contains_collect _ _ := by simp [pile]
  contains_copy _ _ := rfl
  contains_insert _ _ _ := by simp [pile]
  insert_absent _ _ := by simp [pile]
  contains_extend _ _ _ := by simp [pile]
  contains_retain _ _ _ := by simp [pile]
  contains_clear _ _ := rfl
  isSubset_iff _ _ := by simp [pile]
  equal_iff _ _ := by simp [pile]
  size_eq _ := rfl
  isEmpty_iff s := by simp [pile, List.eq_nil_iff_forall_not_mem]
  mem_ids _ _ := by simp [pile]
  nodup_ids s := s.nodup_dedup

/-- Two ways to the same set: with an id that comes twice, and with one that is taken out again. -/
def twoWays : List Command :=
  [.collect "a" [.ofIndex 3, .ofIndex 1], .insert "a" (.ofIndex 3), .extend "b" [.ofIndex 1, .ofIndex 2, .ofIndex 3],
    .collect "c" [.ofIndex 2], .subtract "b" "c", .union "b" "b"]

theorem registers_are_finsets_pile : pile.Lawful ∧
    (blank pile).after pile twoWays "a" ≠ (blank pile).after pile twoWays "b" ∧
    pile.Shows ((blank pile).after pile twoWays "a") {.ofIndex 1, .ofIndex 3} ∧
    pile.Shows ((blank pile).after pile twoWays "b") {.ofIndex 1, .ofIndex 3} ∧
    pile.equal ((blank pile).after pile twoWays "a") ((blank pile).after pile twoWays "b") = true := by
  obtain ⟨_, hshows, hequal⟩ := registers_are_finsets lawful_pile twoWays
  have ha : twoWays.foldl Command.effect (fun _ => ∅) "a" = {.ofIndex 1, .ofIndex 3} := by decide
  have hb : twoWays.foldl Command.effect (fun _ => ∅) "b" = {.ofIndex 1, .ofIndex 3} := by decide
  have hshowsa := ha ▸ hshows "a"
  have hshowsb := hb ▸ hshows "b"
  refine ⟨lawful_pile, by decide, hshowsa, hshowsb, (hequal twoWays "a" "b").mpr fun v => ?_⟩
  exact Bool.eq_iff_iff.mpr ((hshowsa.contains_iff v).trans (hshowsb.contains_iff v).symm)

end Registers

end LiveVars
