/-
Which fault the check of a listing reports. All that can be wrong with a listing is laid
out by address (`Listing.FaultAt`): the function as a whole and its entry, then the blocks
in layout order; in a block the instructions in turn, at each its opcode, its arguments
and its result, then the targets of the branch at its end, then its edges. Addresses
compare like words. A listing may have many faults, and the check reports the one with the
first address (`Listing.finds_fault?`).

The check is a search nested in searches, and each of them is a search through a list, if
only of three items. So there is one lemma for them all: a search through a list of
searches finds what comes first by place in the list and then by what the search at that
place finds first (`Finds.findSome?`).
-/
import LiveVars.Function.Basic

namespace LiveVars

/-! ## Searching in order -/

/-- Where something stands: numbers, from the outside in. -/
abbrev Address := List Nat

/-- Addresses compare like words, by the first number in which they differ. -/
def Address.Before (p q : Address) : Prop := List.Lex (· < ·) p q

/-- `x` stands at an address before which nothing stands. -/
def First {α : Type} (At : Address → α → Prop) (x : α) : Prop :=
  ∃ p, At p x ∧ ∀ q y, At q y → ¬ q.Before p

/-- The outcome of a search for what stands first: nothing, only if nothing stands anywhere. -/
def Finds {α : Type} (At : Address → α → Prop) : Option α → Prop
  | some x => First At x
  | none => ∀ p x, ¬ At p x

namespace Address

theorem not_before_nil (p : Address) : ¬ p.Before [] := nofun

theorem before_cons_iff {i j : Nat} {p q : Address} :
    Before (i :: p) (j :: q) ↔ i < j ∨ i = j ∧ p.Before q := List.cons_lex_cons_iff

theorem eq_of_not_before {p q : Address} (h : ¬ p.Before q) (h' : ¬ q.Before p) : p = q :=
  List.le_antisymm h' h

end Address

theorem First.unique {α : Type} {At : Address → α → Prop} (hAt : ∀ p x y, At p x → At p y → x = y) {x y : α}
    (hx : First At x) (hy : First At y) : x = y := by
  obtain ⟨p, hp, hfirst⟩ := hx
  obtain ⟨q, hq, hfirst'⟩ := hy
  have hpq : p = q := Address.eq_of_not_before (hfirst' p x hp) (hfirst q y hq)
  exact hAt p x y hp (hpq ▸ hq)

namespace Finds

variable {α β : Type} {At : Address → α → Prop} {o : Option α}

theorem eq_some_iff (h : Finds At o) (hAt : ∀ p x y, At p x → At p y → x = y) {x : α} :
    o = some x ↔ First At x := by
  cases o with
  | none =>
    refine ⟨fun he => (by cases he), fun ⟨p, hp, _⟩ => absurd hp (h p x)⟩
  | some y =>
    refine ⟨fun he => ?_, fun hx => ?_⟩
    · cases he
      exact h
    · rw [First.unique hAt h hx]

theorem of_iff {c : Prop} [Decidable c] {x : α} (h : ∀ p y, At p y ↔ c ∧ p = [] ∧ y = x) :
    Finds At (if c then some x else none) := by
  split
  · rename_i hc
    exact ⟨[], (h [] x).mpr ⟨hc, rfl, rfl⟩, fun q _ _ => q.not_before_nil⟩
  · rename_i hc
    exact fun p y hy => hc ((h p y).mp hy).1

theorem findSome? {f : β → Option α} {xs : List β}
    (hat : ∀ i x, xs[i]? = some x → Finds (fun p => At (i :: p)) (f x))
    (hin : ∀ p y, At p y → ∃ i q, p = i :: q ∧ i < xs.length) : Finds At (xs.findSome? f) := by
  cases h : xs.findSome? f with
  | none =>
    intro p y hy
    obtain ⟨i, q, rfl, hi⟩ := hin p y hy
    have hnone := hat i _ (List.getElem?_eq_getElem hi)
    rw [List.findSome?_eq_none_iff.mp h _ (List.getElem_mem hi)] at hnone
    exact hnone q y hy
  | some a =>
    obtain ⟨before, x, after, rfl, hx, hbefore⟩ := List.findSome?_eq_some_iff.mp h
    have hfound := hat before.length x (by simp)
    rw [hx] at hfound
    obtain ⟨p, hp, hfirst⟩ := hfound
    refine ⟨before.length :: p, hp, fun q y hy hq => ?_⟩
    obtain ⟨i, q, rfl, _⟩ := hin q y hy
    rcases Address.before_cons_iff.mp hq with hi | ⟨rfl, hq'⟩
    · -- An earlier item, with which the search came up with nothing.
      have hnone := hat i before[i] (by rw [List.getElem?_append_left hi, List.getElem?_eq_getElem hi])
      rw [hbefore _ (List.getElem_mem hi)] at hnone
      exact hnone q y hy
    · exact hfirst q y hy hq'

theorem or_or {a b c : Option α} (ha : Finds (fun p => At (0 :: p)) a) (hb : Finds (fun p => At (1 :: p)) b)
    (hc : Finds (fun p => At (2 :: p)) c) (hin : ∀ p y, At p y → ∃ i q, p = i :: q ∧ i < 3) :
    Finds At ((a.or b).or c) := by
  have hlist : (a.or b).or c = [a, b, c].findSome? id := by
    cases a <;> cases b <;> cases c <;> rfl
  rw [hlist]
  refine findSome? (fun i x hx => ?_) hin
  match i with
  | 0 => cases hx; exact ha
  | 1 => cases hx; exact hb
  | 2 => cases hx; exact hc
  | _ + 3 => cases hx

end Finds

/-! ## What can be wrong, and where -/

/-- The faults of block `id`, by address, in a function with so many values and blocks. Instruction `k` is
at `[0, k]`, with its opcode, arguments and result below it in this order; the targets of the branch at the
end are at `[1]`, and edge `j` is at `[2, j]`. -/
inductive Block.FaultAt (values blocks : Nat) (id : BlockId) (b : Block) : Address → Fault → Prop
  | terminatorInside {k : Nat} {i : Instruction} :
      b.instrs[k]? = some i → i.isTerminator = true → k + 1 < b.instrs.length →
      FaultAt values blocks id b [0, k, 0] (.terminatorInside id k)
  | undeclaredArg {k j : Nat} {i : Instruction} {v : ValueId} :
      b.instrs[k]? = some i → i.args[j]? = some (.value v) → values ≤ v.index →
      FaultAt values blocks id b [0, k, 1, j] (.undeclaredValue id k v)
  | undeclaredResult {k : Nat} {i : Instruction} {v : ValueId} :
      b.instrs[k]? = some i → i.result = some v → values ≤ v.index →
      FaultAt values blocks id b [0, k, 2] (.undeclaredValue id k v)
  | targetsMissing {i : Instruction} :
      b.instrs.getLast? = some i → i.opcode.isBranch = true → b.succs = [] →
      FaultAt values blocks id b [1] (.targetsMissing id (b.instrs.length - 1))
  | successorMissing {j : Nat} {s : BlockId} :
      b.succs[j]? = some s → blocks ≤ s.index →
      FaultAt values blocks id b [2, j] (.successorMissing id s)

/-- The faults of a listing, by address: the layout at `[0]`, the entry at `[1]` and block `k` at `[2, k]`. -/
inductive Listing.FaultAt (l : Listing) : Address → Fault → Prop
  | noBlocks : l.blocks.size = 0 → FaultAt l [0] .noBlocks
  | entryMissing : l.blocks.size ≤ l.entry.index → FaultAt l [1] (.entryMissing l.entry)
  | block {id : BlockId} {b : Block} {p : Address} {x : Fault} :
      l.blocks[id.index]? = some b → b.FaultAt l.values.size l.blocks.size id p x →
      FaultAt l (2 :: id.index :: p) x

/-! ## Blocks -/

namespace Block

variable {values blocks : Nat} {id : BlockId} {b : Block}

theorem FaultAt.unique {p : Address} {x y : Fault} (h : b.FaultAt values blocks id p x)
    (h' : b.FaultAt values blocks id p y) : x = y := by
  cases h with
  | terminatorInside => cases h'; rfl
  | undeclaredArg hi hv =>
    cases h' with
    | undeclaredArg hi' hv' =>
      cases hi.symm.trans hi'
      cases hv.symm.trans hv'
      rfl
  | undeclaredResult hi hv =>
    cases h' with
    | undeclaredResult hi' hv' =>
      cases hi.symm.trans hi'
      cases hv.symm.trans hv'
      rfl
  | targetsMissing => cases h'; rfl
  | successorMissing hs =>
    cases h' with
    | successorMissing hs' =>
      cases hs.symm.trans hs'
      rfl

theorem Valid.not_faultAt (h : b.Valid values blocks) (p : Address) (x : Fault) :
    ¬ b.FaultAt values blocks id p x := by
  intro hx
  cases hx with
  | terminatorInside hi ht hlt =>
    have := h.terminator_last _ _ hi ht
    omega
  | undeclaredArg hi hv hle =>
    have hmem := Instruction.mem_reads.mpr (List.mem_of_getElem? hv)
    have := h.declared _ (List.mem_of_getElem? hi) _ (List.mem_append_left _ hmem)
    omega
  | undeclaredResult hi hv hle =>
    have hmem := Option.mem_toList.mpr hv
    have := h.declared _ (List.mem_of_getElem? hi) _ (List.mem_append_right _ hmem)
    omega
  | targetsMissing hi hb hnil => exact h.branch_targets (endsInBranch_iff.mpr ⟨_, hi, hb⟩) hnil
  | successorMissing hs hle =>
    have := h.succs_lt _ (List.mem_of_getElem? hs)
    omega

end Block

/-! ## The check, search by search -/

/-- The fault of an instruction that names `v`, if `v` is not declared. -/
def undeclared? (values : Nat) (block : BlockId) (k : Nat) (v : ValueId) : Option Fault :=
  if values ≤ v.index then some (.undeclaredValue block k v) else none

theorem findSome?_filterMap {α β γ : Type} (f : α → Option β) (g : β → Option γ) :
    ∀ xs : List α, (xs.filterMap f).findSome? g = xs.findSome? fun x => (f x).bind g
  | [] => rfl
  | x :: xs => by
    have ih := findSome?_filterMap f g xs
    cases h : f x <;> simp [List.findSome?_cons, h, ih]

theorem findSome?_toList {α β : Type} (o : Option α) (f : α → Option β) : o.toList.findSome? f = o.bind f := by
  cases o <;> simp

theorem map_find?_eq_findSome? {α β : Type} (p : α → Prop) [DecidablePred p] (g : α → β) (xs : List α) :
    (xs.find? fun x => p x).map g = xs.findSome? fun x => if p x then some (g x) else none := by
  induction xs with
  | nil => rfl
  | cons x xs ih => by_cases h : p x <;> simp [h, ih]

theorem Instruction.fault?_eq (values : Nat) (block : BlockId) (k : Nat) (isLast : Bool) (i : Instruction) :
    i.fault? values block k isLast =
      ((if i.isTerminator = true ∧ isLast = false then some (.terminatorInside block k) else none).or
        (i.args.findSome? fun o => o.value?.bind (undeclared? values block k))).or
        (i.result.bind (undeclared? values block k)) := by
  have hvalues : (i.mentions.find? fun v => values ≤ v.index).map (.undeclaredValue block k) =
      (i.args.findSome? fun o => o.value?.bind (undeclared? values block k)).or
        (i.result.bind (undeclared? values block k)) := by
    rw [map_find?_eq_findSome? (fun v : ValueId => values ≤ v.index), mentions, List.findSome?_append, reads,
      findSome?_filterMap, findSome?_toList]
    rfl
  rw [fault?, hvalues, Option.or_assoc]
  cases i.isTerminator <;> cases isLast <;> rfl

namespace Block

variable {values blocks : Nat} {id : BlockId} {b : Block}

section Instruction

variable {k : Nat} {i : Instruction} (hi : b.instrs[k]? = some i)
include hi

theorem eq_of_getElem? {i' : Instruction} (hi' : b.instrs[k]? = some i') : i' = i :=
  Option.some.inj (hi'.symm.trans hi)

theorem finds_opcode : Finds (fun p => b.FaultAt values blocks id (0 :: k :: 0 :: p))
    (if i.isTerminator = true ∧ (k + 1 == b.instrs.length) = false then some (.terminatorInside id k)
      else none) := by
  refine .of_iff fun p x => ⟨fun hx => ?_, ?_⟩
  · cases hx with
    | terminatorInside hi' ht hlt =>
      cases eq_of_getElem? hi hi'
      exact ⟨⟨ht, by rw [beq_eq_false_iff_ne]; omega⟩, rfl, rfl⟩
  · rintro ⟨⟨ht, hlast⟩, rfl, rfl⟩
    have hk : k < b.instrs.length := (List.getElem?_eq_some_iff.mp hi).1
    rw [beq_eq_false_iff_ne] at hlast
    exact .terminatorInside hi ht (by omega)

theorem finds_arg {j : Nat} {o : Operand} (ho : i.args[j]? = some o) :
    Finds (fun p => b.FaultAt values blocks id (0 :: k :: 1 :: j :: p))
      (o.value?.bind (undeclared? values id k)) := by
  cases o with
  | const c =>
    intro p x hx
    cases hx with
    | undeclaredArg hi' hv =>
      cases eq_of_getElem? hi hi'
      cases ho.symm.trans hv
  | value v =>
    refine .of_iff fun p x => ⟨fun hx => ?_, ?_⟩
    · cases hx with
      | undeclaredArg hi' hv hle =>
        cases eq_of_getElem? hi hi'
        cases ho.symm.trans hv
        exact ⟨hle, rfl, rfl⟩
    · rintro ⟨hle, rfl, rfl⟩
      exact .undeclaredArg hi ho hle

theorem finds_args : Finds (fun p => b.FaultAt values blocks id (0 :: k :: 1 :: p))
    (i.args.findSome? fun o => o.value?.bind (undeclared? values id k)) := by
  refine .findSome? (fun j o ho => finds_arg hi ho) fun p x hx => ?_
  cases hx with
  | undeclaredArg hi' hv =>
    cases eq_of_getElem? hi hi'
    exact ⟨_, _, rfl, (List.getElem?_eq_some_iff.mp hv).1⟩

theorem finds_result : Finds (fun p => b.FaultAt values blocks id (0 :: k :: 2 :: p))
    (i.result.bind (undeclared? values id k)) := by
  cases hr : i.result with
  | none =>
    intro p x hx
    cases hx with
    | undeclaredResult hi' hv =>
      cases eq_of_getElem? hi hi'
      cases hr.symm.trans hv
  | some v =>
    refine .of_iff fun p x => ⟨fun hx => ?_, ?_⟩
    · cases hx with
      | undeclaredResult hi' hv hle =>
        cases eq_of_getElem? hi hi'
        cases hr.symm.trans hv
        exact ⟨hle, rfl, rfl⟩
    · rintro ⟨hle, rfl, rfl⟩
      exact .undeclaredResult hi hr hle

theorem finds_instr : Finds (fun p => b.FaultAt values blocks id (0 :: k :: p))
    (i.fault? values id k (k + 1 == b.instrs.length)) := by
  rw [Instruction.fault?_eq]
  refine .or_or (finds_opcode hi) (finds_args hi) (finds_result hi) fun p x hx => ?_
  cases hx <;> exact ⟨_, _, rfl, by omega⟩

end Instruction

theorem finds_instrFault? :
    Finds (fun p => b.FaultAt values blocks id (0 :: p)) (b.instrFault? values id) := by
  refine .findSome? (fun k x hx => ?_) fun p x hx => ?_
  · rw [List.getElem?_zipIdx, Option.map_eq_some_iff] at hx
    obtain ⟨i, hi, rfl⟩ := hx
    rw [Nat.zero_add]
    exact finds_instr hi
  · rw [List.length_zipIdx]
    cases hx with
    | terminatorInside hi | undeclaredArg hi | undeclaredResult hi =>
      exact ⟨_, _, rfl, (List.getElem?_eq_some_iff.mp hi).1⟩

theorem finds_targetFault? :
    Finds (fun p => b.FaultAt values blocks id (1 :: p)) (b.targetFault? id) := by
  refine .of_iff fun p x => ⟨fun hx => ?_, ?_⟩
  · cases hx with
    | targetsMissing hi hb hnil => exact ⟨by simp [endsInBranch, hi, hb, hnil], rfl, rfl⟩
  · rintro ⟨h, rfl, rfl⟩
    rw [Bool.and_eq_true, endsInBranch_iff, List.isEmpty_iff] at h
    obtain ⟨⟨i, hi, hb⟩, hnil⟩ := h
    exact .targetsMissing hi hb hnil

theorem finds_edgeFault? :
    Finds (fun p => b.FaultAt values blocks id (2 :: p)) (b.edgeFault? blocks id) := by
  rw [edgeFault?, map_find?_eq_findSome? (fun s : BlockId => blocks ≤ s.index)]
  refine .findSome? (fun j s hs => .of_iff fun p x => ⟨fun hx => ?_, ?_⟩) fun p x hx => ?_
  · cases hx with
    | successorMissing hs' hle =>
      cases hs.symm.trans hs'
      exact ⟨hle, rfl, rfl⟩
  · rintro ⟨hle, rfl, rfl⟩
    exact .successorMissing hs hle
  · cases hx with
    | successorMissing hs => exact ⟨_, _, rfl, (List.getElem?_eq_some_iff.mp hs).1⟩

theorem finds_fault? : Finds (b.FaultAt values blocks id) (b.fault? values blocks id) := by
  refine .or_or finds_instrFault? finds_targetFault? finds_edgeFault? fun p x hx => ?_
  cases hx <;> exact ⟨_, _, rfl, by omega⟩

end Block

namespace Listing

variable {l : Listing}

theorem fault?_eq (l : Listing) : l.fault? =
    ((if l.blocks.size = 0 then some .noBlocks else none).or
      (if l.blocks.size ≤ l.entry.index then some (.entryMissing l.entry) else none)).or
      (l.blocks.toList.zipIdx.findSome? fun (b, i) => b.fault? l.values.size l.blocks.size (.ofIndex i)) := by
  unfold fault?
  split
  · rfl
  · split <;> rfl

theorem faultAt_block_iff {id : BlockId} {b : Block} (hb : l.blocks[id.index]? = some b) {p : Address}
    {x : Fault} : l.FaultAt (2 :: id.index :: p) x ↔ b.FaultAt l.values.size l.blocks.size id p x := by
  refine ⟨fun hx => ?_, .block hb⟩
  generalize hq : 2 :: id.index :: p = q at hx
  cases hx with
  | noBlocks | entryMissing => cases hq
  | block hb' hx =>
    simp only [List.cons.injEq, true_and] at hq
    obtain ⟨hid, rfl⟩ := hq
    cases BlockId.eq_of_index_eq hid
    cases hb.symm.trans hb'
    exact hx

theorem FaultAt.unique {p : Address} {x y : Fault} (h : l.FaultAt p x) (h' : l.FaultAt p y) : x = y := by
  cases h with
  | noBlocks => cases h'; rfl
  | entryMissing => cases h'; rfl
  | block hb hx => exact hx.unique ((faultAt_block_iff hb).mp h')

theorem Valid.not_faultAt (h : l.Valid) (p : Address) (x : Fault) : ¬ l.FaultAt p x := by
  intro hx
  have hentry := h.entry_lt
  cases hx with
  | noBlocks hzero => omega
  | entryMissing hle => omega
  | block hb hx => exact (h.blocks _ (Array.mem_of_getElem? hb)).not_faultAt _ _ hx

theorem finds_blocks (hsize : l.blocks.size ≤ idLimit) : Finds (fun p => l.FaultAt (2 :: p))
    (l.blocks.toList.zipIdx.findSome? fun (b, i) => b.fault? l.values.size l.blocks.size (.ofIndex i)) := by
  refine .findSome? (fun k y hy => ?_) fun p x hx => ?_
  · rw [List.getElem?_zipIdx, Option.map_eq_some_iff] at hy
    obtain ⟨b, hb, rfl⟩ := hy
    rw [Array.getElem?_toList] at hb
    have hk : k < l.blocks.size := (Array.getElem?_eq_some_iff.mp hb).1
    -- Within the limit every position has an id of its own.
    obtain ⟨id, rfl⟩ := BlockId.exists_index_eq (Nat.lt_of_lt_of_le hk hsize)
    have hat : (fun p => l.FaultAt (2 :: id.index :: p)) = b.FaultAt l.values.size l.blocks.size id :=
      funext fun p => funext fun x => propext (faultAt_block_iff hb)
    rw [hat, Nat.zero_add]
    show Finds _ (b.fault? _ _ (.ofIndex id.index))
    rw [BlockId.ofIndex_index]
    exact Block.finds_fault?
  · rw [List.length_zipIdx, Array.length_toList]
    cases hx with
    | block hb => exact ⟨_, _, rfl, (Array.getElem?_eq_some_iff.mp hb).1⟩

/-- The check reports the first fault of a listing, if there are ids for all its blocks. -/
theorem finds_fault? (hsize : l.blocks.size ≤ idLimit) : Finds l.FaultAt l.fault? := by
  rw [fault?_eq]
  refine .or_or (.of_iff fun p x => ⟨fun hx => ?_, ?_⟩) (.of_iff fun p x => ⟨fun hx => ?_, ?_⟩)
    (finds_blocks hsize) fun p x hx => ?_
  · cases hx with
    | noBlocks hzero => exact ⟨hzero, rfl, rfl⟩
  · rintro ⟨hzero, rfl, rfl⟩
    exact .noBlocks hzero
  · cases hx with
    | entryMissing hle => exact ⟨hle, rfl, rfl⟩
  · rintro ⟨hle, rfl, rfl⟩
    exact .entryMissing hle
  · cases hx <;> exact ⟨_, _, rfl, by omega⟩

theorem exists_faultAt (hsize : l.blocks.size ≤ idLimit) {x : Fault} (h : l.fault? = some x) :
    ∃ p, l.FaultAt p x := by
  have hfinds := finds_fault? hsize
  rw [h] at hfinds
  obtain ⟨p, hp, _⟩ := hfinds
  exact ⟨p, hp⟩

theorem fault?_eq_none_iff (hsize : l.blocks.size ≤ idLimit) : l.fault? = none ↔ l.Valid := by
  refine ⟨valid_of_fault?, fun hvalid => Option.eq_none_iff_forall_ne_some.mpr fun x hx => ?_⟩
  obtain ⟨p, hp⟩ := exists_faultAt hsize hx
  exact hvalid.not_faultAt p x hp

theorem check_eq_error_iff {x : Fault} : l.check = .error x ↔ l.fault? = some x := by
  unfold check
  split
  · rename_i y h
    simp [h]
  · rename_i h
    simp [h]

theorem exists_check_eq_ok_iff : (∃ f, l.check = .ok f) ↔ l.fault? = none := by
  unfold check
  split
  · rename_i y h
    simp [h]
  · rename_i h
    simp [h]

end Listing

end LiveVars
