/-
What a report says. A report goes through the blocks of a function in layout order and asks a
result for the sets of each; the result may be another function's. If it covers fewer blocks
the first one missing ends the report, and its index is the number of blocks covered
(`Report.of_of_lt`). Otherwise every block has its record (`Report.of_of_le`), and what a
record says is said here without the functions that wrote it: which blocks are reachable by
walks, which values a list names by the ascending ids it stands for.

A value without a name in the function can only come from another function's result, since
what is live is read somewhere and what a function reads it declares.
-/
import LiveVars.Proofs.FinishingOrder
import LiveVars.Proofs.ForeignResults
import LiveVars.Report
import Mathlib.Data.List.Forall2

namespace LiveVars

/-! ## Going through a list that may fail -/

section MapM

variable {ε α β : Type} {f : α → Except ε β} {g : α → β}

theorem mapM_eq_ok : ∀ {xs : List α}, (∀ x ∈ xs, f x = .ok (g x)) → xs.mapM f = .ok (xs.map g)
  | [], _ => rfl
  | x :: xs, h => by
    rw [List.mapM_cons, h x (by simp), mapM_eq_ok fun y hy => h y (by simp [hy])]
    rfl

/-- The first failure is the one that counts. -/
theorem mapM_eq_error {x : α} {e : ε} (hx : f x = .error e) (after : List α) : ∀ {before : List α},
    (∀ y ∈ before, ∃ z, f y = .ok z) → (before ++ x :: after).mapM f = .error e
  | [], _ => by
    rw [List.nil_append, List.mapM_cons, hx]
    rfl
  | y :: before, h => by
    obtain ⟨z, hz⟩ := h y (by simp)
    rw [List.cons_append, List.mapM_cons, hz, mapM_eq_error hx after fun w hw => h w (by simp [hw])]
    rfl

end MapM

/-! ## What records say -/

namespace Function

/-- How a value is written: under its name, or as `%` and its id if the function has no such value. -/
def Spelled (f : Function) (v : ValueId) (text : String) : Prop :=
  f.values[v.index]? = some text ∨ f.valueCount ≤ v.index ∧ text = "%" ++ toString v.index

/-- The texts stand for the values with the given property, each once, by ascending id. -/
def Spells (f : Function) (P : ValueId → Prop) (texts : List String) : Prop :=
  ∃ ids : List ValueId, ids.Pairwise (· < ·) ∧ (∀ v, v ∈ ids ↔ P v) ∧ List.Forall₂ f.Spelled ids texts

theorem spelled_label (f : Function) (v : ValueId) : f.Spelled v (f.label v) := by
  unfold label
  split
  · rename_i h
    exact Or.inl h
  · rename_i h
    exact Or.inr ⟨Array.getElem?_eq_none_iff.mp h, rfl⟩

theorem spells_labels (f : Function) {P : ValueId → Prop} {s : ValueSet} (h : ∀ v, v ∈ s ↔ P v) :
    f.Spells P (f.labels s) := by
  refine ⟨s.sorted, s.pairwise_sorted, fun v => ValueSet.mem_sorted.trans (h v), ?_⟩
  rw [labels, List.forall₂_map_right_iff, List.forall₂_same]
  exact fun v _ => f.spelled_label v

end Function

/-- The record tells the truth of block `b` of `f`, if `l` is right about what is live. -/
structure BlockRecord.Describes {n : Nat} (r : BlockRecord) (f : Function) (l : Liveness n)
    (b : Fin f.blockCount) : Prop where
  block : r.block.index = b
  name : r.name = (f.block b).name
  instrCount : r.instrCount = (f.block b).instrs.length
  reachable : r.reachable = true ↔ f.graph.Reaches f.graph.entry b
  liveIn : f.Spells (l.Before b) r.liveIn
  liveOut : f.Spells (l.After b) r.liveOut

/-- The report has a record for each block of `f`, in layout order, and finds the record of a block that is
looked up by its name. -/
structure Report.Covers {n : Nat} (r : Report) (f : Function) (l : Liveness n) : Prop where
  function : r.function = f.name
  length : r.records.length = f.blockCount
  records : ∀ b : Fin f.blockCount, ∃ record, r.records[b.val]? = some record ∧ record.Describes f l b
  named : ∀ name, (r.find? name).map BlockRecord.block = f.blockNamed? name
  found : ∀ name record, r.find? name = some record → r.records[record.block.index]? = some record

namespace Function

/-- The first block under a name, in layout order. -/
theorem blockNamed?_eq (f : Function) (name : String) : f.blockNamed? name =
    (Fin.find? fun b : Fin f.blockCount => (f.block b).name == name).map fun b => .ofIndex b.val := by
  have hfirst : f.blocks.findIdx? (·.name == name) =
      (Fin.find? fun b : Fin f.blockCount => (f.block b).name == name).map Fin.val := by
    refine Option.ext fun k => ?_
    rw [Array.findIdx?_eq_some_iff_getElem, Option.map_eq_some_iff]
    simp only [Fin.find?_eq_some_iff]
    constructor
    · rintro ⟨hk, hname, hbefore⟩
      exact ⟨⟨k, hk⟩, ⟨hname, fun c hc => Bool.eq_false_iff.mpr (hbefore c hc)⟩, rfl⟩
    · rintro ⟨b, ⟨hname, hbefore⟩, rfl⟩
      exact ⟨b.isLt, hname, fun c hc => Bool.eq_false_iff.mp (hbefore ⟨c, hc.trans b.isLt⟩ hc)⟩
  rw [blockNamed?, hfirst, Option.map_map]
  rfl

/-- What is live in a function's own result is a value of the function. -/
theorem index_lt_of_live {f : Function} {c : Settings} {k : Nat} {v : ValueId}
    (h : (f.liveness c).Before k v ∨ (f.liveness c).After k v) : v.index < f.valueCount := by
  rcases h with ⟨_, hv⟩ | ⟨_, hv⟩
  · exact (mem_liveIn_iff.mp hv).index_lt
  · obtain ⟨_, _, hread⟩ := mem_liveOut_iff.mp hv
    exact hread.index_lt

end Function

namespace Report

variable {n : Nat} {f : Function} {l : Liveness n}

/-- The record of a block that the result covers. -/
def recordOf (f : Function) (l : Liveness n) (b : Fin f.blockCount) (h : b.val < n) : BlockRecord where
  block := .ofIndex b
  name := (f.block b).name
  instrCount := (f.block b).instrs.length
  reachable := f.graph.reachable.get b
  liveIn := f.labels (l.liveIn.get ⟨b, h⟩)
  liveOut := f.labels (l.liveOut.get ⟨b, h⟩)

theorem record_of_lt {b : Fin f.blockCount} (h : b.val < n) :
    record f l f.graph.reachable b = .ok (recordOf f l b h) := by
  rw [record, setAt, setAt, dif_pos h, dif_pos h]
  rfl

theorem record_of_le {b : Fin f.blockCount} (h : n ≤ b.val) :
    record f l f.graph.reachable b = .error ⟨n, b⟩ := by
  rw [record, setAt, dif_neg (by omega)]
  rfl

theorem describes_recordOf {b : Fin f.blockCount} (h : b.val < n) (hf : f.blockCount ≤ idLimit) :
    (recordOf f l b h).Describes f l b where
  block := BlockId.index_ofIndex (by omega)
  name := rfl
  instrCount := rfl
  reachable := Graph.reachable_iff
  liveIn := f.spells_labels fun _ => (Liveness.before_iff h).symm
  liveOut := f.spells_labels fun _ => (Liveness.after_iff h).symm

theorem of_of_le (hn : f.blockCount ≤ n) : Report.of f l =
    .ok ⟨f.name, (List.finRange f.blockCount).map fun b => recordOf f l b (b.isLt.trans_le hn)⟩ := by
  rw [Report.of, mapM_eq_ok fun b _ => record_of_lt (b.isLt.trans_le hn)]
  rfl

/-- The report ends at the block whose index is the number of blocks covered. -/
theorem of_of_lt (hn : n < f.blockCount) : Report.of f l = .error ⟨n, n⟩ := by
  have hlen : n < (List.finRange f.blockCount).length := by simpa using hn
  have hsplit : List.finRange f.blockCount =
      (List.finRange f.blockCount).take n ++ ⟨n, hn⟩ :: (List.finRange f.blockCount).drop (n + 1) := by
    have hdrop := List.drop_eq_getElem_cons hlen
    rw [List.getElem_finRange] at hdrop
    exact (List.take_append_drop n _).symm.trans (congrArg _ hdrop)
  have hbefore : ∀ b ∈ (List.finRange f.blockCount).take n, ∃ r, record f l f.graph.reachable b = .ok r := by
    intro b hb
    obtain ⟨k, hk, rfl⟩ := List.mem_take_iff_getElem.mp hb
    rw [List.getElem_finRange]
    exact ⟨_, record_of_lt (Nat.lt_of_lt_of_le hk (Nat.min_le_left ..))⟩
  rw [Report.of, hsplit, mapM_eq_error (record_of_le (Nat.le_refl n)) _ hbefore]
  rfl

theorem of_eq_error_iff {x : OutOfRange} : Report.of f l = .error x ↔ n < f.blockCount ∧ x = ⟨n, n⟩ := by
  by_cases hn : n < f.blockCount
  · rw [of_of_lt hn]
    simp [hn, eq_comm]
  · rw [of_of_le (by omega)]
    simp [hn]

/-- Records carry the names of their blocks, so the two searches stop at the same place. -/
theorem find?_of_le (hn : f.blockCount ≤ n) (name : String) :
    find? ⟨f.name, (List.finRange f.blockCount).map fun b => recordOf f l b (b.isLt.trans_le hn)⟩ name =
      (Fin.find? fun b : Fin f.blockCount => (f.block b).name == name).map
        fun b => recordOf f l b (b.isLt.trans_le hn) := by
  rw [find?, List.find?_map, Fin.find?_eq_find?_finRange]
  rfl

theorem exists_covers (hn : f.blockCount ≤ n) (hf : f.blockCount ≤ idLimit) :
    ∃ r, Report.of f l = .ok r ∧ r.Covers f l := by
  have hat : ∀ b : Fin f.blockCount, ((List.finRange f.blockCount).map fun b =>
      recordOf f l b (b.isLt.trans_le hn))[b.val]? = some (recordOf f l b (b.isLt.trans_le hn)) := by
    intro b
    simp
  refine ⟨_, of_of_le hn, rfl, by simp, fun b => ⟨_, hat b, describes_recordOf _ hf⟩, fun name => ?_, ?_⟩
  · rw [find?_of_le hn, Function.blockNamed?_eq, Option.map_map]
    rfl
  · intro name record hfound
    rw [find?_of_le hn, Option.map_eq_some_iff] at hfound
    obtain ⟨b, _, rfl⟩ := hfound
    rw [(describes_recordOf _ hf).block]
    exact hat b

end Report

namespace Function

/-- **A result reported on another function.** Let `l` be computed for `a` and reported on `b`, which edits
built. There is no report exactly if `a` has fewer blocks, and what is then asked for is the block after the
last of `a`. Otherwise the report covers `b`, with what `l` says of its blocks; blocks are reachable by the
successors that `b` stores. In the report of a function's own result every value stands under its name: what is
live is a value of the function. -/
theorem report_of_liveness (a : Function) (c : Settings) {name : String} {edits : List Edit} {b : Function}
    (hb : (Draft.ofEdits name edits).build = .ok b) :
    let l := a.liveness c
    b.DepictedBy b.graph ∧
    (∀ x, Report.of b l = .error x ↔ a.blockCount < b.blockCount ∧ x = ⟨a.blockCount, a.blockCount⟩) ∧
    (b.blockCount ≤ a.blockCount → ∃ r, Report.of b l = .ok r ∧ r.Covers b l) ∧
    (a = b → ∀ k v, l.Before k v ∨ l.After k v → v.index < b.valueCount) := by
  intro l
  refine ⟨b.depictedBy_graph, fun x => Report.of_eq_error_iff, fun hn => ?_, ?_⟩
  · exact Report.exists_covers hn (Draft.blockCount_le_of_build hb)
  · rintro rfl k v hlive
    exact index_lt_of_live hlive

/-- A single block, and no values. -/
def bareEdits : List Edit := [.addBlock "only", .finish (.ofIndex 0) (.ret [])]

def bare : Function :=
  ⟨(Draft.ofEdits "bare" bareEdits).listing, Listing.valid_of_fault? (by decide)⟩

theorem build_bare : (Draft.ofEdits "bare" bareEdits).build = .ok bare := rfl

theorem report_of_liveness_bare :
    Report.of diamond (bare.liveness .default) = .error ⟨1, 1⟩ ∧
    (∃ r, Report.of bare (diamond.liveness .default) = .ok r ∧ r.Covers bare (diamond.liveness .default) ∧
      r.records.map BlockRecord.liveIn = [["%0"]]) ∧
    (diamond.liveness .default).Before 1 (.ofIndex 0) ∧ (ValueId.ofIndex 0).index < diamond.valueCount := by
  have hlabels : bare.labels ((diamond.liveness .default).liveIn.get ⟨0, by decide⟩) = ["%0"] := by decide +kernel
  have hlive : (diamond.liveness .default).Before 1 (.ofIndex 0) := ⟨by decide, by decide +kernel⟩
  obtain ⟨_, hshort, _, _⟩ := report_of_liveness bare .default build_diamond
  obtain ⟨_, _, hcovers, _⟩ := report_of_liveness diamond .default build_bare
  obtain ⟨_, _, _, hown⟩ := report_of_liveness diamond .default build_diamond
  obtain ⟨r, hr, hr'⟩ := hcovers (by decide)
  refine ⟨(hshort _).mpr ⟨by decide, rfl⟩, ⟨r, hr, hr', ?_⟩, hlive, hown rfl _ _ (Or.inl hlive)⟩
  rw [Report.of_of_le (by decide)] at hr
  cases hr
  exact congrArg (fun texts => [texts]) hlabels

end Function

end LiveVars
