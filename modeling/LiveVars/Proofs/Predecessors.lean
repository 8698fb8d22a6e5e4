/-
Edges seen from their targets. The table of predecessors is gathered block by block, from
the last to the first, and every edge of a block puts the block in front of what its target
has so far. Hence a list of predecessors comes out in ascending order, with a block as often
as it names the target. Blocks drop repeated targets when edits write them, so that is once
(`Graph.pairwise_transpose`).

No edge is lost or made up in this: each of them adds one entry (`edgeCount_addSource`),
whether or not the target was named before.
-/
import LiveVars.Graph.Basic
import LiveVars.Proofs.Projection
import Mathlib.Algebra.BigOperators.Fin
import Mathlib.Data.List.Nodup

namespace LiveVars

namespace Graph

variable {n : Nat}

/-! ## The table of predecessors -/

theorem get_addSource_of_notMem {b s : Fin n} : ∀ {targets : List (Fin n)} {sources : Vector (List (Fin n)) n},
    ¬ s ∈ targets → (addSource b targets sources).get s = sources.get s
  | [], sources, _ => rfl
  | t :: targets, sources, h => by
    rw [List.mem_cons, not_or] at h
    rw [addSource, List.foldl_cons]
    refine (get_addSource_of_notMem h.2).trans ?_
    rw [get_put_other _ _ h.1]

/-- A block goes once in front of the sources of a target that it names once. -/
theorem get_addSource_of_mem {b s : Fin n} : ∀ {targets : List (Fin n)} {sources : Vector (List (Fin n)) n},
    targets.Nodup → s ∈ targets → (addSource b targets sources).get s = b :: sources.get s
  | t :: targets, sources, hnodup, h => by
    obtain ⟨hnot, hnodup⟩ := List.nodup_cons.mp hnodup
    rw [addSource, List.foldl_cons]
    by_cases hs : s = t
    · subst hs
      refine (get_addSource_of_notMem hnot).trans ?_
      rw [get_put_self]
    · refine (get_addSource_of_mem hnodup (List.mem_of_ne_of_mem hs h)).trans ?_
      rw [get_put_other _ _ hs]

theorem pairwise_foldr_addSource {succs : Vector (List (Fin n)) n} (h : ∀ p, (succs.get p).Nodup) (s : Fin n) :
    ∀ {bs : List (Fin n)}, bs.Pairwise (· < ·) →
      ((bs.foldr (fun b sources => addSource b (succs.get b) sources) (Vector.replicate n [])).get s).Pairwise
        (· < ·)
  | [], _ => by simp
  | b :: bs, hbs => by
    obtain ⟨hlt, hbs⟩ := List.pairwise_cons.mp hbs
    have ih := pairwise_foldr_addSource h s hbs
    rw [List.foldr_cons]
    by_cases hs : s ∈ succs.get b
    · -- What is gathered so far comes from later blocks.
      rw [get_addSource_of_mem (h b) hs]
      exact List.pairwise_cons.mpr ⟨fun p hp => hlt p (mem_foldr_addSource.mp hp).1, ih⟩
    · rw [get_addSource_of_notMem hs]
      exact ih

/-- If no block names a target twice, the predecessors of a block come in layout order, each once. -/
theorem pairwise_transpose {succs : Vector (List (Fin n)) n} (h : ∀ p, (succs.get p).Nodup) (s : Fin n) :
    ((transpose succs).get s).Pairwise (· < ·) :=
  pairwise_foldr_addSource h s (List.pairwise_lt_finRange n)

/-- How many entries the lists of a table have between them. -/
def edgeCount (table : Vector (List (Fin n)) n) : Nat := ∑ b, (table.get b).length

theorem edgeCount_put_cons (table : Vector (List (Fin n)) n) (s b : Fin n) :
    edgeCount (put table s (b :: table.get s)) = edgeCount table + 1 := by
  have hothers : ∀ c ∈ Finset.univ.erase s, ((put table s (b :: table.get s)).get c).length = (table.get c).length :=
    fun c hc => by rw [get_put_other _ _ (Finset.ne_of_mem_erase hc)]
  rw [edgeCount, edgeCount, ← Finset.add_sum_erase _ _ (Finset.mem_univ s), Finset.sum_congr rfl hothers,
    get_put_self, List.length_cons, Nat.add_right_comm,
    Finset.add_sum_erase _ (fun c => (table.get c).length) (Finset.mem_univ s)]

theorem edgeCount_addSource (b : Fin n) : ∀ (targets : List (Fin n)) (sources : Vector (List (Fin n)) n),
    edgeCount (addSource b targets sources) = edgeCount sources + targets.length
  | [], _ => rfl
  | t :: targets, sources => by
    rw [addSource, List.foldl_cons]
    refine (edgeCount_addSource b targets _).trans ?_
    rw [edgeCount_put_cons, List.length_cons]
    omega

theorem edgeCount_foldr_addSource (succs : Vector (List (Fin n)) n) : ∀ bs : List (Fin n),
    edgeCount (bs.foldr (fun b sources => addSource b (succs.get b) sources) (Vector.replicate n [])) =
      (bs.map fun b => (succs.get b).length).sum
  | [] => Finset.sum_eq_zero fun b _ => by rw [List.foldr_nil, get_replicate, List.length_nil]
  | b :: bs => by
    rw [List.foldr_cons, edgeCount_addSource, edgeCount_foldr_addSource succs bs, List.map_cons, List.sum_cons,
      Nat.add_comm]

/-- There are as many entries of predecessors as of successors. -/
theorem edgeCount_transpose (succs : Vector (List (Fin n)) n) : edgeCount (transpose succs) = edgeCount succs := by
  rw [edgeCount, Fin.sum_univ_def]
  exact edgeCount_foldr_addSource succs _

/-! ## Looked up by id -/

theorem neighbours_of_lt (table : Vector (List (Fin n)) n) {b : BlockId} (h : b.index < n) :
    neighbours table b = (table.get ⟨b.index, h⟩).map fun s => .ofIndex s.val := by
  rw [neighbours, Vector.getElem?_eq_getElem h]
  rfl

theorem neighbours_of_le (table : Vector (List (Fin n)) n) {b : BlockId} (h : n ≤ b.index) :
    neighbours table b = [] := by
  rw [neighbours, Vector.getElem?_eq_none h]
  rfl

theorem mem_neighbours_iff (hn : n ≤ idLimit) {table : Vector (List (Fin n)) n} {b s : BlockId} :
    s ∈ neighbours table b ↔
      ∃ (hb : b.index < n) (hs : s.index < n), (⟨s.index, hs⟩ : Fin n) ∈ table.get ⟨b.index, hb⟩ := by
  by_cases hb : b.index < n
  · rw [neighbours_of_lt table hb, List.mem_map]
    constructor
    · rintro ⟨t, ht, rfl⟩
      have hindex : (BlockId.ofIndex t.val).index = t.val := BlockId.index_ofIndex (by omega)
      have hlt : (BlockId.ofIndex t.val).index < n := by omega
      have heq : (⟨_, hlt⟩ : Fin n) = t := Fin.ext hindex
      exact ⟨hb, hlt, heq.symm ▸ ht⟩
    · rintro ⟨_, hs, hm⟩
      exact ⟨_, hm, BlockId.ofIndex_index s⟩
  · rw [neighbours_of_le table (by omega)]
    simp [hb]

end Graph

namespace Function

open LiveVars.Graph

variable {f : Function}

theorem map_ofIndex_succsOf (f : Function) (b : Fin f.blockCount) :
    (f.succsOf b).map (fun s => .ofIndex s.val) = (f.block b).succs := by
  rw [succsOf, List.map_map]
  have hval : (fun s : Fin f.blockCount => BlockId.ofIndex s.val) ∘
      (fun s : { s // s ∈ (f.block b).succs } => ⟨s.val.index, f.succ_lt s.property⟩) = Subtype.val :=
    funext fun s => BlockId.ofIndex_index s.val
  rw [hval, List.attach_map_subtype_val]

theorem nodup_succs (f : Function) (b : Fin f.blockCount) : (f.graph.succs.get b).Nodup := by
  have hnodup := (f.block b).succs_nodup
  rw [← map_ofIndex_succsOf] at hnodup
  rw [get_succs_graph]
  exact hnodup.of_map _

theorem neighbours_succs {p : BlockId} {b : Block} (hb : f.block? p = some b) :
    neighbours f.graph.succs p = b.succs := by
  obtain ⟨hp, rfl⟩ := Array.getElem?_eq_some_iff.mp hb
  rw [neighbours_of_lt _ hp, get_succs_graph]
  exact map_ofIndex_succsOf f ⟨p.index, hp⟩

theorem mem_neighbours_preds (hn : f.blockCount ≤ idLimit) {p s : BlockId} :
    p ∈ neighbours f.graph.preds s ↔ s ∈ neighbours f.graph.succs p := by
  rw [mem_neighbours_iff hn, mem_neighbours_iff hn]
  simp only [mem_preds]
  exact exists_comm

theorem pairwise_neighbours_preds (hn : f.blockCount ≤ idLimit) (s : BlockId) :
    (neighbours f.graph.preds s).Pairwise fun p q => p.index < q.index := by
  by_cases hs : s.index < f.blockCount
  · rw [neighbours_of_lt _ hs, f.graph.preds_eq, List.pairwise_map]
    refine (pairwise_transpose f.nodup_succs _).imp fun {p q} hpq => ?_
    rw [BlockId.index_ofIndex (by omega), BlockId.index_ofIndex (by omega)]
    exact hpq
  · rw [neighbours_of_le _ (by omega)]
    exact List.Pairwise.nil

end Function

namespace Draft

open Edit LiveVars.Graph

variable {name : String} {edits : List Edit}

theorem mem_iff_mem_log {e : Edit} : e ∈ edits ↔ ∃ r, (e, r) ∈ log name edits := by
  have h := map_fst_log name edits
  constructor
  · intro he
    rw [← h] at he
    obtain ⟨c, hc, rfl⟩ := List.mem_map.mp he
    exact ⟨c.2, hc⟩
  · rintro ⟨r, hr⟩
    rw [← h]
    exact List.mem_map_of_mem (f := Prod.fst) hr

/-- Only an ending has targets. -/
theorem exists_ending_of_part {e : Edit} {r : Reply} {b s : BlockId} {p : Part} (hb : e.block? = some b)
    (hp : e.part? r = some p) (hs : s ∈ p.targets) :
    ∃ ending, e = .finish b ending ∧ s ∈ ending.targets := by
  cases e with
  | declare | addBlock | setEntry => cases hb
  | push =>
    cases hp
    cases hs
  | define =>
    cases r with
    | value =>
      cases hp
      cases hs
    | done | block => cases hp
  | finish block ending =>
    cases hb
    rw [part?_finish] at hp
    cases hp
    exact ⟨ending, rfl, hs⟩

theorem mem_neighbours_succs_iff {f : Function} (hf : (ofEdits name edits).build = .ok f) {p s : BlockId} :
    s ∈ neighbours f.graph.succs p ↔ ∃ ending, Edit.finish p ending ∈ edits ∧ s ∈ ending.targets := by
  have h := (mendable_of_build hf).fault
  have hblocks : f.blocks = (ofEdits name edits).blocks := congrArg Listing.blocks (toListing_of_build hf)
  have hmem : ∀ b, f.block? p = some b →
      (s ∈ b.succs ↔ ∃ part ∈ parts (log name edits) p, s ∈ part.targets) := by
    intro b hb
    rw [Function.block?, hblocks] at hb
    rw [(instrs_succs_ofEdits h hb).2, List.mem_eraseDups, List.mem_flatMap]
  constructor
  · intro hs
    obtain ⟨hp, _⟩ := (mem_neighbours_iff (blockCount_le_of_build hf)).mp hs
    have hb : f.block? p = some f.blocks[p.index] := Array.getElem?_eq_getElem hp
    rw [Function.neighbours_succs hb, hmem _ hb] at hs
    obtain ⟨part, hpart, hs⟩ := hs
    obtain ⟨e, r, hlog, he, hpart⟩ := mem_parts_iff.mp hpart
    obtain ⟨ending, rfl, hs⟩ := exists_ending_of_part he hpart hs
    exact ⟨ending, mem_iff_mem_log.mpr ⟨r, hlog⟩, hs⟩
  · rintro ⟨ending, he, hs⟩
    obtain ⟨r, hlog⟩ := mem_iff_mem_log.mp he
    have hp : p.index < f.blocks.size := hblocks ▸ (mirrors_ofEdits h).known _ hlog p rfl
    have hb : f.block? p = some f.blocks[p.index] := Array.getElem?_eq_getElem hp
    rw [Function.neighbours_succs hb, hmem _ hb]
    exact ⟨_, mem_parts_iff.mpr ⟨_, r, hlog, rfl, part?_finish p ending r⟩, hs⟩

/-- **Predecessors.** In a function that edits built, the predecessors of an id are the blocks that have it as
a successor, in strictly ascending order; an id that is no block has none. A block has the successors that its
endings name, so a predecessor is listed once, however often its endings name the target. Both tables have the
same number of entries. -/
theorem preds_of_build {f : Function} (hf : (ofEdits name edits).build = .ok f) :
    let g := f.graph
    (∀ s : BlockId, (neighbours g.preds s).Pairwise (fun p q => p.index < q.index) ∧
      (∀ p, p ∈ neighbours g.preds s ↔ s ∈ neighbours g.succs p) ∧
      (f.blockCount ≤ s.index → neighbours g.preds s = [])) ∧
    (∀ p b, f.block? p = some b → neighbours g.succs p = b.succs) ∧
    (∀ p s, s ∈ neighbours g.succs p ↔ ∃ ending, Edit.finish p ending ∈ edits ∧ s ∈ ending.targets) ∧
    edgeCount g.preds = edgeCount g.succs := by
  intro g
  have hn := blockCount_le_of_build hf
  refine ⟨fun s => ⟨?_, ?_, ?_⟩, ?_, ?_, ?_⟩
  · exact Function.pairwise_neighbours_preds hn s
  · exact fun p => Function.mem_neighbours_preds hn
  · exact neighbours_of_le g.preds
  · exact fun p b => Function.neighbours_succs
  · exact fun p s => mem_neighbours_succs_iff hf
  · rw [g.preds_eq, edgeCount_transpose]

/-- The block `fork` names `end` twice and itself once. -/
theorem preds_of_build_fork : ∃ f, (ofEdits "fork" forkEdits).build = .ok f ∧
    .ofIndex 0 ∈ neighbours f.graph.preds (.ofIndex 1) ∧
    (neighbours f.graph.preds (.ofIndex 1)).Pairwise (fun p q => p.index < q.index) ∧
    edgeCount f.graph.preds = edgeCount f.graph.succs := by
  have hf : (ofEdits "fork" forkEdits).build = .ok _ := rfl
  obtain ⟨hpreds, _, hsuccs, hcount⟩ := preds_of_build hf
  refine ⟨_, hf, ?_, (hpreds _).1, hcount⟩
  rw [(hpreds _).2.1, hsuccs]
  exact ⟨.switch (.value (.ofIndex 0)) (.ofIndex 1) [(3, .ofIndex 0), (4, .ofIndex 1)], by decide, by decide⟩

end Draft

end LiveVars
