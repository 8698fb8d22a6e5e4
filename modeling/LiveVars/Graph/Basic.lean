/-
Control-flow graphs on `n` blocks. The edges are stored at both ends: at the source
in the order they were written, at the target in layout order of the sources. The
second table is determined by the first (`Graph.transpose`).
-/
import LiveVars.Function.Basic
import LiveVars.Table

namespace LiveVars

namespace Graph

variable {n : Nat}

/-- Puts `b` in front of the sources of each of its targets. -/
def addSource (b : Fin n) (targets : List (Fin n)) (sources : Vector (List (Fin n)) n) :
    Vector (List (Fin n)) n :=
  targets.foldl (fun sources (s : Fin n) => put sources s (b :: sources.get s)) sources

/-- The table of edges read from the other end, gathered from the last block to the first. -/
def transpose (succs : Vector (List (Fin n)) n) : Vector (List (Fin n)) n :=
  (List.finRange n).foldr (fun b sources => addSource b (succs.get b) sources) (Vector.replicate n [])

theorem mem_addSource {b p s : Fin n} :
    ∀ {targets : List (Fin n)} {sources : Vector (List (Fin n)) n},
      p ∈ (addSource b targets sources).get s ↔ p = b ∧ s ∈ targets ∨ p ∈ sources.get s
  | [], sources => by simp [addSource]
  | t :: targets, sources => by
    have ih := @mem_addSource b p s targets (put sources t (b :: sources.get t))
    rw [addSource, List.foldl_cons]
    refine ih.trans ?_
    by_cases hs : s = t
    · subst hs
      rw [get_put_self, List.mem_cons, List.mem_cons]
      grind
    · rw [get_put_other _ _ hs, List.mem_cons]
      grind

theorem mem_foldr_addSource {succs : Vector (List (Fin n)) n} {p s : Fin n} :
    ∀ {bs : List (Fin n)},
      p ∈ (bs.foldr (fun b sources => addSource b (succs.get b) sources) (Vector.replicate n [])).get s
        ↔ p ∈ bs ∧ s ∈ succs.get p
  | [] => by simp
  | b :: bs => by
    rw [List.foldr_cons, mem_addSource, mem_foldr_addSource, List.mem_cons]
    grind

theorem mem_transpose {succs : Vector (List (Fin n)) n} {p s : Fin n} :
    p ∈ (transpose succs).get s ↔ s ∈ succs.get p := by
  rw [transpose, mem_foldr_addSource]
  simp only [List.mem_finRange, true_and]

end Graph

/-- A control-flow graph: where control starts, where it may go from each block, in edge order, and
where it may have come from. -/
structure Graph (n : Nat) where
  entry : Fin n
  succs : Vector (List (Fin n)) n
  preds : Vector (List (Fin n)) n
  preds_eq : preds = Graph.transpose succs
deriving DecidableEq

namespace Graph

variable {n : Nat}

def ofSuccs (entry : Fin n) (succs : Vector (List (Fin n)) n) : Graph n :=
  ⟨entry, succs, transpose succs, rfl⟩

def Edge (g : Graph n) (b s : Fin n) : Prop := s ∈ g.succs.get b

instance (g : Graph n) (b s : Fin n) : Decidable (g.Edge b s) :=
  inferInstanceAs (Decidable (s ∈ g.succs.get b))

theorem mem_preds {g : Graph n} {p s : Fin n} : p ∈ g.preds.get s ↔ g.Edge p s := by
  rw [g.preds_eq]
  exact mem_transpose

/-- Whether two graphs are one and the same, whatever their sizes are known to be. -/
def same {m : Nat} (g : Graph n) (g' : Graph m) : Bool :=
  if h : m = n then decide (g = h ▸ g') else false

/-- The ids that a block id has in a table of edges; an id that is no block has none. -/
def neighbours (table : Vector (List (Fin n)) n) (b : BlockId) : List BlockId :=
  (table[b.index]?.getD []).map fun s => .ofIndex s.val

end Graph

namespace Function

/-- The successors of block `b`, as positions in the layout. -/
def succsOf (f : Function) (b : Fin f.blockCount) : List (Fin f.blockCount) :=
  (f.block b).succs.attach.map fun s => ⟨s.val.index, f.succ_lt s.property⟩

def graph (f : Function) : Graph f.blockCount :=
  .ofSuccs ⟨f.entry.index, f.entry_lt⟩ (Vector.ofFn f.succsOf)

theorem get_succs_graph (f : Function) (b : Fin f.blockCount) : f.graph.succs.get b = f.succsOf b := get_ofFn ..

theorem edge_iff {f : Function} {b s : Fin f.blockCount} :
    f.graph.Edge b s ↔ ∃ t ∈ (f.block b).succs, t.index = s := by
  simp only [Graph.Edge, graph, Graph.ofSuccs, get_ofFn, succsOf,
    List.mem_map, List.mem_attach, true_and, Subtype.exists, Fin.ext_iff, exists_prop]

end Function

end LiveVars
