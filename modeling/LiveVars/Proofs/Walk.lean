/-
Walks along the edges of a graph. A walk is told by where it starts, where it ends and
the blocks it leaves on the way, in order: a block met twice is listed twice, the last
block is not listed, and a walk of no edges leaves nothing.

A walk that meets no block twice is a path. Cutting out the rounds of a walk leaves a path
between the same blocks (`Walk.exists_path`), and a path has fewer edges than there are
blocks.

A graph is acyclic when only an empty walk leads from a block back to it. There are
finitely many blocks, so one can then recurse from a block to its successors
(`wellFounded_edge`).

The graph of a function depicts what the function stores: its entry, and for each block
the successors in their order (`Function.depictedBy_graph`). So the walks of the graph are
the routes along stored successors (`Function.walk_iff_route`).
-/
import LiveVars.Graph.Basic
import Mathlib.Data.List.Chain
import Mathlib.Data.Fintype.EquivFin

namespace LiveVars.Graph

variable {n : Nat} {g : Graph n}

/-- `Walk g b passed c`: edges lead from `b` to `c`, and `passed` are the blocks left on the way. -/
inductive Walk (g : Graph n) : Fin n → List (Fin n) → Fin n → Prop
  | here (b : Fin n) : Walk g b [] b
  | onward {b s c : Fin n} {passed : List (Fin n)} :
      g.Edge b s → Walk g s passed c → Walk g b (b :: passed) c

/-- A walk that meets no block twice, the last block included. -/
structure Path (g : Graph n) (b : Fin n) (passed : List (Fin n)) (c : Fin n) : Prop where
  walk : g.Walk b passed c
  nodup : (passed ++ [c]).Nodup

/-- Edges lead from `b` to `c`, or the two are one. -/
def Reaches (g : Graph n) (b c : Fin n) : Prop := ∃ passed, g.Walk b passed c

/-- No block gets back to itself by one or more edges. -/
def Acyclic (g : Graph n) : Prop := ∀ b passed, g.Walk b passed b → passed = []

namespace Walk

theorem append {b c d : Fin n} {xs ys : List (Fin n)} (h : g.Walk b xs c) (h' : g.Walk c ys d) :
    g.Walk b (xs ++ ys) d := by
  induction h with
  | here _ => exact h'
  | onward he _ ih => exact .onward he (ih h')

/-- Every block a walk leaves has an edge: the one it leaves by. -/
theorem exists_edge {b c : Fin n} {passed : List (Fin n)} (h : g.Walk b passed c) :
    ∀ p ∈ passed, ∃ s, g.Edge p s := by
  induction h with
  | here _ => intro p hp; simp at hp
  | onward he _ ih =>
    intro p hp
    rcases List.mem_cons.mp hp with rfl | hp
    · exact ⟨_, he⟩
    · exact ih p hp

/-- If every edge leads to a higher rank, a walk climbs at least as far as it has edges. -/
theorem rank_add_length_le {rank : Fin n → Nat} (hg : ∀ b s, g.Edge b s → rank b < rank s) {b c : Fin n}
    {passed : List (Fin n)} (h : g.Walk b passed c) : rank b + passed.length ≤ rank c := by
  induction h with
  | here _ => simp
  | @onward b s _ _ he _ ih =>
    have := hg b s he
    simp only [List.length_cons]
    omega

/-- A walk can be parted at any block that it meets. -/
theorem exists_split {b c d : Fin n} {passed : List (Fin n)} (h : g.Walk b passed c)
    (hd : d ∈ passed ++ [c]) :
    ∃ before rest, passed = before ++ rest ∧ g.Walk b before d ∧ g.Walk d rest c := by
  induction h with
  | here c =>
    obtain rfl : d = c := by simpa using hd
    exact ⟨[], [], rfl, .here d, .here d⟩
  | @onward b s c passed he hw ih =>
    rcases List.mem_cons.mp hd with rfl | hd
    · exact ⟨[], d :: passed, rfl, .here d, .onward he hw⟩
    · obtain ⟨before, rest, rfl, hbefore, hrest⟩ := ih hd
      exact ⟨b :: before, rest, rfl, .onward he hbefore, hrest⟩

/-- A walk with its rounds cut out is a path, and leaves no block that the walk does not leave. -/
theorem exists_path {b c : Fin n} {passed : List (Fin n)} (h : g.Walk b passed c) :
    ∃ passed', g.Path b passed' c ∧ ∀ p ∈ passed', p ∈ passed := by
  induction h with
  | here c => exact ⟨[], ⟨.here c, by simp⟩, by simp⟩
  | @onward b s c passed he _ ih =>
    obtain ⟨path, hpath, hsub⟩ := ih
    by_cases hb : b ∈ path ++ [c]
    · -- The path comes back to `b`: what it does after that is enough.
      obtain ⟨before, rest, rfl, _, hrest⟩ := hpath.walk.exists_split hb
      have hnodup : (before ++ (rest ++ [c])).Nodup := by simpa using hpath.nodup
      refine ⟨rest, ⟨hrest, hnodup.of_append_right⟩, fun p hp => ?_⟩
      exact List.mem_cons_of_mem b (hsub p (List.mem_append_right before hp))
    · refine ⟨b :: path, ⟨.onward he hpath.walk, List.nodup_cons.mpr ⟨hb, hpath.nodup⟩⟩, fun p hp => ?_⟩
      rcases List.mem_cons.mp hp with rfl | hp
      · exact List.mem_cons_self
      · exact List.mem_cons_of_mem b (hsub p hp)

end Walk

theorem Path.not_mem_passed {b c : Fin n} {passed : List (Fin n)} (h : g.Path b passed c) :
    ¬ c ∈ passed :=
  fun hc => (List.nodup_append.mp h.nodup).2.2 c hc c (List.mem_singleton_self c) rfl

theorem Path.length_lt {b c : Fin n} {passed : List (Fin n)} (h : g.Path b passed c) : passed.length < n := by
  have hlen := h.nodup.length_le_card
  rw [List.length_append, List.length_singleton, Fintype.card_fin] at hlen
  exact hlen

namespace Reaches

theorem refl (b : Fin n) : g.Reaches b b := ⟨[], .here b⟩

theorem of_edge {b s c : Fin n} (he : g.Edge b s) (h : g.Reaches s c) : g.Reaches b c := by
  obtain ⟨passed, hw⟩ := h
  exact ⟨b :: passed, .onward he hw⟩

/-- What every edge passes on holds of every block reached. -/
theorem carry {P : Fin n → Prop} (hP : ∀ u s, g.Edge u s → P u → P s) {b c : Fin n} (h : g.Reaches b c)
    (hb : P b) : P c := by
  obtain ⟨passed, hw⟩ := h
  induction hw with
  | here _ => exact hb
  | onward he _ ih => exact ih (hP _ _ he hb)

end Reaches

namespace Acyclic

theorem of_rank (rank : Fin n → Nat) (hg : ∀ b s, g.Edge b s → rank b < rank s) : g.Acyclic := by
  intro b passed hw
  have := hw.rank_add_length_le hg
  exact List.length_eq_zero_iff.mp (by omega)

theorem of_edge_lt (hg : ∀ b s, g.Edge b s → b < s) : g.Acyclic := of_rank Fin.val hg

theorem wellFounded_edge (hg : g.Acyclic) : WellFounded fun s b => g.Edge b s := by
  let Beyond : Fin n → Fin n → Prop := fun c b => ∃ passed, passed ≠ [] ∧ g.Walk b passed c
  have htrans : IsTrans (Fin n) Beyond := by
    refine ⟨fun d c b hd hc => ?_⟩
    obtain ⟨ys, _, hcd⟩ := hd
    obtain ⟨xs, hne, hbc⟩ := hc
    exact ⟨xs ++ ys, by simp [hne], hbc.append hcd⟩
  have hirrefl : Std.Irrefl Beyond := by
    refine ⟨fun b hb => ?_⟩
    obtain ⟨passed, hne, hw⟩ := hb
    exact hne (hg b passed hw)
  refine Subrelation.wf (fun {s b} he => ?_) (Finite.wellFounded_of_trans_of_irrefl Beyond)
  exact ⟨[b], by simp, .onward he (.here s)⟩

end Acyclic

end LiveVars.Graph

/-! ## What a function stores -/

namespace LiveVars.Function

variable {f : Function}

/-- The successors stored with `b` name `s`. -/
def GoesTo (f : Function) (b s : Fin f.blockCount) : Prop := ∃ t ∈ (f.block b).succs, t.index = s

/-- `f.Route b passed c`: the blocks of `passed`, and `c` after them, begin with `b`, and each goes to the
next one. -/
def Route (f : Function) (b : Fin f.blockCount) (passed : List (Fin f.blockCount)) (c : Fin f.blockCount) : Prop :=
  (passed ++ [c]).head? = some b ∧ (passed ++ [c]).IsChain f.GoesTo

/-- The graph has the entry of the function, and at each block the stored successors, in their order. -/
structure DepictedBy (f : Function) (g : Graph f.blockCount) : Prop where
  entry : g.entry.val = f.entry.index
  succs : ∀ b, (g.succs.get b).map Fin.val = (f.block b).succs.map BlockId.index

theorem depictedBy_graph (f : Function) : f.DepictedBy f.graph where
  entry := rfl
  succs b := by
    rw [get_succs_graph, succsOf, List.map_map]
    exact List.attach_map_val (f := BlockId.index)

theorem walk_iff_route {b c : Fin f.blockCount} {passed : List (Fin f.blockCount)} :
    f.graph.Walk b passed c ↔ f.Route b passed c := by
  constructor
  · intro h
    induction h with
    | here b => exact ⟨rfl, .singleton b⟩
    | onward he _ ih =>
      refine ⟨rfl, ih.2.cons fun t ht => ?_⟩
      obtain rfl := Option.some.inj (ih.1.symm.trans ht)
      exact edge_iff.mp he
  · induction passed generalizing b with
    | nil =>
      rintro ⟨hhead, _⟩
      obtain rfl : c = b := Option.some.inj hhead
      exact .here c
    | cons d passed ih =>
      rintro ⟨hhead, hchain⟩
      obtain rfl : d = b := Option.some.inj hhead
      obtain ⟨hnext, hrest⟩ := List.isChain_cons.mp hchain
      have hs := List.head?_eq_some_head (l := passed ++ [c]) (by simp)
      exact .onward (edge_iff.mpr (hnext _ hs)) (ih ⟨hs, hrest⟩)

end LiveVars.Function
