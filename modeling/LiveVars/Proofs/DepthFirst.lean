/-
Depth-first search told by recursion, and the search with a stack held against it.

`explore` goes through a list of blocks. A block that is not marked yet is marked, its
successors are explored in edge order, and then it is finished. The search of the entry
keeps the same work on a stack: a frame is a call under way, and the successors it has
still to try are the list that call has still to go through. So the steps that take the
top frame off the stack do what one exploration does (`iterate_step_frame`), and the whole
search finishes the blocks in the order that the recursion does.

What an exploration does is said once, in `Explores`: which blocks it marks, that it stays
on what its list reaches and leaves no edge of a finished block behind, and how the two
ends of an edge come to be finished. It is shown by recursion along `explore`, from one
lemma for each thing that `explore` can do: skip a block, finish a block when its successors
are explored, and go on with the rest of the list.
-/
import LiveVars.Proofs.VisitOrder
import LiveVars.Proofs.Walk
import Mathlib.Algebra.GroupWithZero.Nat

namespace LiveVars

namespace Graph

variable {n : Nat} {g : Graph n} {marked : Vector Bool n}

/-! ## The search by recursion -/

/-- What an exploration hands back: the marks, none taken away, and the blocks it finished, in order. -/
structure Exploration (marked : Vector Bool n) where
  marks : Vector Bool n
  finished : List (Fin n)
  grows : ∀ b, marked.get b = true → marks.get b = true

namespace Exploration

/-- The exploration of the successors of `b` with `b` out of bounds, and then `b` finished. -/
def finish (b : Fin n) (e : Exploration (put marked b true)) : Exploration marked where
  marks := e.marks
  finished := e.finished ++ [b]
  grows c hc := e.grows c (get_put_true.mpr (Or.inr hc))

/-- One exploration, and then another that starts from its marks. -/
def andThen (e : Exploration marked) (e' : Exploration e.marks) : Exploration marked where
  marks := e'.marks
  finished := e.finished ++ e'.finished
  grows c hc := e'.grows c (e.grows c hc)

@[simp] theorem marks_finish (b : Fin n) (e : Exploration (put marked b true)) :
    (e.finish b).marks = e.marks := rfl

@[simp] theorem finished_finish (b : Fin n) (e : Exploration (put marked b true)) :
    (e.finish b).finished = e.finished ++ [b] := rfl

@[simp] theorem finished_andThen (e : Exploration marked) (e' : Exploration e.marks) :
    (e.andThen e').finished = e.finished ++ e'.finished := rfl

theorem mem_finish {b u : Fin n} {e : Exploration (put marked b true)} :
    u ∈ (e.finish b).finished ↔ u ∈ e.finished ∨ u = b := by simp

theorem mem_andThen {u : Fin n} {e : Exploration marked} {e' : Exploration e.marks} :
    u ∈ (e.andThen e').finished ↔ u ∈ e.finished ∨ u ∈ e'.finished := by simp

theorem unmarked_marks_le (e : Exploration marked) : unmarked e.marks ≤ unmarked marked := by
  refine List.countP_mono_left fun b _ hb => ?_
  rw [Bool.not_eq_true', ← Bool.not_eq_true] at hb ⊢
  exact fun hm => hb (e.grows b hm)

end Exploration

/-- Goes through a list of blocks. One that is marked is skipped; any other is marked, its successors are
explored in edge order, and then it is finished. -/
def explore (g : Graph n) (marked : Vector Bool n) (bs : List (Fin n)) : Exploration marked :=
  match bs with
  | [] => ⟨marked, [], fun _ h => h⟩
  | b :: rest =>
    if marked.get b = true then explore g marked rest
    else
      let inner := explore g (put marked b true) (g.succs.get b)
      let whole := inner.finish b
      whole.andThen (explore g whole.marks rest)
termination_by (unmarked marked, bs.length)
decreasing_by
  · exact Prod.Lex.right _ (by simp)
  · exact Prod.Lex.left _ _ (unmarked_put_lt (by simp_all))
  · refine Prod.Lex.left _ _ (Nat.lt_of_le_of_lt inner.unmarked_marks_le (unmarked_put_lt ?_))
    simp_all

/-- The blocks that the recursive search from the entry finishes, in order. -/
def depthFirst (g : Graph n) : List (Fin n) := (g.explore (Vector.replicate n false) [g.entry]).finished

theorem explore_nil (g : Graph n) (marked : Vector Bool n) :
    g.explore marked [] = ⟨marked, [], fun _ h => h⟩ := by
  rw [explore]

theorem depthFirst_eq (g : Graph n) : g.depthFirst =
    (g.explore (put (Vector.replicate n false) g.entry true) (g.succs.get g.entry)).finished ++ [g.entry] := by
  rw [depthFirst, explore, if_neg (by simp), Exploration.finished_andThen, Exploration.finished_finish,
    explore_nil, List.append_nil]

/-! ## The search by a stack, step by step -/

/-- The state of the search between two steps; the blocks finished so far are held newest first. -/
structure Search (n : Nat) where
  marked : Vector Bool n
  stack : List (Frame n)
  finished : List (Fin n)

namespace Search

def start (g : Graph n) : Search n :=
  ⟨put (Vector.replicate n false) g.entry true, [⟨g.entry, g.succs.get g.entry⟩], []⟩

/-- Tries the next successor of the block on top, or finishes the block if it has none left. -/
def step (g : Graph n) : Search n → Search n
  | ⟨marked, [], finished⟩ => ⟨marked, [], finished⟩
  | ⟨marked, ⟨b, []⟩ :: below, finished⟩ => ⟨marked, below, b :: finished⟩
  | ⟨marked, ⟨b, s :: rest⟩ :: below, finished⟩ =>
    if marked.get s = true then ⟨marked, ⟨b, rest⟩ :: below, finished⟩
    else ⟨put marked s true, ⟨s, g.succs.get s⟩ :: ⟨b, rest⟩ :: below, finished⟩

/-- The search run to its end from a state. -/
def result (g : Graph n) (s : Search n) : List (Fin n) := g.search s.marked s.stack s.finished

section

variable (g : Graph n) (b : Fin n) (rest : List (Fin n)) (below : List (Frame n)) (finished : List (Fin n))

theorem step_of_marked {s : Fin n} (hs : marked.get s = true) :
    step g ⟨marked, ⟨b, s :: rest⟩ :: below, finished⟩ = ⟨marked, ⟨b, rest⟩ :: below, finished⟩ := by
  simp only [step, if_pos hs]

theorem step_of_unmarked {s : Fin n} (hs : ¬ marked.get s = true) :
    step g ⟨marked, ⟨b, s :: rest⟩ :: below, finished⟩ =
      ⟨put marked s true, ⟨s, g.succs.get s⟩ :: ⟨b, rest⟩ :: below, finished⟩ := by
  simp only [step, if_neg hs]

end

theorem result_step (g : Graph n) : ∀ s : Search n, (step g s).result g = s.result g
  | ⟨marked, [], finished⟩ => rfl
  | ⟨marked, ⟨b, []⟩ :: below, finished⟩ => by
    simp only [result, step]
    conv_rhs => rw [search]
  | ⟨marked, ⟨b, s :: rest⟩ :: below, finished⟩ => by
    by_cases hs : marked.get s = true
    · rw [step_of_marked g b rest below finished hs]
      simp only [result]
      conv_rhs => rw [search, if_pos hs]
    · rw [step_of_unmarked g b rest below finished hs]
      simp only [result]
      conv_rhs => rw [search, if_neg hs]

theorem result_iterate (g : Graph n) (s : Search n) : ∀ k, ((step g)^[k] s).result g = s.result g
  | 0 => rfl
  | k + 1 => by rw [Function.iterate_succ_apply', result_step, result_iterate g s k]

end Search

/-- The steps that blocks take in the search: one for each edge that leaves them, and one to finish each. -/
def effort (g : Graph n) (bs : List (Fin n)) : Nat := (bs.map fun b => (g.succs.get b).length + 1).sum

/-- Taking the top frame off the stack is to explore the successors it has left, and to finish its block. -/
theorem iterate_step_frame (g : Graph n) (marked : Vector Bool n) (rest : List (Fin n)) (b : Fin n)
    (below : List (Frame n)) (finished : List (Fin n)) :
    let e := g.explore marked rest
    (Search.step g)^[effort g e.finished + rest.length + 1] ⟨marked, ⟨b, rest⟩ :: below, finished⟩ =
      ⟨e.marks, below, b :: (e.finished.reverse ++ finished)⟩ := by
  fun_induction explore g marked rest generalizing b below finished with
  | case1 marked => rfl
  | case2 marked s rest hs ih =>
    intro e
    rw [List.length_cons, Function.iterate_succ_apply, Search.step_of_marked _ _ _ _ _ hs]
    exact ih b below finished
  | case3 marked s rest hs inner whole ihin ihout =>
    -- The frame of `s` is taken off first, then the steps go on with the frame of `b`.
    intro e
    have hfinished : e.finished = inner.finished ++ [s] ++ (g.explore whole.marks rest).finished := rfl
    have hsplit : effort g e.finished + (s :: rest).length + 1 =
        (effort g (g.explore whole.marks rest).finished + rest.length + 1) +
          (effort g inner.finished + (g.succs.get s).length + 1) + 1 := by
      simp only [hfinished, effort, List.map_append, List.map_cons, List.map_nil, List.sum_append, List.sum_cons,
        List.sum_nil, List.length_cons]
      omega
    rw [hsplit, Function.iterate_succ_apply, Search.step_of_unmarked _ _ _ _ _ hs,
      Function.iterate_add_apply, ihin s (⟨b, rest⟩ :: below) finished]
    refine (ihout b below (s :: (inner.finished.reverse ++ finished))).trans ?_
    rw [hfinished, List.reverse_append, List.reverse_append, List.append_assoc]
    rfl

theorem iterate_step_start (g : Graph n) : ∃ marks, (Search.step g)^[effort g g.depthFirst] (.start g) =
    ⟨marks, [], g.depthFirst.reverse⟩ := by
  have hframe := iterate_step_frame g (put (Vector.replicate n false) g.entry true) (g.succs.get g.entry)
    g.entry [] []
  have heffort : effort g g.depthFirst =
      effort g (g.explore (put (Vector.replicate n false) g.entry true) (g.succs.get g.entry)).finished +
        (g.succs.get g.entry).length + 1 := by
    rw [depthFirst_eq, effort, List.map_append, List.sum_append, List.map_singleton, List.sum_singleton]
    rfl
  simp only [List.append_nil] at hframe
  rw [heffort, depthFirst_eq, List.reverse_append]
  exact ⟨_, hframe⟩

theorem reversePostorder_eq (g : Graph n) : g.reversePostorder = g.depthFirst.reverse := by
  obtain ⟨marks, hend⟩ := g.iterate_step_start
  have hresult := Search.result_iterate g (.start g) (effort g g.depthFirst)
  rw [hend] at hresult
  simp only [Search.result, search] at hresult
  exact hresult.symm

theorem postorder_eq (g : Graph n) : g.postorder = g.depthFirst := by
  rw [postorder, reversePostorder_eq, List.reverse_reverse]

/-! ## What an exploration does -/

/-- `s` stands before `u` in the list, or it leads back to `u`. -/
def EarlierOrBack (g : Graph n) (finished : List (Fin n)) (s u : Fin n) : Prop :=
  [s, u].Sublist finished ∨ g.Reaches s u

theorem EarlierOrBack.mono {xs ys : List (Fin n)} {s u : Fin n} (hsub : xs.Sublist ys)
    (h : g.EarlierOrBack xs s u) : g.EarlierOrBack ys s u := h.imp_left fun hs => hs.trans hsub

/-- What comes of exploring `bs` with the blocks of `marked` out of bounds. -/
structure Explores (g : Graph n) (marked : Vector Bool n) (bs : List (Fin n)) (e : Exploration marked) :
    Prop where
  /-- The blocks newly marked are those that are finished. -/
  marks_iff : ∀ b, e.marks.get b = true ↔ marked.get b = true ∨ b ∈ e.finished
  /-- No block of the list is left out. -/
  tried : ∀ b ∈ bs, e.marks.get b = true
  /-- Nothing is found but by edges from the list. -/
  reached : ∀ u ∈ e.finished, ∃ b ∈ bs, g.Reaches b u
  /-- No successor of a finished block is left out. -/
  closed : ∀ u ∈ e.finished, ∀ s, g.Edge u s → e.marks.get s = true
  /-- A successor is out of bounds, or finished earlier, or it leads back. -/
  earlier : ∀ u ∈ e.finished, ∀ s, g.Edge u s → marked.get s = true ∨ g.EarlierOrBack e.finished s u

namespace Explores

variable {b : Fin n} {rest : List (Fin n)}

theorem nil (g : Graph n) (marked : Vector Bool n) : g.Explores marked [] ⟨marked, [], fun _ h => h⟩ := by
  constructor <;> simp

theorem skip {e : Exploration marked} (h : g.Explores marked rest e) (hb : marked.get b = true) :
    g.Explores marked (b :: rest) e where
  marks_iff := h.marks_iff
  tried c hc := by
    rcases List.mem_cons.mp hc with rfl | hc
    · exact e.grows c hb
    · exact h.tried c hc
  reached u hu := by
    obtain ⟨c, hc, hreach⟩ := h.reached u hu
    exact ⟨c, List.mem_cons_of_mem b hc, hreach⟩
  closed := h.closed
  earlier := h.earlier

theorem reaches {e : Exploration marked} (h : g.Explores marked (g.succs.get b) e) {u : Fin n}
    (hu : u ∈ e.finished) : g.Reaches b u := by
  obtain ⟨s, he, hreach⟩ := h.reached u hu
  exact .of_edge he hreach

/-- A block whose successors are explored with it out of bounds. What they find is found from the block, so
an edge back to it from there is one that closes a round. -/
theorem finish {e : Exploration (put marked b true)}
    (h : g.Explores (put marked b true) (g.succs.get b) e) : g.Explores marked [b] (e.finish b) where
  marks_iff c := by
    rw [Exploration.mem_finish, Exploration.marks_finish, h.marks_iff, get_put_true]
    tauto
  tried c hc := by
    obtain rfl := List.mem_singleton.mp hc
    exact e.grows c (get_put_true.mpr (Or.inl rfl))
  reached u hu := by
    refine ⟨b, by simp, ?_⟩
    rcases Exploration.mem_finish.mp hu with hu | rfl
    · exact h.reaches hu
    · exact .refl u
  closed u hu s he := by
    rcases Exploration.mem_finish.mp hu with hu | rfl
    · exact h.closed u hu s he
    · exact h.tried s he
  earlier u hu s he := by
    rcases Exploration.mem_finish.mp hu with hu | rfl
    · rcases h.earlier u hu s he with hs | hs
      · rcases get_put_true.mp hs with rfl | hs
        · exact Or.inr (Or.inr (h.reaches hu))
        · exact Or.inl hs
      · exact Or.inr (hs.mono (List.sublist_append_left ..))
    · rcases (h.marks_iff s).mp (h.tried s he) with hs | hs
      · rcases get_put_true.mp hs with rfl | hs
        · exact Or.inr (Or.inr (.refl s))
        · exact Or.inl hs
      · exact Or.inr (Or.inl ((List.singleton_sublist.mpr hs).append (List.Sublist.refl [u])))

/-- What the first exploration marks is out of bounds for the second, and finished before it. -/
theorem andThen {bs : List (Fin n)} {e : Exploration marked} {e' : Exploration e.marks}
    (h : g.Explores marked bs e) (h' : g.Explores e.marks rest e') :
    g.Explores marked (bs ++ rest) (e.andThen e') where
  marks_iff c := by
    rw [Exploration.mem_andThen, ← or_assoc, ← h.marks_iff]
    exact h'.marks_iff c
  tried c hc := by
    rcases List.mem_append.mp hc with hc | hc
    · exact e'.grows c (h.tried c hc)
    · exact h'.tried c hc
  reached u hu := by
    rcases Exploration.mem_andThen.mp hu with hu | hu
    · obtain ⟨c, hc, hreach⟩ := h.reached u hu
      exact ⟨c, List.mem_append_left _ hc, hreach⟩
    · obtain ⟨c, hc, hreach⟩ := h'.reached u hu
      exact ⟨c, List.mem_append_right _ hc, hreach⟩
  closed u hu s he := by
    rcases Exploration.mem_andThen.mp hu with hu | hu
    · exact e'.grows s (h.closed u hu s he)
    · exact h'.closed u hu s he
  earlier u hu s he := by
    rcases Exploration.mem_andThen.mp hu with hu | hu
    · exact (h.earlier u hu s he).imp_right fun hs => hs.mono (List.sublist_append_left ..)
    · rcases h'.earlier u hu s he with hs | hs
      · rcases (h.marks_iff s).mp hs with hs | hs
        · exact Or.inl hs
        · exact Or.inr (Or.inl ((List.singleton_sublist.mpr hs).append (List.singleton_sublist.mpr hu)))
      · exact Or.inr (hs.mono (List.sublist_append_right ..))

end Explores

theorem explores_explore (g : Graph n) (marked : Vector Bool n) (bs : List (Fin n)) :
    g.Explores marked bs (g.explore marked bs) := by
  fun_induction explore g marked bs with
  | case1 marked => exact .nil g marked
  | case2 marked b rest hb ih => exact ih.skip hb
  | case3 marked b rest hb inner whole ihin ihout => exact ihin.finish.andThen ihout

/-! ## What the search lists -/

theorem explores_entry (g : Graph n) :
    g.Explores (Vector.replicate n false) [g.entry] (g.explore (Vector.replicate n false) [g.entry]) :=
  g.explores_explore _ _

/-- The search lists the blocks that the entry reaches. -/
theorem mem_postorder_iff {b : Fin n} : b ∈ g.postorder ↔ g.Reaches g.entry b := by
  have h := g.explores_entry
  have hmarks : ∀ c, (g.explore (Vector.replicate n false) [g.entry]).marks.get c = true ↔
      c ∈ g.depthFirst := by
    intro c
    rw [h.marks_iff]
    simp [depthFirst]
  rw [postorder_eq]
  constructor
  · intro hb
    obtain ⟨c, hc, hreach⟩ := h.reached b hb
    obtain rfl := List.mem_singleton.mp hc
    exact hreach
  · intro hreach
    have hentry : g.entry ∈ g.depthFirst := (hmarks g.entry).mp (h.tried g.entry (by simp))
    exact hreach.carry (fun u s he hu => (hmarks s).mp (h.closed u hu s he)) hentry

theorem nodup_postorder (g : Graph n) : g.postorder.Nodup := List.nodup_reverse.mpr g.nodup_reversePostorder

end Graph

namespace Function

open LiveVars.Graph

/-- **The search is the recursive one.** The graph searched is the one that the function stores, with the
edges of each block in stored order. The search with a stack comes to an empty stack after one step for
each block it lists and one for each edge that leaves one. It lists the blocks in the order in which the
recursive search finishes them: each block that the entry reaches once, no other block, the entry last. -/
theorem postorder_depthFirst (f : Function) :
    let g := f.graph
    let last := (Search.step g)^[effort g g.postorder] (.start g)
    f.DepictedBy g ∧ (last.stack = [] ∧ last.finished = g.reversePostorder) ∧ g.postorder = g.depthFirst ∧
      g.postorder.Nodup ∧ (∀ b, b ∈ g.postorder ↔ g.Reaches g.entry b) ∧
      g.postorder.getLast? = some g.entry := by
  intro g last
  obtain ⟨marks, hend⟩ := g.iterate_step_start
  have hlast : last = ⟨marks, [], g.reversePostorder⟩ := by
    show (Search.step g)^[effort g g.postorder] (.start g) = _
    rw [postorder_eq, hend, reversePostorder_eq]
  refine ⟨f.depictedBy_graph, by simp [hlast], g.postorder_eq, g.nodup_postorder, fun b => mem_postorder_iff, ?_⟩
  rw [postorder_eq, depthFirst_eq]
  simp

end Function

end LiveVars
