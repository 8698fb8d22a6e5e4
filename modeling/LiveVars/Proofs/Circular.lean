/-
Equations in a circle: each block leads to the next of the layout and the last to the
first, every block defines `tmp`, the first reads `acc` and the others read `tmp`.

All that is read far away is `acc`. A block reads `tmp` itself or leads no further with
it, while news of `acc` goes from the first block to the last and from there, against the
edges, through the whole layout back to the first. Where the visits follow the layout each
of these steps but one waits for the next sweep; where they go against it only the one
from the first block to the last does (`sweeps_layout`, `sweeps_reverseLayout`).

The queue, filled against the layout, goes round twice. On the way out (`Outbound`) no
block has heard of `acc` until the first is visited, which is the last to be. On the way
home (`Homebound`) one block waits at a time: its successor has `acc`, it has not, so its
visit has the block before it wait. When all have heard the last block is visited for
nothing, and the queue is empty (`visits_reverseLayout`).
-/
import LiveVars.Proofs.SinglePass
import LiveVars.Proofs.SweepCounts
import LiveVars.Sample.Ring

namespace LiveVars

open Sample

/-- The next block of the layout, or the first if there is none. -/
def next {n : Nat} (b : Fin n) : Fin n := ⟨(b.val + 1) % n, Nat.mod_lt _ b.pos⟩

section Next

variable {n : Nat} {b c : Fin n}

theorem val_next_of_lt (h : b.val + 1 < n) : (next b).val = b.val + 1 := Nat.mod_eq_of_lt h

theorem val_next_of_eq (h : b.val + 1 = n) : (next b).val = 0 := by
  show (b.val + 1) % n = 0
  rw [h, Nat.mod_self]

/-- The next block is one further on, or the first behind the last. -/
theorem next_cases (b : Fin n) :
    b.val + 1 < n ∧ (next b).val = b.val + 1 ∨ b.val + 1 = n ∧ (next b).val = 0 := by
  rcases Nat.lt_or_eq_of_le b.isLt with h | h
  · exact Or.inl ⟨h, val_next_of_lt h⟩
  · exact Or.inr ⟨h, val_next_of_eq h⟩

theorem next_inj (h : next b = next c) : b = c := by
  have hval := congrArg Fin.val h
  have hb := next_cases b
  have hc := next_cases c
  exact Fin.ext (by omega)

theorem exists_last (b : Fin n) : ∃ last : Fin n, last.val + 1 = n :=
  ⟨⟨n - 1, Nat.sub_lt b.pos Nat.one_pos⟩, Nat.sub_add_cancel b.pos⟩

/-- What a block has from its successor and the first block has of itself, all blocks have. -/
theorem forall_of_next {P : Fin n → Prop} (hfirst : ∀ b : Fin n, b.val = 0 → P b)
    (hnext : ∀ b : Fin n, b.val ≠ 0 → P (next b) → P b) (b : Fin n) : P b := by
  by_cases hb : b.val = 0
  · exact hfirst b hb
  · refine hnext b hb ?_
    rcases next_cases b with ⟨hlt, hval⟩ | ⟨_, hval⟩
    · exact forall_of_next hfirst hnext (next b)
    · exact hfirst _ hval
termination_by n - b.val
decreasing_by omega

end Next

namespace Equations

variable {n : Nat} {e : Equations n} {v : ValueId} {b s : Fin n}

/-- The equations of a ring of blocks. -/
structure Circular (e : Equations n) : Prop where
  entry : e.graph.entry.val = 0
  succs : ∀ b : Fin n, e.graph.succs.get b = [next b]
  mem_uses : ∀ (b : Fin n) v, v ∈ e.uses.get b ↔ v = if b.val = 0 then acc else tmp
  mem_defs : ∀ (b : Fin n) v, v ∈ e.defs.get b ↔ v = tmp

namespace Circular

theorem acc_ne_tmp : acc ≠ tmp := by decide

theorem edge_iff (h : e.Circular) : e.graph.Edge b s ↔ s = next b := by
  show s ∈ e.graph.succs.get b ↔ _
  rw [h.succs, List.mem_singleton]

theorem edge_next_iff (h : e.Circular) : e.graph.Edge s (next b) ↔ s = b := by
  rw [h.edge_iff]
  exact ⟨fun heq => (next_inj heq).symm, fun heq => heq ▸ rfl⟩

theorem acc_mem_uses (h : e.Circular) : acc ∈ e.uses.get b ↔ b.val = 0 := by
  rw [h.mem_uses]
  split <;> simp [*, acc_ne_tmp]

theorem tmp_mem_uses (h : e.Circular) : tmp ∈ e.uses.get b ↔ b.val ≠ 0 := by
  rw [h.mem_uses]
  split <;> simp [*, acc_ne_tmp.symm]

theorem acc_not_mem_defs (h : e.Circular) : ¬ acc ∈ e.defs.get b := by
  rw [h.mem_defs]
  exact acc_ne_tmp

/-! ## What is live -/

theorem readAhead_acc (h : e.Circular) : e.ReadAhead acc b :=
  forall_of_next (fun _ hb => .of_use (h.acc_mem_uses.mpr hb))
    (fun _ _ hnext => .of_edge (h.edge_iff.mpr rfl) h.acc_not_mem_defs hnext) b

theorem readAhead_tmp (h : e.Circular) : e.ReadAhead tmp b ↔ b.val ≠ 0 := by
  rw [readAhead_iff, h.tmp_mem_uses]
  have hdefs : tmp ∈ e.defs.get b := (h.mem_defs b tmp).mpr rfl
  simp [hdefs]

theorem readAhead_iff_ring (h : e.Circular) : e.ReadAhead v b ↔ v = acc ∨ v = tmp ∧ b.val ≠ 0 := by
  refine ⟨fun hv => ?_, ?_⟩
  · obtain ⟨_, c, _, huse, _⟩ := id hv
    rw [h.mem_uses] at huse
    split at huse
    · exact Or.inl huse
    · subst huse
      exact Or.inr ⟨rfl, h.readAhead_tmp.mp hv⟩
  · rintro (rfl | ⟨rfl, hb⟩)
    · exact h.readAhead_acc
    · exact h.readAhead_tmp.mpr hb

theorem readAfter_iff_ring (h : e.Circular) :
    (∃ s, e.graph.Edge b s ∧ e.ReadAhead v s) ↔ v = acc ∨ v = tmp ∧ b.val + 1 ≠ n := by
  have hlast : (next b).val ≠ 0 ↔ b.val + 1 ≠ n := by
    have := next_cases b
    omega
  simp only [h.edge_iff, exists_eq_left, h.readAhead_iff_ring, hlast]

end Circular

end Equations

/-! ## The order of the search -/

namespace Graph

variable {n : Nat} {g : Graph n}

/-- Frames with nothing left to try are finished from the top. -/
theorem search_exhausted (marked : Vector Bool n) : ∀ (bs finished : List (Fin n)),
    g.search marked (bs.map (Frame.mk · [])) finished = bs.reverse ++ finished
  | [], finished => by rw [List.map_nil, search]; rfl
  | b :: bs, finished => by
    rw [List.map_cons, search, search_exhausted marked bs, List.reverse_cons, List.append_assoc]
    rfl

theorem take_finRange_succ {i : Nat} (hi : i < n) :
    (List.finRange n).take (i + 1) = (List.finRange n).take i ++ [⟨i, hi⟩] := by
  rw [List.take_add_one, List.getElem?_eq_getElem (by simpa using hi)]
  simp

/-- With the blocks up to `b` on the stack, the search goes on to the end of the layout. -/
theorem search_circle (hg : ∀ b : Fin n, g.succs.get b = [next b]) (b : Fin n) (marked : Vector Bool n)
    (hmarked : ∀ c : Fin n, marked.get c = true ↔ c ≤ b) :
    g.search marked (⟨b, g.succs.get b⟩ :: ((List.finRange n).take b).reverse.map (Frame.mk · [])) [] =
      List.finRange n := by
  have hstack : (⟨b, []⟩ : Frame n) :: ((List.finRange n).take b).reverse.map (Frame.mk · []) =
      ((List.finRange n).take (b + 1)).reverse.map (Frame.mk · []) := by
    rw [take_finRange_succ b.isLt, List.reverse_append]
    rfl
  rw [hg b, search]
  rcases next_cases b with ⟨hlt, hval⟩ | ⟨heq, hval⟩
  · have hnew : ¬ marked.get (next b) = true := by
      rw [hmarked, Fin.le_def]
      omega
    have hmarked' : ∀ c : Fin n, (put marked (next b) true).get c = true ↔ c ≤ next b := fun c => by
      rw [get_put_true, hmarked, Fin.le_def, Fin.le_def, Fin.ext_iff]
      omega
    rw [if_neg hnew, hstack, ← hval]
    exact search_circle hg (next b) _ hmarked'
  · have hold : marked.get (next b) = true := by
      rw [hmarked, Fin.le_def]
      omega
    rw [if_pos hold, hstack, search_exhausted, List.reverse_reverse, List.append_nil, heq,
      List.take_of_length_le (by simp)]
termination_by n - b.val

theorem reversePostorder_circle (hentry : g.entry.val = 0) (hg : ∀ b : Fin n, g.succs.get b = [next b]) :
    g.reversePostorder = List.finRange n := by
  have hsearch := search_circle hg g.entry (put (Vector.replicate n false) g.entry true) fun c => by
    rw [get_put_true, Fin.le_def, Fin.ext_iff, hentry]
    simp
  rw [hentry] at hsearch
  exact hsearch

/-- The search goes through the circle as the layout does. -/
theorem visits_circle (hentry : g.entry.val = 0) (hg : ∀ b : Fin n, g.succs.get b = [next b]) :
    g.visits .reversePostorder = g.visits .layout ∧ g.visits .postorder = g.visits .reverseLayout := by
  have hsearch := reversePostorder_circle hentry hg
  have hpost : g.postorder = (List.finRange n).reverse := congrArg List.reverse hsearch
  have hunreached : g.unreached = [] := List.eq_nil_iff_forall_not_mem.mpr fun b hb => by
    rw [mem_unreached, hpost] at hb
    exact hb (List.mem_reverse.mpr (List.mem_finRange b))
  constructor
  · show g.reversePostorder ++ g.unreached = List.finRange n
    rw [hsearch, hunreached, List.append_nil]
  · show g.postorder ++ g.unreached.reverse = (List.finRange n).reverse
    rw [hpost, hunreached, List.reverse_nil, List.append_nil]

end Graph

/-! ## Sweeps -/

namespace RoundRobin

open Equations

variable {n : Nat} {e : Equations n} {u s : Fin n}

theorem delayed_layout : Delayed (List.finRange n) u s ↔ u.val ≤ s.val := by
  rw [Delayed, List.idxOf_finRange, List.idxOf_finRange, Nat.not_lt]

theorem idxOf_reverse_finRange (b : Fin n) : (List.finRange n).reverse.idxOf b = n - 1 - b.val := by
  have hlt : n - 1 - b.val < (List.finRange n).reverse.length := by
    rw [List.length_reverse, List.length_finRange]
    omega
  have hget : (List.finRange n).reverse.get ⟨n - 1 - b.val, hlt⟩ = b := by
    simp only [List.get_eq_getElem, List.getElem_reverse, List.getElem_finRange, List.length_finRange]
    refine Fin.ext ?_
    show n - 1 - (n - 1 - b.val) = b.val
    omega
  have hidx := List.get_idxOf (List.nodup_reverse.mpr (List.nodup_finRange n)) ⟨n - 1 - b.val, hlt⟩
  rwa [hget] at hidx

theorem delayed_reverseLayout : Delayed (List.finRange n).reverse u s ↔ s.val ≤ u.val := by
  rw [Delayed, idxOf_reverse_finRange, idxOf_reverse_finRange]
  omega

/-- Along the layout every edge up to the last block is delayed. -/
theorem le_delays_layout (h : e.Circular) {b c : Fin n} {passed : List (Fin n)} (hw : e.graph.Walk b passed c)
    (hc : c.val = 0) (hb : b.val ≠ 0) : n - 1 - b.val ≤ delays (List.finRange n) (passed ++ [c]) := by
  induction hw with
  | here c => exact absurd hc hb
  | @onward b s c passed he hw ih =>
    rw [List.cons_append, delays_cons hw]
    obtain rfl := h.edge_iff.mp he
    rcases next_cases b with ⟨_, hval⟩ | ⟨heq, _⟩
    · have hrest := ih hc (by omega)
      rw [delay, if_pos (delayed_layout.mpr (by omega))]
      omega
    · omega

/-- Against the layout only the edge to the first block is delayed. -/
theorem delay_next_le (b : Fin n) :
    delay (List.finRange n).reverse b (next b) + (if (next b).val = 0 then 0 else 1) ≤ 1 := by
  rcases next_cases b with ⟨_, hval⟩ | ⟨_, hval⟩
  · rw [delay, if_neg (by rw [delayed_reverseLayout]; omega), if_neg (by omega)]
  · rw [if_pos hval]
    exact delay_le ..

theorem exists_walk_reverseLayout (h : e.Circular) (b : Fin n) : ∃ passed c, e.graph.Walk b passed c ∧
    c.val = 0 ∧ delays (List.finRange n).reverse (passed ++ [c]) ≤ if b.val = 0 then 0 else 1 := by
  induction b using forall_of_next with
  | hfirst b hb => exact ⟨[], b, .here b, hb, Nat.zero_le _⟩
  | hnext b hb ih =>
    obtain ⟨passed, c, hw, hc, hle⟩ := ih
    refine ⟨b :: passed, c, .onward (h.edge_iff.mpr rfl) hw, hc, ?_⟩
    rw [List.cons_append, delays_cons hw, if_neg hb]
    exact Nat.le_trans (Nat.add_le_add_left hle _) (delay_next_le b)

theorem sweeps_layout (h : e.Circular) (hn : 2 ≤ n) : (solve e (List.finRange n)).stats.sweeps = n + 1 := by
  have ho : Enumerates (List.finRange n) := enumerates_visits e.graph .layout
  have hle := sweeps_solve_le_size (e := e) ho
  refine Nat.le_antisymm (by omega) (Nat.lt_of_not_le fun hless => ?_)
  obtain ⟨d, rfl⟩ : ∃ d, n = d + 2 := ⟨n - 2, by omega⟩
  -- the news that the first block is to have is its own, and comes all the way round
  have hedge : e.graph.Edge e.graph.entry (next e.graph.entry) := h.edge_iff.mpr rfl
  obtain ⟨s, passed, c, he, hw, huse, _, hd⟩ :=
    (sweeps_solve_le_iff ho).mp hless _ _ acc hedge h.readAhead_acc
  have hentry := h.entry
  obtain rfl := h.edge_iff.mp he
  have hval : (next e.graph.entry).val = 1 := by
    rw [val_next_of_lt (by omega), hentry]
  have hround := le_delays_layout h hw (h.acc_mem_uses.mp huse) (by omega)
  rw [delays_cons hw, delay, if_pos (delayed_layout.mpr (by omega))] at hd
  omega

theorem sweeps_reverseLayout (h : e.Circular) : (solve e (List.finRange n).reverse).stats.sweeps = 3 := by
  have ho : Enumerates (List.finRange n).reverse := enumerates_visits e.graph .reverseLayout
  refine Nat.le_antisymm (sweeps_solve_le (d := 1) ho fun u s v he hs => ?_) (Nat.lt_of_not_le fun hless => ?_)
  · obtain rfl := h.edge_iff.mp he
    rcases h.readAhead_iff_ring.mp hs with rfl | ⟨rfl, hne⟩
    · obtain ⟨passed, c, hw, hc, hle⟩ := exists_walk_reverseLayout h (next u)
      refine ⟨next u, passed, c, he, hw, h.acc_mem_uses.mpr hc, fun p _ => h.acc_not_mem_defs, ?_⟩
      rw [delays_cons hw]
      exact Nat.le_trans (Nat.add_le_add_left hle _) (delay_next_le u)
    · exact ⟨next u, [], next u, he, .here _, h.tmp_mem_uses.mpr hne, by simp, delay_le ..⟩
  · obtain ⟨last, hlast⟩ := exists_last e.graph.entry
    have hedge : e.graph.Edge last (next last) := h.edge_iff.mpr rfl
    obtain ⟨s, passed, c, he, hw, _, _, hd⟩ :=
      (sweeps_solve_le_iff (d := 0) ho).mp hless _ _ acc hedge h.readAhead_acc
    obtain rfl := h.edge_iff.mp he
    have hval := val_next_of_eq hlast
    rw [delays_cons hw, delay, if_pos (delayed_reverseLayout.mpr (by omega))] at hd
    omega

end RoundRobin

/-! ## The queue -/

namespace Worklist

open Equations

variable {n : Nat} {e : Equations n} {w : Worklist e} {b p : Fin n} {rest : List (Fin n)}

/-- A block that waits alone and has one predecessor has that one wait in its place, if its visit changes
anything. -/
theorem queue_step_alone (h : w.Marked) (hq : w.queue = [b]) (hsettled : ¬ e.Settled w.current.facts b)
    (hpred : ∀ c, e.graph.Edge c b ↔ c = p) : w.step.queue = [p] := by
  have hv : (w.current.visit b).2 = true := by
    rw [← Bool.not_eq_false, Approximation.visit_unchanged_iff]
    exact hsettled
  have hpop := h.pop hq (w.current.visit b).1 (w.visits + 1)
  rw [step_of_changed hq hv]
  refine List.perm_singleton.mp ((List.perm_ext_iff_of_nodup hpop.enqueueAll.nodup (List.nodup_singleton p)).mpr ?_)
  intro c
  rw [mem_enqueueAll hpop, Graph.mem_preds, hpred]
  simp

theorem visits_drain_step (hne : w.queue ≠ []) {k : Nat} (h : w.step.drain.visits = w.step.visits + k) :
    w.drain.visits = w.visits + (k + 1) := by
  rw [← drain_step, h, visits_step hne]
  omega

/-- The first `k` blocks are left to visit, from the last of them to the first, and no block has heard
of `acc`. -/
structure Outbound (w : Worklist e) (k : Nat) : Prop extends w.Consistent where
  queue : w.queue.map Fin.val = (List.range k).reverse
  acc_liveIn : ∀ b : Fin n, ¬ acc ∈ w.current.facts.liveIn.get b
  acc_liveOut : ∀ b : Fin n, ¬ acc ∈ w.current.facts.liveOut.get b

/-- Only `b` waits. The block behind it has `acc`, and so has the first, but up to `b` none knows that
`acc` is live after it. -/
structure Homebound (w : Worklist e) (b : Fin n) : Prop extends w.Consistent where
  queue : w.queue = [b]
  acc_next : acc ∈ w.current.facts.liveIn.get (next b)
  acc_first : ∀ c : Fin n, c.val = 0 → acc ∈ w.current.facts.liveIn.get c
  acc_liveOut : ∀ c : Fin n, c ≤ b → ¬ acc ∈ w.current.facts.liveOut.get c

/-! ### The way out -/

theorem Outbound.exists_front {k : Nat} (h : w.Outbound (k + 1)) :
    ∃ b rest, w.queue = b :: rest ∧ b.val = k ∧ rest.map Fin.val = (List.range k).reverse := by
  have hqueue := h.queue
  rw [List.range_succ, List.reverse_append, List.reverse_singleton, List.singleton_append,
    List.map_eq_cons_iff] at hqueue
  exact hqueue

theorem Outbound.acc_outOf {k : Nat} (h : w.Outbound k) (b : Fin n) :
    ¬ acc ∈ e.outOf w.current.facts.liveIn b := by
  rw [mem_outOf]
  rintro ⟨s, _, hs⟩
  exact h.acc_liveIn s hs

theorem Outbound.acc_liveOut_step {k : Nat} (h : w.Outbound k) (hq : w.queue = b :: rest) (c : Fin n) :
    ¬ acc ∈ w.step.current.facts.liveOut.get c := by
  rw [facts_step hq]
  by_cases hcb : c = b
  · subst hcb
    rw [revise_liveOut_self]
    exact h.acc_outOf c
  · rw [revise_liveOut_other _ _ hcb]
    exact h.acc_liveOut c

/-- The visit of a block other than the first: the block before it is waiting already. -/
theorem Outbound.step (hc : e.Circular) {k : Nat} (h : w.Outbound (k + 2)) : w.step.Outbound (k + 1) := by
  obtain ⟨b, rest, hq, hb, hrest⟩ := h.exists_front
  have hpreds : ∀ p, e.graph.Edge p b → p ∈ rest := by
    intro p he
    obtain rfl := hc.edge_iff.mp he
    have hp : p.val ∈ rest.map Fin.val := by
      rw [hrest, List.mem_reverse, List.mem_range]
      have := next_cases p
      omega
    obtain ⟨q, hq, hqp⟩ := List.mem_map.mp hp
    exact Fin.ext hqp ▸ hq
  refine ⟨h.toConsistent.step, ?_, fun c => ?_, h.acc_liveOut_step hq⟩
  · rw [queue_step h.toMarked hq hpreds]
    exact hrest
  · rw [facts_step hq]
    by_cases hcb : c = b
    · subst hcb
      rw [revise_liveIn_self, mem_inOf, hc.acc_mem_uses]
      rintro (hzero | ⟨hout, _⟩)
      · omega
      · exact h.acc_outOf c hout
    · rw [revise_liveIn_other _ _ hcb]
      exact h.acc_liveIn c

/-- The visit of the first block, with which the way home begins. -/
theorem Outbound.turn (hc : e.Circular) {last : Fin n} (hlast : last.val + 1 = n) (h : w.Outbound 1) :
    w.step.Homebound last := by
  obtain ⟨b, rest, hq, hb, hrest⟩ := h.exists_front
  obtain rfl : rest = [] := List.map_eq_nil_iff.mp hrest
  obtain rfl : b = next last := Fin.ext (hb.trans (val_next_of_eq hlast).symm)
  have hacc : ∀ out, acc ∈ e.inOf (next last) out := fun out =>
    mem_inOf.mpr (Or.inl (hc.acc_mem_uses.mpr hb))
  have hunsettled : ¬ e.Settled w.current.facts (next last) := fun hs =>
    h.acc_liveIn (next last) (hs.2 ▸ hacc _)
  have hnext : acc ∈ w.step.current.facts.liveIn.get (next last) := by
    rw [facts_step hq, revise_liveIn_self]
    exact hacc _
  refine ⟨h.toConsistent.step, ?_, hnext, fun c hzero => ?_, fun c _ => h.acc_liveOut_step hq c⟩
  · exact queue_step_alone h.toMarked hq hunsettled fun c => hc.edge_next_iff
  · obtain rfl : c = next last := Fin.ext (hzero.trans hb.symm)
    exact hnext

/-! ### The way home -/

theorem Homebound.acc_outOf (hc : e.Circular) (h : w.Homebound b) : acc ∈ e.outOf w.current.facts.liveIn b :=
  mem_outOf.mpr ⟨next b, hc.edge_iff.mpr rfl, h.acc_next⟩

/-- The visit of the one block that waits has the block before it wait. -/
theorem Homebound.queue_step (hc : e.Circular) (h : w.Homebound (next b)) : w.step.queue = [b] := by
  have hunsettled : ¬ e.Settled w.current.facts (next b) := fun hs =>
    h.acc_liveOut (next b) (Fin.le_refl _) (hs.1 ▸ h.acc_outOf hc)
  exact queue_step_alone h.toMarked h.queue hunsettled fun c => hc.edge_next_iff

theorem Homebound.acc_first_step (h : w.Homebound b) (c : Fin n) (hzero : c.val = 0) :
    acc ∈ w.step.current.facts.liveIn.get c := by
  rw [facts_step h.queue]
  exact w.current.climbing.liveIn_revise b c acc (h.acc_first c hzero)

theorem Homebound.step (hc : e.Circular) (h : w.Homebound (next b)) (hb : b.val + 1 < n) : w.step.Homebound b := by
  have hval := val_next_of_lt hb
  refine ⟨h.toConsistent.step, h.queue_step hc, ?_, h.acc_first_step, fun c hle => ?_⟩
  · rw [facts_step h.queue, revise_liveIn_self]
    exact mem_inOf.mpr (Or.inr ⟨h.acc_outOf hc, hc.acc_not_mem_defs⟩)
  · rw [Fin.le_def] at hle
    have hne : c ≠ next b := Fin.ne_of_val_ne (by omega)
    rw [facts_step h.queue, revise_liveOut_other _ _ hne]
    exact h.acc_liveOut c (by rw [Fin.le_def]; omega)

/-- Before the first block nothing but `acc` can be live. -/
theorem mem_liveIn_first (hc : e.Circular) {facts : Facts n} (hs : e.Sound facts) (hb : b.val = 0)
    (hacc : acc ∈ facts.liveIn.get b) {v : ValueId} : v ∈ facts.liveIn.get b ↔ v = acc := by
  refine ⟨fun hv => ?_, fun hv => hv ▸ hacc⟩
  exact (hc.readAhead_iff_ring.mp (hs.liveIn b v hv)).resolve_right fun h => h.2 hb

/-- When the first block is visited again, the last one has nothing more to learn from it. -/
theorem Homebound.settled_step (hc : e.Circular) {last : Fin n} (hlast : last.val + 1 = n)
    (h : w.Homebound (next last)) : e.Settled w.step.current.facts last := by
  have hfirst := val_next_of_eq hlast
  have hacc := h.acc_first_step (next last) hfirst
  have hsound := h.toConsistent.step.reached.sound
  rw [facts_step h.queue] at hacc hsound ⊢
  refine settled_revise_of_outOf (outOf_congr fun s he => ValueSet.ext fun v => ?_) fun hne => ?_
  · obtain rfl := hc.edge_iff.mp he
    rw [mem_liveIn_first hc hsound hfirst hacc,
      mem_liveIn_first hc h.reached.sound hfirst (h.acc_first _ hfirst)]
  · refine h.settled last ?_
    rw [h.queue, List.mem_singleton]
    exact hne

/-! ### The number of visits -/

theorem visits_drain_settled (hq : w.queue = [b]) (hs : e.Settled w.current.facts b) :
    w.drain.visits = w.visits + 1 := by
  refine visits_drain_step (k := 0) (by simp [hq]) ?_
  rw [step_of_unchanged hq (Approximation.visit_unchanged_iff.mpr hs), drain, if_pos rfl]

theorem Homebound.visits_drain (hc : e.Circular) {w : Worklist e} {b : Fin n} (h : w.Homebound b) :
    w.drain.visits = w.visits + (b.val + 2) := by
  have hne : w.queue ≠ [] := by simp [h.queue]
  by_cases hb : b.val = 0
  · obtain ⟨last, hlast⟩ := exists_last b
    obtain rfl : b = next last := Fin.ext (hb.trans (val_next_of_eq hlast).symm)
    rw [hb]
    exact visits_drain_step hne (visits_drain_settled (h.queue_step hc) (h.settled_step hc hlast))
  · obtain ⟨p, hp⟩ : ∃ p : Fin n, p.val + 1 = b.val := ⟨⟨b.val - 1, by omega⟩, Nat.sub_add_cancel (Nat.pos_of_ne_zero hb)⟩
    obtain rfl : b = next p := Fin.ext (by rw [val_next_of_lt (by omega), hp])
    rw [← hp]
    exact visits_drain_step hne (Homebound.visits_drain hc (h.step hc (by omega)))
termination_by b.val

theorem Outbound.visits_drain (hc : e.Circular) {k : Nat} (h : w.Outbound (k + 1)) :
    w.drain.visits = w.visits + (n + 1 + k + 1) := by
  have hne : w.queue ≠ [] := by
    obtain ⟨b, rest, hq, _⟩ := h.exists_front
    simp [hq]
  induction k generalizing w with
  | zero =>
    obtain ⟨last, hlast⟩ := exists_last e.graph.entry
    have hhome := (h.turn hc hlast).visits_drain hc
    rw [show last.val + 2 = n + 1 by omega] at hhome
    exact visits_drain_step hne hhome
  | succ k ih =>
    have hstep := h.step hc
    refine visits_drain_step hne (ih hstep ?_)
    obtain ⟨b, rest, hq, _⟩ := hstep.exists_front
    simp [hq]

theorem outbound_start (e : Equations n) : (start e (List.finRange n).reverse).Outbound n := by
  have hbottom : (start e (List.finRange n).reverse).current.facts = .bottom n := by
    rw [start, enqueueAll_current]
    rfl
  refine ⟨.start fun b => List.mem_reverse.mpr (List.mem_finRange b), ?_, fun b => ?_, fun b => ?_⟩
  · rw [queue_start (List.nodup_reverse.mpr (List.nodup_finRange n)), List.map_reverse]
    simp
  · rw [hbottom]
    simp [Facts.bottom]
  · rw [hbottom]
    simp [Facts.bottom]

theorem visits_reverseLayout (hc : e.Circular) : (solve e (List.finRange n).reverse).stats.visits = 2 * n + 1 := by
  have hpos : 0 < n := e.graph.entry.pos
  have hout : (start e (List.finRange n).reverse).Outbound (n - 1 + 1) := by
    rw [Nat.sub_add_cancel hpos]
    exact outbound_start e
  have hdrain := hout.visits_drain hc
  show (start e (List.finRange n).reverse).drain.visits = 2 * n + 1
  rw [hdrain, visits_start]
  omega

end Worklist

end LiveVars
