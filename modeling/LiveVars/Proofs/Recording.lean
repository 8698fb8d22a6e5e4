/-
What a recording of a run shows. Every sweep only adds to the facts, and it says that it
changed something exactly when it added something; so the snapshots of a run by sweeps
climb from nothing to the result, and the first that says unchanged is the last
(`Snapshot.Ascent`, `RoundRobin.ascent_sweeps`).

A recorder writes down what it is handed and does nothing else. What it has at the end is
the whole trace of the run (`Function.trace`) without the kinds of event that its mask
leaves out, behind whatever it had at the start; runs that share a recorder leave their
traces one after the other.
-/
import LiveVars.Sample.Ring
import LiveVars.Trace

namespace LiveVars

/-! ## Facts that grow -/

section

variable {n : Nat}

/-- Set by set, the first facts lie in the second. -/
instance : HasSubset (Facts n) :=
  ⟨fun facts facts' => ∀ b : Fin n,
    facts.liveIn.get b ⊆ facts'.liveIn.get b ∧ facts.liveOut.get b ⊆ facts'.liveOut.get b⟩

theorem Facts.subset_refl (facts : Facts n) : facts ⊆ facts :=
  fun _ => ⟨ValueSet.subset_refl _, ValueSet.subset_refl _⟩

theorem Facts.subset_trans {facts facts' facts'' : Facts n} (h : facts ⊆ facts') (h' : facts' ⊆ facts'') :
    facts ⊆ facts'' :=
  fun b => ⟨ValueSet.subset_trans (h b).1 (h' b).1, ValueSet.subset_trans (h b).2 (h' b).2⟩

theorem Approximation.subset_visit {e : Equations n} (a : Approximation e) (b : Fin n) :
    a.facts ⊆ (a.visit b).1.facts := by
  rw [visit_facts]
  exact fun c => ⟨a.climbing.liveIn_revise b c, a.climbing.liveOut_revise b c⟩

end

/-! ## Snapshots that climb -/

namespace Snapshot

variable {n : Nat} {before final : Facts n} {snapshots : List (Snapshot n)}

/-- `Ascent before snapshots final`: sweeps lead from `before` to `final` and leave the snapshots. Each but
the last adds to the facts and says so; the last adds nothing and says so. -/
inductive Ascent : Facts n → List (Snapshot n) → Facts n → Prop
  | last (facts : Facts n) : Ascent facts [⟨facts, false⟩] facts
  | rise {before after final : Facts n} {later : List (Snapshot n)} :
      before ⊆ after → after ≠ before → Ascent after later final → Ascent before (⟨after, true⟩ :: later) final

/-- The snapshots of a whole run, each held against the one before it and the first against nothing. -/
structure History (snapshots : List (Snapshot n)) (final : Facts n) : Prop where
  grows : ∀ (k : Nat) (before : Facts n) (s : Snapshot n),
    (.bottom n :: snapshots.map facts)[k]? = some before → snapshots[k]? = some s → before ⊆ s.facts
  changed_iff : ∀ (k : Nat) (before : Facts n) (s : Snapshot n),
    (.bottom n :: snapshots.map facts)[k]? = some before → snapshots[k]? = some s →
      (s.changed = true ↔ s.facts ≠ before)
  unchanged_iff : ∀ (k : Nat) (s : Snapshot n), snapshots[k]? = some s →
    (s.changed = false ↔ k + 1 = snapshots.length)
  last : (snapshots.map facts).getLast? = some final

theorem Ascent.length_pos (h : Ascent before snapshots final) : 0 < snapshots.length := by
  cases h <;> simp

theorem Ascent.subset_and_changed_iff (h : Ascent before snapshots final) {k : Nat} {s : Snapshot n}
    {earlier : Facts n} (he : (before :: snapshots.map facts)[k]? = some earlier)
    (hs : snapshots[k]? = some s) : earlier ⊆ s.facts ∧ (s.changed = true ↔ s.facts ≠ earlier) := by
  induction h generalizing k with
  | last facts =>
    cases k with
    | zero =>
      obtain rfl : facts = earlier := by simpa using he
      obtain rfl : ⟨facts, false⟩ = s := by simpa using hs
      exact ⟨Facts.subset_refl _, by simp⟩
    | succ k => simp at hs
  | @rise before after final later hsub hne _ ih =>
    cases k with
    | zero =>
      obtain rfl : before = earlier := by simpa using he
      obtain rfl : ⟨after, true⟩ = s := by simpa using hs
      exact ⟨hsub, by simp [hne]⟩
    | succ k => exact ih he hs

theorem Ascent.unchanged_iff (h : Ascent before snapshots final) {k : Nat} {s : Snapshot n}
    (hs : snapshots[k]? = some s) : s.changed = false ↔ k + 1 = snapshots.length := by
  induction h generalizing k with
  | last facts =>
    cases k with
    | zero =>
      obtain rfl : ⟨facts, false⟩ = s := by simpa using hs
      simp
    | succ k => simp at hs
  | @rise before after final later _ _ hlater ih =>
    cases k with
    | zero =>
      obtain rfl : ⟨after, true⟩ = s := by simpa using hs
      have := hlater.length_pos
      simp only [List.length_cons, Bool.true_eq_false, false_iff]
      omega
    | succ k =>
      rw [ih hs, List.length_cons]
      omega

theorem Ascent.getLast? (h : Ascent before snapshots final) : (snapshots.map facts).getLast? = some final := by
  induction h with
  | last facts => rfl
  | rise _ _ hlater ih => rw [List.map_cons, List.getLast?_cons, ih, Option.getD_some]

theorem Ascent.history (h : Ascent (.bottom n) snapshots final) : History snapshots final where
  grows _ _ _ he hs := (h.subset_and_changed_iff he hs).1
  changed_iff _ _ _ he hs := (h.subset_and_changed_iff he hs).2
  unchanged_iff _ _ hs := h.unchanged_iff hs
  last := h.getLast?

end Snapshot

namespace RoundRobin

variable {n : Nat} {e : Equations n}

theorem subset_foldl_visit : ∀ {xs : List (Fin n)} {s : Sweep e},
    s.current.facts ⊆ (xs.foldl Sweep.visit s).current.facts
  | [], _ => Facts.subset_refl _
  | b :: xs, s => by
    rw [List.foldl_cons]
    exact Facts.subset_trans (s.current.subset_visit b) (@subset_foldl_visit xs (s.visit b))

theorem subset_sweep (order : List (Fin n)) (a : Approximation e) :
    a.facts ⊆ (sweep order a).current.facts :=
  @subset_foldl_visit n e order (.start a)

/-- A sweep that says it changed something has changed the facts: it used up room. -/
theorem facts_sweep_ne {order : List (Fin n)} {a : Approximation e} (h : (sweep order a).changed = true) :
    (sweep order a).current.facts ≠ a.facts := by
  intro heq
  have hlt := room_sweep_lt h
  simp only [Approximation.room, heq] at hlt
  omega

theorem ascent_sweeps (order : List (Fin n)) (a : Approximation e) :
    Snapshot.Ascent a.facts ((sweeps order a).map fun s => ⟨s.current.facts, s.changed⟩)
      ((sweeps order a).getLast (sweeps_ne_nil order a)).current.facts := by
  induction a using sweeps.induct order with
  | case1 a s hc ih =>
    have hchanged : (sweep order a).changed = true := hc
    simp only [sweeps_of_changed hchanged, List.map_cons,
      List.getLast_cons (sweeps_ne_nil order (sweep order a).current), hchanged]
    exact .rise (subset_sweep order a) (facts_sweep_ne hc) ih
  | case2 a s hc =>
    have hsame : (sweep order a).changed = false ∧ (sweep order a).current = a :=
      (sweep_spec order a).resolve_left fun h => hc h.1
    simp only [sweeps_of_unchanged hc, List.map_cons, List.map_nil, List.getLast_singleton, hsame.1, hsame.2]
    exact .last a.facts

theorem history_solve (e : Equations n) (order : List (Fin n)) :
    Snapshot.History (solve e order).snapshots (solve e order).facts :=
  (ascent_sweeps order (.bottom e)).history

end RoundRobin

/-! ## Recorders -/

/-- Whether a mask has the kind of an event. -/
def Mask.has (m : Mask) : Event → Bool
  | .useDef _ _ => m.useDef
  | .sweep _ _ _ _ => m.sweep
  | .finished _ => m.finished

theorem Mask.contains_kind (m : Mask) (event : Event) : m.contains event.kind = m.has event := by
  cases event <;> simp [contains, Event.kind, useDefOnly, sweepOnly, finishedOnly, has]

namespace Sink

theorem offer_recorder (mask : Mask) (f : Function) (events : List Event) (event : Event) :
    (recorder mask).offer f events event = events ++ [event].filter mask.has := by
  cases h : mask.has event with
  | true => simp [offer, recorder, Mask.contains_kind, h]
  | false => simp [offer, recorder, Mask.contains_kind, h]

theorem foldl_offer_recorder (mask : Mask) (f : Function) : ∀ offered events : List Event,
    offered.foldl ((recorder mask).offer f) events = events ++ offered.filter mask.has
  | [], events => by simp
  | event :: offered, events => by
    rw [List.foldl_cons, foldl_offer_recorder mask f offered, offer_recorder, List.append_assoc,
      ← List.filter_append, List.singleton_append]

end Sink

/-! ## Runs -/

namespace Function

/-- The whole trace of a run whose sweeps left the given snapshots: the use and definition sets, the sweeps
counted from 1, and the counts of the result. -/
def trace (f : Function) (c : Settings) (snapshots : List (Snapshot f.blockCount)) : List Event :=
  .useDef (f.equations c.terminatorReads).uses.toArray (f.equations c.terminatorReads).defs.toArray ::
    ((snapshots.zipIdx 1).map fun (s, k) => s.event k) ++ [.finished (f.liveness c).stats]

theorem watchedLiveness_recorder (f : Function) (c : Settings) (mask : Mask) (events : List Event) :
    f.watchedLiveness c (.recorder mask) events =
      (f.liveness c, events ++ (f.trace c (f.solve c).snapshots).filter mask.has) := by
  have hoffers := Sink.foldl_offer_recorder mask f (f.trace c (f.solve c).snapshots) events
  rw [trace, List.cons_append, List.foldl_cons, List.foldl_append, List.foldl_cons, List.foldl_nil] at hoffers
  exact congrArg (Prod.mk (f.liveness c)) hoffers

theorem length_snapshots (f : Function) (c : Settings) :
    (f.solve c).snapshots.length = (f.solve c).stats.sweeps := by
  unfold solve
  cases c.strategy with
  | roundRobin => exact List.length_map _
  | worklist => rfl

theorem history_snapshots (f : Function) {c : Settings} (h : c.strategy = .roundRobin) :
    Snapshot.History (f.solve c).snapshots (f.solve c).facts := by
  simp only [solve, h]
  exact RoundRobin.history_solve _ _

end Function

/-- A run that is watched by a recorder. -/
structure WatchedRun where
  function : Function
  settings : Settings
  mask : Mask

namespace WatchedRun

/-- What the recorder has after the run if it had the given events before. -/
def record (r : WatchedRun) (events : List Event) : List Event :=
  (r.function.watchedLiveness r.settings (.recorder r.mask) events).2

theorem record_eq_append (r : WatchedRun) (events : List Event) : r.record events = events ++ r.record [] := by
  simp only [record, Function.watchedLiveness_recorder, List.nil_append]

/-- What a recorder has after one run after the other. -/
def recordAll (runs : List WatchedRun) (events : List Event) : List Event :=
  runs.foldl (fun events r => r.record events) events

theorem recordAll_eq_append : ∀ (runs : List WatchedRun) (events : List Event),
    recordAll runs events = events ++ runs.flatMap fun r => r.record []
  | [], events => by simp [recordAll]
  | r :: runs, events => by
    have ih := recordAll_eq_append runs (r.record events)
    rw [List.flatMap_cons, ← List.append_assoc, ← record_eq_append]
    exact ih

end WatchedRun

namespace Function

/-- **Recordings.** A recorder gets the whole trace of a run, without the kinds that its mask leaves out,
and the result is that of a run nobody watches. A run by the queue has no snapshots in its trace. A run by
sweeps has one for each sweep: they climb from nothing to the result, a sweep says that it changed
something exactly if it did, and only the last says that it did not. Runs that share a recorder leave
what each would have left alone, one after the other. -/
theorem recorded_trace (f : Function) (c : Settings) :
    (∃ snapshots : List (Snapshot f.blockCount),
      (∀ mask events, f.watchedLiveness c (.recorder mask) events =
        (f.liveness c, events ++ (f.trace c snapshots).filter mask.has)) ∧
      snapshots.length = (f.liveness c).stats.sweeps ∧ (c.strategy = .worklist → snapshots = []) ∧
      (c.strategy = .roundRobin →
        Snapshot.History snapshots ⟨(f.liveness c).liveIn, (f.liveness c).liveOut⟩)) ∧
    ∀ (runs : List WatchedRun) (events : List Event), WatchedRun.recordAll runs events =
      events ++ runs.flatMap fun r => (r.function.watchedLiveness r.settings (.recorder r.mask) []).2 := by
  refine ⟨⟨(f.solve c).snapshots, f.watchedLiveness_recorder c, f.length_snapshots c, fun h => ?_, fun h => ?_⟩,
    WatchedRun.recordAll_eq_append⟩
  · simp only [solve, h]
    rfl
  · exact f.history_snapshots h

theorem recorded_trace_ring : ∃ f, Sample.ring 2 = .ok f ∧ ∃ snapshots : List (Snapshot f.blockCount),
    (f.watchedLiveness .default (.recorder .sweepOnly) []).2 =
        (f.trace .default snapshots).filter Mask.sweepOnly.has ∧
      Snapshot.History snapshots ⟨(f.liveness .default).liveIn, (f.liveness .default).liveOut⟩ := by
  refine ⟨_, rfl, ?_⟩
  obtain ⟨⟨snapshots, hrecorded, _, _, hhistory⟩, _⟩ := recorded_trace _ .default
  exact ⟨snapshots, congrArg Prod.snd (hrecorded .sweepOnly []), hhistory rfl⟩

end Function

end LiveVars
