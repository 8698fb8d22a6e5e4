/-
A function is the projection of the edits that built it (`Listing.Projects`). Its tables
list what the edits declare and add, in order and under the ids they replied with; its
blocks have the instructions and the targets of the edits to them.

A block takes no notice of edits to other blocks. The one thing that edits share is the
counter of values, and declarations number themselves (`Draft.filter_declaresValue_log`). So
the order of the declarations counts, and the order of the edits to each block; how edits to
different blocks lie among each other does not.
-/
import LiveVars.Proofs.EditLog

namespace LiveVars

namespace Draft

open Edit

variable {e : Edit} {name : String} {edits : List Edit}

/-! ## The order of the edits -/

theorem reply_of_declaresValue (h : e.declaresValue = true) (values blocks : Nat) :
    e.reply values blocks = .value (.ofIndex values) := by
  cases e with
  | declare | define => rfl
  | addBlock | setEntry | push | finish => cases h

/-- The declarations number themselves. -/
theorem filter_declaresValue_log (h : (ofEdits name edits).fault = none) :
    (log name edits).filter (·.1.declaresValue) =
      (edits.filter declaresValue).zipIdx.map fun c => (c.1, .value (.ofIndex c.2)) := by
  induction edits using List.reverseRecOn with
  | nil => rfl
  | append_singleton edits e ih =>
    rw [ofEdits_concat] at h
    have hbefore := fault_of_apply h
    rw [log_concat, List.filter_append, List.filter_append, ih hbefore]
    cases hd : e.declaresValue with
    | false => simp [hd]
    | true =>
      have hsize := size_values_ofEdits (room_ofEdits hbefore)
      rw [valuesDeclared, List.countP_eq_length_filter] at hsize
      rw [reply_apply h, reply_of_declaresValue hd, hsize, List.zipIdx_append]
      simp [hd]

theorem reply_of_mem_log (h : (ofEdits name edits).fault = none) {c : Edit × Reply} (hc : c ∈ log name edits)
    {b : BlockId} (hb : c.1.block? = some b) (hd : c.1.declaresValue = false) : c.2 = .done := by
  obtain ⟨j, hj⟩ := List.getElem?_of_mem hc
  have he : edits[j]? = some c.1 := by
    rw [← map_fst_log name edits, List.getElem?_map, hj]
    rfl
  rw [getElem?_log h he, Option.some.injEq] at hj
  rw [← hj]
  cases hcase : c.1 with
  | setEntry | push | finish => rfl
  | declare | define => rw [hcase] at hd; cases hd
  | addBlock => rw [hcase] at hb; cases hb

/-- Pairs are told by their first components, if those that `p` singles out are given as pairs and all others
have one and the same second component. -/
theorem eq_of_map_fst {α β : Type} {p : α → Bool} {z : β} : ∀ {xs ys : List (α × β)},
    xs.map Prod.fst = ys.map Prod.fst → xs.filter (p ·.1) = ys.filter (p ·.1) →
    (∀ x ∈ xs, p x.1 = false → x.2 = z) → (∀ y ∈ ys, p y.1 = false → y.2 = z) → xs = ys
  | [], [], _, _, _, _ => rfl
  | [], _ :: _, h, _, _, _ => by simp at h
  | _ :: _, [], h, _, _, _ => by simp at h
  | (a, b) :: xs, (a', b') :: ys, hfst, hp, hx, hy => by
    simp only [List.map_cons, List.cons.injEq] at hfst
    obtain ⟨rfl, hfst⟩ := hfst
    have hsame : b = b' ∧ xs.filter (p ·.1) = ys.filter (p ·.1) := by
      cases ha : p a with
      | false =>
        have hb : b = z := hx (a, b) (by simp) ha
        have hb' : b' = z := hy (a, b') (by simp) ha
        exact ⟨hb.trans hb'.symm, by simpa [List.filter_cons, ha] using hp⟩
      | true => simpa [List.filter_cons, ha] using hp
    obtain ⟨rfl, hrest⟩ := hsame
    rw [eq_of_map_fst hfst hrest (fun x hm => hx x (by simp [hm])) fun y hm => hy y (by simp [hm])]

/-- What is added to a block depends on the edits to it and on the declarations, not on how they lie. -/
theorem parts_log_eq {edits' : List Edit} (h : (ofEdits name edits).fault = none)
    (h' : (ofEdits name edits').fault = none)
    (hdeclared : edits.filter declaresValue = edits'.filter declaresValue) {b : BlockId}
    (hb : edits.filter (writesTo b) = edits'.filter (writesTo b)) :
    parts (log name edits) b = parts (log name edits') b := by
  have hedits : ∀ es : List Edit,
      ((log name es).filter (·.1.writesTo b)).map Prod.fst = es.filter (writesTo b) := by
    intro es
    have hmap := List.filter_map (p := writesTo b) (f := Prod.fst) (l := log name es)
    rw [map_fst_log] at hmap
    exact hmap.symm
  have hdone : ∀ {es : List Edit}, (ofEdits name es).fault = none →
      ∀ c ∈ (log name es).filter (·.1.writesTo b), c.1.declaresValue = false → c.2 = .done := by
    intro es hes c hc hd
    obtain ⟨hc, hw⟩ := List.mem_filter.mp hc
    exact reply_of_mem_log hes hc (writesTo_iff.mp hw) hd
  have hcalls : (log name edits).filter (·.1.writesTo b) = (log name edits').filter (·.1.writesTo b) := by
    refine eq_of_map_fst (p := declaresValue) (z := .done) ?_ ?_ (hdone h) (hdone h')
    · rw [hedits, hedits, hb]
    · rw [List.filter_filter, List.filter_filter]
      simp only [Bool.and_comm (declaresValue _)]
      rw [← List.filter_filter, ← List.filter_filter, filter_declaresValue_log h, filter_declaresValue_log h',
        hdeclared]
  rw [parts, parts, hcalls]

end Draft

/-! ## The projection -/

/-- The listing is what the edits say and nothing else. Edit `j` declares the value whose id is the number of
declarations before it, and likewise for blocks. A block has the parts of the edits to it, in their order: all
their instructions, and of their targets each where it is first named. -/
structure Listing.Projects (l : Listing) (name : String) (edits : List Edit) : Prop where
  named : l.name = name
  entry : l.entry = Edit.chosenEntry edits
  values : l.values.toList = edits.filterMap Edit.declared?
  blockNames : l.blocks.toList.map Block.name = edits.filterMap Edit.added?
  valueIds : ∀ j e, edits[j]? = some e → e.declaresValue = true → ∃ v : ValueId,
    (Draft.log name edits)[j]? = some (e, .value v) ∧ v.index = Edit.valuesDeclared (edits.take j) ∧
      l.values[v.index]? = e.declared?
  blockIds : ∀ j e, edits[j]? = some e → e.addsBlock = true → ∃ b : BlockId,
    (Draft.log name edits)[j]? = some (e, .block b) ∧ b.index = Edit.blocksAdded (edits.take j) ∧
      l.blocks[b.index]?.map Block.name = e.added?
  instrs : ∀ (id : BlockId) b, l.blocks[id.index]? = some b →
    b.instrs = (Edit.parts (Draft.log name edits) id).map Edit.Part.instr
  succs : ∀ (id : BlockId) b, l.blocks[id.index]? = some b →
    b.succs = ((Edit.parts (Draft.log name edits) id).flatMap Edit.Part.targets).eraseDups

theorem Function.eq_of_toListing {f g : Function} (h : f.toListing = g.toListing) : f = g := by
  cases f
  cases g
  cases h
  rfl

/-- In a list of what the members of another give, the place of what one gives is told by those before it. -/
theorem getElem?_filterMap_take {α β : Type} {f : α → Option β} {xs : List α} {j : Nat} {x : α} {y : β}
    (hx : xs[j]? = some x) (hy : f x = some y) :
    (xs.filterMap f)[((xs.take j).filterMap f).length]? = some y := by
  obtain ⟨hj, rfl⟩ := List.getElem?_eq_some_iff.mp hx
  have hsplit : xs = xs.take j ++ xs[j] :: xs.drop (j + 1) := by
    rw [List.getElem_cons_drop, List.take_append_drop]
  have hmap : xs.filterMap f = (xs.take j).filterMap f ++ y :: (xs.drop (j + 1)).filterMap f := by
    conv => lhs; rw [hsplit, List.filterMap_append, List.filterMap_cons_some hy]
  rw [hmap, List.getElem?_append_right (Nat.le_refl _), Nat.sub_self]
  rfl

namespace Draft

open Edit

section OfEdits

variable {name : String} {edits : List Edit} {e : Edit} {j : Nat} (h : (ofEdits name edits).fault = none)
include h

theorem values_ofEdits : (ofEdits name edits).values.toList = edits.filterMap declared? := by
  rw [(mirrors_ofEdits h).values, filterMap_log]

theorem map_name_blocks_ofEdits :
    (ofEdits name edits).blocks.toList.map Block.name = edits.filterMap added? := by
  rw [(mirrors_ofEdits h).map_name_blocks (within_ofEdits name edits), filterMap_log]

theorem exists_value_of_declares (he : edits[j]? = some e) (hd : e.declaresValue = true) : ∃ v : ValueId,
    (log name edits)[j]? = some (e, .value v) ∧ v.index = valuesDeclared (edits.take j) ∧
      (ofEdits name edits).values[v.index]? = e.declared? := by
  obtain ⟨value, hvalue⟩ : ∃ value, e.declared? = some value := by
    cases e with
    | declare value | define _ _ _ value => exact ⟨value, rfl⟩
    | addBlock | setEntry | push | finish => cases hd
  have hplace := getElem?_filterMap_take he hvalue
  rw [length_filterMap_declared, ← values_ofEdits h, Array.getElem?_toList] at hplace
  have hlt := (Array.getElem?_eq_some_iff.mp hplace).1
  have hindex := ValueId.index_ofIndex (Nat.lt_of_lt_of_le hlt (within_ofEdits name edits).values)
  refine ⟨.ofIndex (valuesDeclared (edits.take j)), ?_, hindex, ?_⟩
  · rw [getElem?_log h he, reply_of_declaresValue hd]
  · rw [hindex, hvalue]
    exact hplace

theorem exists_block_of_adds (he : edits[j]? = some e) (ha : e.addsBlock = true) : ∃ b : BlockId,
    (log name edits)[j]? = some (e, .block b) ∧ b.index = blocksAdded (edits.take j) ∧
      (ofEdits name edits).blocks[b.index]?.map Block.name = e.added? := by
  obtain ⟨block, rfl⟩ : ∃ block, e = .addBlock block := by
    cases e with
    | addBlock block => exact ⟨block, rfl⟩
    | declare | setEntry | push | define | finish => cases ha
  have hplace := getElem?_filterMap_take he (f := added?) rfl
  rw [length_filterMap_added, ← map_name_blocks_ofEdits h, List.getElem?_map, Array.getElem?_toList] at hplace
  obtain ⟨b, hb, _⟩ := Option.map_eq_some_iff.mp hplace
  have hlt := (Array.getElem?_eq_some_iff.mp hb).1
  have hindex := BlockId.index_ofIndex (Nat.lt_of_lt_of_le hlt (within_ofEdits name edits).blocks)
  refine ⟨.ofIndex (blocksAdded (edits.take j)), getElem?_log h he, hindex, ?_⟩
  rw [hindex]
  exact hplace

theorem projects_listing : (ofEdits name edits).listing.Projects name edits where
  named := name_run edits _
  entry := entry_ofEdits (room_ofEdits h)
  values := values_ofEdits h
  blockNames := map_name_blocks_ofEdits h
  valueIds _ _ he hd := exists_value_of_declares h he hd
  blockIds _ _ he ha := exists_block_of_adds h he ha
  instrs _ _ hb := (instrs_succs_ofEdits h hb).1
  succs _ _ hb := (instrs_succs_ofEdits h hb).2

/-- Drafts are told apart by what is declared, what is added, the entry and the parts of each block. -/
theorem listing_eq {edits' : List Edit} (h' : (ofEdits name edits').fault = none)
    (hdeclared : edits.filterMap declared? = edits'.filterMap declared?)
    (hadded : edits.filterMap added? = edits'.filterMap added?) (hentry : chosenEntry edits = chosenEntry edits')
    (hparts : ∀ b, parts (log name edits) b = parts (log name edits') b) :
    (ofEdits name edits).listing = (ofEdits name edits').listing := by
  have hvalues : (ofEdits name edits).values = (ofEdits name edits').values := by
    rw [← Array.toList_inj, values_ofEdits h, values_ofEdits h', hdeclared]
  have hblocks : (ofEdits name edits).blocks = (ofEdits name edits').blocks := by
    refine (mirrors_ofEdits h).blocks_eq (mirrors_ofEdits h') (within_ofEdits ..) (within_ofEdits ..) ?_ hparts
    rw [filterMap_log, filterMap_log, hadded]
  have hentries := (projects_listing h).entry.trans (hentry.trans (projects_listing h').entry.symm)
  have hname := (projects_listing h).named.trans (projects_listing h').named.symm
  simp only [listing, Listing.mk.injEq] at hentries hname ⊢
  exact ⟨hname, hentries, hblocks, hvalues⟩

end OfEdits

/-- **Functions are projections of edits.** Whatever edits led to a function, it has the values they declare
and the blocks they add, each under the id that the edit got as its reply and that counts those before it; the
entry chosen last; and in every block the instructions and targets of the edits to that block, in order and
with repeated targets dropped. Hence the function does not depend on how edits to different blocks lie among
each other: the same declarations, blocks, entry and edits to each block make the same function. -/
theorem projection_of_build {name : String} {edits : List Edit} {f : Function}
    (hf : (ofEdits name edits).build = .ok f) :
    f.Projects name edits ∧
      ∀ edits' f', (ofEdits name edits').build = .ok f' →
        edits'.filter declaresValue = edits.filter declaresValue →
        edits'.filterMap added? = edits.filterMap added? → chosenEntry edits' = chosenEntry edits →
        (∀ b, edits'.filter (writesTo b) = edits.filter (writesTo b)) → f' = f := by
  have h := (mendable_of_build hf).fault
  refine ⟨?_, fun edits' f' hf' hdeclares hadded hentry hwrites => ?_⟩
  · rw [toListing_of_build hf]
    exact projects_listing h
  · have h' := (mendable_of_build hf').fault
    apply Function.eq_of_toListing
    rw [toListing_of_build hf, toListing_of_build hf']
    refine listing_eq h' h ?_ hadded hentry fun b => parts_log_eq h' h hdeclares (hwrites b)
    rw [← filterMap_declared_filter, hdeclares, filterMap_declared_filter]

/-- Two blocks, written one after the other. -/
def twoBlocks : List Edit :=
  [.declare "x", .addBlock "a", .addBlock "b", .define (.ofIndex 0) .add [.value (.ofIndex 0)] "y",
    .finish (.ofIndex 0) (.condBr (.value (.ofIndex 1)) (.ofIndex 1) (.ofIndex 1)),
    .effect (.ofIndex 1) .store [.value (.ofIndex 1)], .finish (.ofIndex 1) (.ret [])]

/-- The same two blocks, written by turns. -/
def twoBlocksByTurns : List Edit :=
  [.addBlock "a", .addBlock "b", .effect (.ofIndex 1) .store [.value (.ofIndex 1)], .declare "x",
    .define (.ofIndex 0) .add [.value (.ofIndex 0)] "y", .finish (.ofIndex 1) (.ret []), .setEntry (.ofIndex 0),
    .finish (.ofIndex 0) (.condBr (.value (.ofIndex 1)) (.ofIndex 1) (.ofIndex 1))]

theorem projection_of_build_twoBlocks : ∃ f f', (ofEdits "f" twoBlocks).build = .ok f ∧
    (ofEdits "f" twoBlocksByTurns).build = .ok f' ∧ f.Projects "f" twoBlocks ∧ f' = f := by
  have hf : (ofEdits "f" twoBlocks).build = .ok _ := rfl
  have hf' : (ofEdits "f" twoBlocksByTurns).build = .ok _ := rfl
  have hwrites : ∀ b, twoBlocksByTurns.filter (writesTo b) = twoBlocks.filter (writesTo b) := by
    intro b
    by_cases h0 : BlockId.ofIndex 0 = b
    · subst h0
      decide
    · by_cases h1 : BlockId.ofIndex 1 = b
      · subst h1
        decide
      · simp [twoBlocks, twoBlocksByTurns, writesTo, block?, effect, h0, h1]
  refine ⟨_, _, hf, hf', (projection_of_build hf).1, ?_⟩
  exact (projection_of_build hf).2 _ _ hf' (by decide) (by decide) (by decide) hwrites

/-- Declarations are told apart by more than the name. Two that share it get their ids by turns, so they may
not change places even if they write to different blocks. -/
example :
    let x : Edit := .define (.ofIndex 0) .copy [] "x"
    let x' : Edit := .define (.ofIndex 1) .copy [] "x"
    (ofEdits "f" [.addBlock "a", .addBlock "b", x, x']).blocks ≠
      (ofEdits "f" [.addBlock "a", .addBlock "b", x', x]).blocks := by decide

end Draft

end LiveVars
