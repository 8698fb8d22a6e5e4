/-
Random functions are made whatever the generator answers. A choice is described by what
it yields (`Draw.Yields`): from every state of the generator it has an answer, and the
answer is of the kind said. The rules for single draws and for draws one after another
bring this up from a number below a bound to the edits of a whole function, with nothing
known about the generator but that it moves on.

The edits are a script whose bodies fit, so the function is built (`Draft.build_script`).
-/
import LiveVars.Proofs.Scripts
import LiveVars.Sample.Random

namespace LiveVars

namespace Sample

namespace Draw

variable {α β : Type} {P : α → Prop} {Q : β → Prop} {n : Nat}

/-- From every state of the generator there is an answer, and it has the property. -/
def Yields (draw : Draw α) (P : α → Prop) : Prop := ∀ g, ∃ a g', draw g = .ok (a, g') ∧ P a

theorem yields_pure {a : α} (h : P a) : Yields (pure a) P := fun g => ⟨a, g, rfl, h⟩

theorem Yields.bind {draw : Draw α} {next : α → Draw β} (h : Yields draw P)
    (hnext : ∀ a, P a → Yields (next a) Q) : Yields (draw >>= next) Q := by
  intro g
  obtain ⟨a, g', hdraw, ha⟩ := h g
  obtain ⟨b, g'', hb, hQ⟩ := hnext a ha g'
  refine ⟨b, g'', ?_, hQ⟩
  show (draw g >>= fun r => next r.1 r.2) = .ok (b, g'')
  rw [hdraw]
  exact hb

theorem Yields.map {draw : Draw α} {f : α → β} (h : Yields draw P) (hf : ∀ a, P a → Q (f a)) :
    Yields (f <$> draw) Q := by
  rw [map_eq_pure_bind]
  exact h.bind fun a ha => yields_pure (hf a ha)

/-! ## Single draws -/

theorem yields_word : Yields word fun _ => True := fun _ => ⟨_, _, rfl, trivial⟩

theorem yields_below (hn : 0 < n) : Yields (below n) (· < n) := by
  intro g
  refine ⟨g.advance.state.toNat % n, g.advance, ?_, Nat.mod_lt _ hn⟩
  simp only [below, lift, Generator.below, if_neg (Nat.ne_of_gt hn)]

theorem yields_oneIn (hn : 0 < n) : Yields (oneIn n) fun _ => True := by
  intro g
  refine ⟨g.advance.state.toNat % n == 0, g.advance, ?_, trivial⟩
  simp only [oneIn, lift, Generator.oneIn, Generator.below, if_neg (Nat.ne_of_gt hn), Except.map]

theorem yields_upTo (hn : n + 1 < UInt64.size) : Yields (upTo n) (· ≤ n) := by
  rw [upTo, if_pos hn, ← bind_pure (below (n + 1))]
  exact (yields_below (Nat.succ_pos n)).bind fun k hk => yields_pure (Nat.le_of_lt_succ hk)

theorem yields_position (hn : 0 < n) : Yields (position n) (· < n) := by
  refine (yields_below hn).bind fun k hk => ?_
  rw [if_pos hk]
  exact yields_pure hk

theorem yields_among {choices : List α} (hne : choices ≠ []) : Yields (among choices) (· ∈ choices) := by
  refine (yields_below (List.length_pos_iff.mpr hne)).bind fun k hk => ?_
  rw [List.getElem?_eq_getElem hk]
  exact yields_pure (List.getElem_mem hk)

/-! ## Draws one after another -/

theorem Yields.times {draw : Draw α} (h : Yields draw P) :
    ∀ k, Yields (times k draw) fun as => as.length = k ∧ ∀ a ∈ as, P a
  | 0 => yields_pure ⟨rfl, fun _ ha => nomatch ha⟩
  | k + 1 => h.bind fun _ ha => (Yields.times h k).bind fun _ hrest =>
      yields_pure ⟨congrArg Nat.succ hrest.1, List.forall_mem_cons.mpr ⟨ha, hrest.2⟩⟩

/-- Draws for the members of a list come to a choice for every member. -/
theorem Yields.forEach {draw : α → Draw (List β)} {R : α → List β → Prop} (h : ∀ a, Yields (draw a) (R a)) :
    ∀ {as : List α}, as.Nodup →
      Yields (forEach draw as) fun bs => ∃ choice : α → List β, bs = as.flatMap choice ∧ ∀ a, R a (choice a)
  | [], _ => fun g => by
    -- nothing is drawn, so any answers will do, such as those from here
    choose choice _ _ hchoice using fun a => h a g
    exact ⟨[], g, rfl, choice, rfl, hchoice⟩
  | a :: rest, hnodup => by
    classical
    obtain ⟨hnot, hnodup⟩ := List.nodup_cons.mp hnodup
    refine (h a).bind fun here hhere => (Yields.forEach h hnodup).bind fun later hlater => ?_
    obtain ⟨choice, rfl, hchoice⟩ := hlater
    refine yields_pure ⟨Function.update choice a here, ?_, fun a' => ?_⟩
    · have hrest : rest.flatMap (Function.update choice a here) = rest.flatMap choice :=
        List.flatMap_congr fun a' ha' => Function.update_of_ne (ne_of_mem_of_not_mem ha' hnot) ..
      rw [List.flatMap_cons, Function.update_self, hrest]
    · by_cases heq : a' = a
      · subst heq
        rwa [Function.update_self]
      · rw [Function.update_of_ne heq]
        exact hchoice a'

end Draw

/-! ## Parts of a function -/

open Draw

/-- An instruction that random blocks hold before their ending. -/
structure Ordinary (values : Nat) (i : Instruction) : Prop where
  plain : i.isTerminator = false
  declared : ∀ v ∈ i.mentions, v.index < values
  args_pos : 1 ≤ i.args.length
  args_le : i.args.length ≤ 3

/-- The operand reads no value that is not declared. -/
def Readable (values : Nat) (o : Operand) : Prop := ∀ v, o = .value v → v.index < values

theorem declared_of_readable {values : Nat} {i : Instruction} (hargs : ∀ o ∈ i.args, Readable values o)
    (hresult : ∀ v, i.result = some v → v.index < values) : ∀ v ∈ i.mentions, v.index < values := by
  intro v hv
  rcases Instruction.mem_mentions.mp hv with hv | hv
  · exact hargs _ hv v rfl
  · exact hresult v hv

theorem not_terminator_of_mem_bodyOpcodes : ∀ o ∈ bodyOpcodes, o.isTerminator = false := by decide

section Parts

variable {values blocks : Nat} (hvalues : 0 < values ∧ values ≤ idLimit) (hblocks : 0 < blocks ∧ blocks ≤ idLimit)

include hvalues in
theorem yields_anyValue : Yields (anyValue values) (·.index < values) :=
  (yields_position hvalues.1).map fun k hk => by
    rwa [ValueId.index_ofIndex (Nat.lt_of_lt_of_le hk hvalues.2)]

include hblocks in
theorem yields_anyBlock : Yields (anyBlock blocks) (·.index < blocks) :=
  (yields_position hblocks.1).map fun k hk => by
    rwa [BlockId.index_ofIndex (Nat.lt_of_lt_of_le hk hblocks.2)]

include hvalues in
theorem yields_anyOperand : Yields (anyOperand values) (Readable values) := by
  have hconst : ∀ c, Readable values (.const c) := fun c v hv => nomatch hv
  have hvalue : Yields (.value <$> anyValue values) (Readable values) :=
    (yields_anyValue hvalues).map fun v hv w hw => by
      cases hw
      exact hv
  refine (yields_below (by decide)).bind fun kind _ => ?_
  split
  · exact yields_word.bind fun word _ => yields_pure (hconst _)
  · split
    · refine (yields_oneIn (by decide)).bind fun undef _ => ?_
      split
      · exact yields_pure (hconst _)
      · exact hvalue
    · exact hvalue

theorem yields_effectOnly (opcode : Opcode) : Yields (effectOnly opcode) fun _ => True := by
  unfold effectOnly
  split
  · exact yields_pure trivial
  · exact yields_oneIn (by decide)
  · exact yields_pure trivial

include hvalues in
theorem yields_anyInstruction : Yields (anyInstruction values) (Ordinary values) := by
  refine (yields_among (by decide)).bind fun opcode hopcode => ?_
  refine (yields_below (by decide)).bind fun more hmore => ?_
  refine ((yields_anyOperand hvalues).times (more + 1)).bind fun args hargs => ?_
  have hordinary : ∀ result : Option ValueId, (∀ v, result = some v → v.index < values) →
      Ordinary values ⟨opcode, args, result⟩ := fun result hresult =>
    { plain := not_terminator_of_mem_bodyOpcodes opcode hopcode
      declared := declared_of_readable hargs.2 hresult
      args_pos := by show 1 ≤ args.length; omega
      args_le := by show args.length ≤ 3; omega }
  refine (yields_effectOnly opcode).bind fun effect _ => ?_
  split
  · exact yields_pure (hordinary none fun v hv => nomatch hv)
  · refine (yields_anyValue hvalues).bind fun dest hdest => yields_pure (hordinary (some dest) ?_)
    rintro v ⟨⟩
    exact hdest

/-- The ending leads to blocks and reads values that are there. -/
def Leads (values blocks : Nat) (e : Ending) : Prop :=
  (∀ v ∈ e.instruction.mentions, v.index < values) ∧ ∀ t ∈ e.targets, t.index < blocks

include hvalues hblocks in
theorem yields_anyEnding : Yields (anyEnding values blocks) fun e? => ∀ e ∈ e?, Leads values blocks e := by
  have hblock := yields_anyBlock hblocks
  have hoperand := yields_anyOperand hvalues
  -- an ending defines nothing, so it is its operands and targets that count
  have hleads : ∀ e : Ending, (∀ o ∈ e.instruction.args, Readable values o) → (∀ t ∈ e.targets, t.index < blocks) →
      ∀ e' ∈ some e, Leads values blocks e' := by
    rintro e hargs htargets _ ⟨⟩
    refine ⟨declared_of_readable hargs fun v hv => ?_, htargets⟩
    cases e <;> cases hv
  refine (yields_below (by decide)).bind fun kind _ => ?_
  split
  · refine hoperand.bind fun value hvalue => yields_pure (hleads _ ?_ ?_)
    · exact List.forall_mem_singleton.mpr hvalue
    · exact List.forall_mem_nil _
  · refine hblock.bind fun target htarget => yields_pure (hleads _ ?_ ?_)
    · exact List.forall_mem_nil _
    · exact List.forall_mem_singleton.mpr htarget
  iterate 2
    refine hoperand.bind fun cond hcond => hblock.bind fun yes hyes => hblock.bind fun no hno =>
      yields_pure (hleads _ ?_ ?_)
    · exact List.forall_mem_singleton.mpr hcond
    · exact List.forall_mem_cons.mpr ⟨hyes, List.forall_mem_singleton.mpr hno⟩
  · refine hoperand.bind fun scrutinee hscrutinee => hblock.bind fun default hdefault =>
      hblock.bind fun zero hzero => hblock.bind fun one hone => hblock.bind fun two htwo =>
      yields_pure (hleads _ ?_ ?_)
    · simpa [Ending.instruction, Readable] using hscrutinee
    · simpa [Ending.targets] using ⟨hdefault, hzero, hone, htwo⟩
  · exact yields_pure (by simp)

/-- What a random block may hold. -/
structure Moderate (values blocks maxInstrs : Nat) (body : Body) : Prop where
  ordinary : ∀ i ∈ body.instrs, Ordinary values i
  few : body.instrs.length ≤ maxInstrs
  leads : ∀ e ∈ body.ending, Leads values blocks e

theorem Moderate.fits {maxInstrs : Nat} {body : Body} (h : Moderate values blocks maxInstrs body) :
    body.Fits values blocks where
  plain i hi := (h.ordinary i hi).plain
  declared i hi := by
    rcases Body.mem_written.mp hi with hi | ⟨e, he, rfl⟩
    · exact (h.ordinary i hi).declared
    · exact (h.leads e he).1
  targets_lt t ht := by
    obtain ⟨e, he, ht⟩ := List.mem_flatMap.mp ht
    exact (h.leads e (Option.mem_toList.mp he)).2 t ht

include hvalues hblocks in
theorem yields_anyBody {maxInstrs : Nat} (hinstrs : maxInstrs + 1 < UInt64.size) (block : BlockId) :
    Yields (anyBody values blocks maxInstrs block) fun edits =>
      ∃ body : Body, edits = body.edits block ∧ Moderate values blocks maxInstrs body := by
  refine (yields_upTo hinstrs).bind fun count hcount => ?_
  refine ((yields_anyInstruction hvalues).times count).bind fun instrs hinstrs => ?_
  refine (yields_anyEnding hvalues hblocks).bind fun ending hending => yields_pure ?_
  exact ⟨⟨instrs, ending⟩, rfl, hinstrs.2, hinstrs.1 ▸ hcount, hending⟩

include hvalues hblocks in
/-- Whatever the generator answers, the edits are a script. -/
theorem yields_anyEdits {maxInstrs : Nat} (hinstrs : maxInstrs + 1 < UInt64.size) :
    Yields (anyEdits values blocks maxInstrs) fun edits => ∃ valueNames blockNames body,
      edits = script valueNames blockNames body ∧ valueNames.length = values ∧ blockNames.length = blocks ∧
      ∀ i, Moderate values blocks maxInstrs (body i) := by
  refine (Yields.forEach (fun i => yields_anyBody hvalues hblocks hinstrs (.ofIndex i)) List.nodup_range).bind
    fun bodies hbodies => yields_pure ?_
  obtain ⟨choice, rfl, hchoice⟩ := hbodies
  choose body hbody hmoderate using hchoice
  refine ⟨(List.range values).map (s!"v{·}"), (List.range blocks).map (s!"bb{·}"), body, ?_, by simp, by simp,
    hmoderate⟩
  rw [script, List.length_map, List.length_range, List.map_map, List.map_map, ← funext hbody]
  rfl

end Parts

/-! ## The function -/

theorem isTerminator_ending (e : Ending) : e.instruction.isTerminator = true := by cases e <;> rfl

theorem mem_instrs_of_plain {body : Body} {i : Instruction} (hi : i ∈ body.written)
    (hplain : i.isTerminator = false) : i ∈ body.instrs := by
  refine (Body.mem_written.mp hi).resolve_right fun ⟨e, _, he⟩ => ?_
  rw [← he, isTerminator_ending] at hplain
  cases hplain

theorem countP_written_le (body : Body) : body.written.countP (!·.isTerminator) ≤ body.instrs.length := by
  have hending : (body.ending.map Ending.instruction).toList.countP (!·.isTerminator) = 0 := by
    cases body.ending with
    | none => rfl
    | some e => simp [isTerminator_ending]
  rw [Body.written, List.countP_append, hending]
  exact List.countP_le_length

theorem random_eq_build {seed : UInt64} {shape : Shape} {edits : List Edit} {g : Generator}
    (h : anyEdits (max shape.values 1) (max shape.blocks 1) shape.maxInstrs (.ofSeed seed) = .ok (edits, g)) :
    random seed shape = (Draft.ofEdits s!"random_{seed.toNat}" edits).build.mapError .faulty := by
  have hrun : StateT.run' (anyEdits (max shape.values 1) (max shape.blocks 1) shape.maxInstrs) (.ofSeed seed) =
      .ok edits := by
    show Prod.fst <$> anyEdits _ _ _ _ = _
    rw [h]
    rfl
  rw [random, hrun]
  rfl

/-- **Random functions are built.** Every seed and every shape of ordinary size give a function, as large as the
shape says and with instructions of the kind and number it says. -/
theorem random_builds (seed : UInt64) (shape : Shape) (hblocks : shape.blocks ≤ idLimit)
    (hvalues : shape.values ≤ idLimit) (hinstrs : shape.maxInstrs + 1 < UInt64.size) :
    ∃ f, random seed shape = .ok f ∧
      f.blockCount = max shape.blocks 1 ∧ f.valueCount = max shape.values 1 ∧ f.entry = .ofIndex 0 ∧
      ∀ b : Fin f.blockCount, (f.block b).instrs.countP (!·.isTerminator) ≤ shape.maxInstrs ∧
        ∀ i ∈ (f.block b).instrs, i.isTerminator = false → 1 ≤ i.args.length ∧ i.args.length ≤ 3 := by
  have hlimit : 1 ≤ idLimit := by decide
  have hv : 0 < max shape.values 1 ∧ max shape.values 1 ≤ idLimit := by omega
  have hb : 0 < max shape.blocks 1 ∧ max shape.blocks 1 ≤ idLimit := by omega
  obtain ⟨edits, g, hdraw, valueNames, blockNames, body, rfl, hvlen, hblen, hbody⟩ :=
    yields_anyEdits hv hb hinstrs (.ofSeed seed)
  have hfits : ∀ i < blockNames.length, (body i).Fits valueNames.length blockNames.length := fun i _ => by
    rw [hvlen, hblen]
    exact (hbody i).fits
  obtain ⟨f, hf, ht⟩ := Draft.build_script (by omega) (by omega) (by omega) s!"random_{seed.toNat}" hfits
  refine ⟨f, ?_, ?_, ?_, ht.entry, fun b => ?_⟩
  · rw [random_eq_build hdraw, hf]
    rfl
  · rw [ht.blockCount, hblen]
  · rw [ht.valueCount, hvlen]
  · rw [ht.instrs b]
    refine ⟨Nat.le_trans (countP_written_le _) (hbody b).few, fun i hi hplain => ?_⟩
    have hordinary := (hbody b).ordinary i (mem_instrs_of_plain hi hplain)
    exact ⟨hordinary.args_pos, hordinary.args_le⟩

/-- Several blocks, with a few values between them and a few instructions each. -/
def fourBlocks : Shape := ⟨4, 3, 5⟩

theorem random_builds_fourBlocks :
    (fourBlocks.blocks ≤ idLimit ∧ fourBlocks.values ≤ idLimit ∧ fourBlocks.maxInstrs + 1 < UInt64.size) ∧
      ∃ f, random 7 fourBlocks = .ok f ∧ f.blockCount = 4 ∧ f.valueCount = 3 ∧ f.entry = .ofIndex 0 ∧
        ∀ b : Fin f.blockCount, (f.block b).instrs.countP (!·.isTerminator) ≤ 5 ∧
          ∀ i ∈ (f.block b).instrs, i.isTerminator = false → 1 ≤ i.args.length ∧ i.args.length ≤ 3 :=
  ⟨by decide, random_builds 7 fourBlocks (by decide) (by decide) (by decide)⟩

end Sample

end LiveVars
