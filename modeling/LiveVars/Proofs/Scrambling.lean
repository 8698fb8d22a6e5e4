/-
States of the generator over any calls. Every call moves the state by one `scramble`, also a
call that has no answer, so the state after some calls depends on how many there were and not
on what they asked for.

A scramble loses nothing. Three times it adds to a word the word shifted, and a bit of the
shifted word comes from a place that is dealt with earlier: a lower place if the shift is to
the left, a higher one if it is to the right. So the word can be told from the sum, bit by bit
(`injective_xor_of_earlier`). Different states therefore stay different, and since 0 is
scrambled to 0, no other state is. Nor is any other state scrambled to itself
(`scramble_fixed`).
-/
import LiveVars.Sample.Generator
import Mathlib.Logic.Function.Iterate

namespace LiveVars

/-! ## A word and its shift -/

section

variable {w k : Nat}

/-- A word can be told from its sum with `shift` of it if there is an order of the bits in which each bit of
the shift depends on earlier bits of the word alone. -/
theorem injective_xor_of_earlier {shift : BitVec w → BitVec w} (rank : Nat → Nat)
    (h : ∀ (x y : BitVec w) (i : Nat), i < w →
      (∀ j, rank j < rank i → x.getLsbD j = y.getLsbD j) → (shift x).getLsbD i = (shift y).getLsbD i) :
    Function.Injective fun x => x ^^^ shift x := by
  intro x y hsum
  refine BitVec.eq_of_getLsbD_eq fun i hi => ?_
  -- from a bit to the earlier ones, which decide what was added to it
  induction i using (measure rank).wf.induction with
  | _ i ih =>
    have hearlier : ∀ j, rank j < rank i → x.getLsbD j = y.getLsbD j := by
      intro j hj
      by_cases hjw : j < w
      · exact ih j hj hjw
      · simp [BitVec.getLsbD_of_ge _ _ (Nat.le_of_not_lt hjw)]
    have hshift : (shift x).getLsbD i = (shift y).getLsbD i := h x y i hi hearlier
    have hbit := congrArg (fun z : BitVec w => z.getLsbD i) hsum
    simp only [BitVec.getLsbD_xor, hshift] at hbit
    exact Bool.xor_left_inj.mp hbit

theorem injective_xor_shiftLeft (hk : 0 < k) : Function.Injective fun x : BitVec w => x ^^^ (x <<< k) := by
  refine injective_xor_of_earlier id fun x y i _ hearlier => ?_
  rw [BitVec.getLsbD_shiftLeft, BitVec.getLsbD_shiftLeft]
  by_cases hik : i < k
  · simp [hik]
  · have hlower : i - k < i := by omega
    rw [hearlier (i - k) hlower]

theorem injective_xor_ushiftRight (hk : 0 < k) : Function.Injective fun x : BitVec w => x ^^^ (x >>> k) := by
  refine injective_xor_of_earlier (w - ·) fun x y i hi hearlier => ?_
  rw [BitVec.getLsbD_ushiftRight, BitVec.getLsbD_ushiftRight]
  have hhigher : w - (k + i) < w - i := by omega
  exact hearlier (k + i) hhigher

end

namespace Generator

/-! ## One scramble -/

/-- Words are shifted by an amount modulo their width; any but 0 will do. -/
theorem injective_word_xor_shiftLeft {k : UInt64} (hk : 0 < (k.toBitVec % 64).toNat) :
    Function.Injective fun x : UInt64 => x ^^^ (x <<< k) := by
  intro x y h
  have hbits := congrArg UInt64.toBitVec h
  simp only [UInt64.toBitVec_xor, UInt64.toBitVec_shiftLeft, BitVec.shiftLeft_eq'] at hbits
  exact UInt64.toBitVec_inj.mp (injective_xor_shiftLeft hk hbits)

theorem injective_word_xor_shiftRight {k : UInt64} (hk : 0 < (k.toBitVec % 64).toNat) :
    Function.Injective fun x : UInt64 => x ^^^ (x >>> k) := by
  intro x y h
  have hbits := congrArg UInt64.toBitVec h
  simp only [UInt64.toBitVec_xor, UInt64.toBitVec_shiftRight, BitVec.ushiftRight_eq'] at hbits
  exact UInt64.toBitVec_inj.mp (injective_xor_ushiftRight hk hbits)

theorem injective_scramble : Function.Injective scramble := by
  have hfirst := injective_word_xor_shiftLeft (k := 13) (by decide)
  have hsecond := injective_word_xor_shiftRight (k := 7) (by decide)
  have hthird := injective_word_xor_shiftLeft (k := 17) (by decide)
  exact hthird.comp (hsecond.comp hfirst)

theorem scramble_ne_zero {x : UInt64} (h : x ≠ 0) : scramble x ≠ 0 := by
  have hzero : scramble 0 = 0 := by decide
  intro hx
  exact h (injective_scramble (hx.trans hzero.symm))

theorem state_ofSeed_ne_zero (seed : UInt64) : (ofSeed seed).state ≠ 0 := by
  unfold ofSeed
  split
  · decide
  · assumption

/-! ## Words that stay as they are

Suppose that a scramble gives back the word it was given, and let `z` be the word before the last shift. The
two shifts to the left have then added `spread z` to it, and the shift to the right has taken the same away.
So every bit of `z` but the seven lowest is settled by lower bits, and `z` regrows from those seven. -/

def spread (z : BitVec 64) : BitVec 64 := z <<< 13 ^^^ z <<< 17 ^^^ z <<< 30

/-- The word with the lowest bits `low`, and above them the bits that `z` calls for. -/
def regrow (low : BitVec 7) (z : BitVec 64) : BitVec 64 := low.setWidth 64 ^^^ (spread z ^^^ spread z <<< 7)

/-- The bits of a spread are settled by lower bits of the word. -/
theorem getLsbD_spread_congr {a b : BitVec 64} {m : Nat} (h : ∀ i < m, a.getLsbD i = b.getLsbD i) :
    ∀ i < m + 13, (spread a).getLsbD i = (spread b).getLsbD i := by
  intro i hi
  have hshift : ∀ k, 13 ≤ k → (a <<< k).getLsbD i = (b <<< k).getLsbD i := by
    intro k hk
    rw [BitVec.getLsbD_shiftLeft, BitVec.getLsbD_shiftLeft]
    by_cases hik : i < k
    · simp [hik]
    · rw [h (i - k) (by omega)]
  simp only [spread, BitVec.getLsbD_xor, hshift 13 (by omega), hshift 17 (by omega), hshift 30 (by omega)]

theorem getLsbD_regrow_congr {low : BitVec 7} {a b : BitVec 64} {m : Nat} (h : ∀ i < m, a.getLsbD i = b.getLsbD i) :
    ∀ i < m + 13, (regrow low a).getLsbD i = (regrow low b).getLsbD i := by
  intro i hi
  have hspread := getLsbD_spread_congr h
  simp only [regrow, BitVec.getLsbD_xor, BitVec.getLsbD_shiftLeft, hspread i hi, hspread (i - 7) (by omega)]

/-- A word that regrows from its lowest bits is found by growing it from nothing. -/
theorem eq_iterate_regrow {low : BitVec 7} {z : BitVec 64} (h : regrow low z = z) : z = (regrow low)^[5] 0 := by
  have hgrown : ∀ k, ∀ i < 13 * k, z.getLsbD i = ((regrow low)^[k] 0).getLsbD i := by
    intro k
    induction k with
    | zero => simp
    | succ k ih =>
      intro i hi
      rw [Function.iterate_succ_apply', ← getLsbD_regrow_congr ih i hi, h]
  exact BitVec.eq_of_getLsbD_eq fun i hi => hgrown 5 i (by omega)

theorem regrow_setWidth {z : BitVec 64} (h : (z ^^^ spread z) >>> 7 = spread z) : regrow (z.setWidth 7) z = z := by
  refine BitVec.eq_of_getLsbD_eq fun i hi => ?_
  have hbit := congrArg (fun w : BitVec 64 => w.getLsbD (i - 7)) h
  have hnone : i < 13 → (spread z).getLsbD i = false := fun hlow =>
    (getLsbD_spread_congr (b := 0) (m := 0) (by simp) i (by omega)).trans (by simp [spread])
  simp only [BitVec.getLsbD_ushiftRight, BitVec.getLsbD_xor] at hbit
  simp only [regrow, BitVec.getLsbD_xor, BitVec.getLsbD_shiftLeft, BitVec.getLsbD_setWidth, hi, decide_true,
    Bool.true_and]
  by_cases hlow : i < 7
  · simp only [hlow, hnone (by omega), decide_true, Bool.true_and, Bool.not_true, Bool.false_and, Bool.xor_false]
  · rw [show 7 + (i - 7) = i by omega] at hbit
    simp only [hlow, ← hbit, decide_false, Bool.not_false, Bool.true_and, Bool.false_and, Bool.false_xor]
    rw [Bool.xor_comm, Bool.xor_assoc, Bool.xor_self, Bool.xor_false]

/-- What grows from bits that are not all zero has a spread that reaches into the seven highest bits; a word
shifted to the right has nothing there. -/
theorem iterate_regrow_eq_zero :
    ∀ low : BitVec 7, spread ((regrow low)^[5] 0) >>> 57 = 0 → (regrow low)^[5] 0 = 0 := by
  decide +kernel

theorem spread_fixed {z : BitVec 64} (h : (z ^^^ spread z) >>> 7 = spread z) : z = 0 := by
  have hz := eq_iterate_regrow (regrow_setWidth h)
  have htop : spread z >>> 57 = 0 := by
    rw [← h, ← BitVec.shiftRight_add]
    exact BitVec.ushiftRight_eq_zero (by decide)
  rw [hz] at htop ⊢
  exact iterate_regrow_eq_zero _ htop

/-- Only 0 is scrambled to itself. -/
theorem scramble_fixed {x : UInt64} (h : scramble x = x) : x = 0 := by
  obtain ⟨y, hy⟩ : ∃ y, y = x.toBitVec ^^^ x.toBitVec <<< 13 := ⟨_, rfl⟩
  obtain ⟨z, hz⟩ : ∃ z, z = y ^^^ y >>> 7 := ⟨_, rfl⟩
  have hx : z ^^^ z <<< 17 = x.toBitVec := by
    subst hz hy
    exact congrArg UInt64.toBitVec h
  have hspread : y = z ^^^ spread z := by
    rw [hy, ← hx, BitVec.shiftLeft_xor_distrib, ← BitVec.shiftLeft_add z 17 13, spread]
    generalize z <<< 13 = a, z <<< 17 = b, z <<< (17 + 13) = c
    ac_rfl
  have hfixed : (z ^^^ spread z) >>> 7 = spread z := by
    have hsum : y >>> 7 = y ^^^ z := by rw [hz, ← BitVec.xor_assoc, BitVec.xor_self, BitVec.zero_xor]
    rw [← hspread, hsum, hspread, BitVec.xor_comm z, BitVec.xor_assoc, BitVec.xor_self, BitVec.xor_zero]
  rw [spread_fixed hfixed] at hx
  exact UInt64.toBitVec_inj.mp (hx.symm.trans (by decide))

/-! ## Calls -/

/-- What can be asked of a generator. -/
inductive Call where
  | next
  | below (bound : Nat)
  | oneIn (n : Nat)

/-- What a generator says to a call. -/
inductive Reply where
  | word (x : UInt64)
  | number (answer : Except DrawError Nat)
  | truth (answer : Except DrawError Bool)

def call (g : Generator) : Call → Reply × Generator
  | .next => (.word g.next.1, g.next.2)
  | .below bound => (.number (g.below bound).1, (g.below bound).2)
  | .oneIn n => (.truth (g.oneIn n).1, (g.oneIn n).2)

/-- The generator after calls made in turn. -/
def after (g : Generator) (calls : List Call) : Generator := calls.foldl (fun g c => (g.call c).2) g

/-- The replies to calls made in turn. -/
def replies : Generator → List Call → List Reply
  | _, [] => []
  | g, c :: calls => (g.call c).1 :: replies (g.call c).2 calls

/-- Whatever the call and whether or not it has an answer, the state moves on by one scramble. -/
theorem state_call (g : Generator) (c : Call) : (g.call c).2.state = scramble g.state := by
  cases c <;> rfl

theorem state_after : ∀ (calls : List Call) (g : Generator),
    (g.after calls).state = scramble^[calls.length] g.state
  | [], _ => rfl
  | c :: calls, g => by
    have hrest := state_after calls (g.call c).2
    rw [state_call] at hrest
    exact hrest

/-- Different states stay different, whatever the two generators are asked, as long as it is equally often. -/
theorem after_ne {g g' : Generator} (hne : g ≠ g') {calls calls' : List Call}
    (hlen : calls.length = calls'.length) : g.after calls ≠ g'.after calls' := by
  intro h
  have hstates := congrArg state h
  rw [state_after, state_after, hlen] at hstates
  exact hne (congrArg mk (injective_scramble.iterate _ hstates))

theorem call_ne_zero {g : Generator} (h : g.state ≠ 0) (c : Call) :
    (g.call c).1 ≠ .word 0 ∧ (g.call c).2.state ≠ 0 := by
  have hmoved : scramble g.state ≠ 0 := scramble_ne_zero h
  refine ⟨?_, by rw [state_call]; exact hmoved⟩
  cases c with
  | next => exact fun hreply => hmoved (Reply.word.inj hreply)
  | below bound => simp [call]
  | oneIn n => simp [call]

theorem replies_ne_zero : ∀ (calls : List Call) {g : Generator}, g.state ≠ 0 →
    ¬ Reply.word 0 ∈ g.replies calls ∧ (g.after calls).state ≠ 0
  | [], _, h => ⟨by simp [replies], h⟩
  | c :: calls, g, h => by
    obtain ⟨hreply, hmoved⟩ := call_ne_zero h c
    obtain ⟨hrest, hend⟩ := replies_ne_zero calls hmoved
    refine ⟨fun hmem => ?_, hend⟩
    rcases List.mem_cons.mp hmem with heq | hmem
    · exact hreply heq.symm
    · exact hrest hmem

/-- **One scramble for each call.** Any call moves any generator by one scramble. Scrambling is injective on
all states, and leaves none but 0 as it is. So from any seed the state after some calls is scrambled as often as
there were calls; it is never 0, and no call for a word is answered with 0. Two generators in different states
are in different states after equally many calls, whatever each was asked. -/
theorem scramble_per_call (seed : UInt64) (calls : List Call) :
    let seeded := ofSeed seed
    (∀ (g : Generator) (c : Call), (g.call c).2.state = scramble g.state) ∧ Function.Injective scramble ∧
      (∀ x, scramble x = x ↔ x = 0) ∧
      (seeded.after calls).state = scramble^[calls.length] seeded.state ∧ (seeded.after calls).state ≠ 0 ∧
      ¬ Reply.word 0 ∈ seeded.replies calls ∧
      ∀ (g g' : Generator) (calls' : List Call), calls.length = calls'.length → g ≠ g' →
        g.after calls ≠ g'.after calls' := by
  intro seeded
  obtain ⟨hreplies, hend⟩ := replies_ne_zero calls (state_ofSeed_ne_zero seed)
  have hstays : ∀ x, scramble x = x ↔ x = 0 := fun x => ⟨scramble_fixed, fun hx => hx ▸ by decide⟩
  refine ⟨state_call, injective_scramble, hstays, state_after calls seeded, hend, hreplies, ?_⟩
  intro g g' calls' hlen hne
  exact after_ne hne hlen

/-- Two generators that are asked different things, among them for numbers below 0. -/
theorem scramble_per_call_emptyRanges : ([.below 0, .next, .oneIn 0] : List Call).length = 3 ∧
    ([.next, .below 7, .below 0] : List Call).length = 3 ∧ ofSeed 1 ≠ ofSeed 2 ∧
    ((ofSeed 1).call (.below 0)).1 = .number (.error .emptyRange) ∧
    (ofSeed 1).after [.below 0, .next, .oneIn 0] ≠ (ofSeed 2).after [.next, .below 7, .below 0] := by
  have hne : ofSeed 1 ≠ ofSeed 2 := by decide
  obtain ⟨-, -, -, -, -, -, hstay⟩ := scramble_per_call 1 [.below 0, .next, .oneIn 0]
  exact ⟨rfl, rfl, hne, rfl, hstay _ _ _ rfl hne⟩

end Generator

end LiveVars
