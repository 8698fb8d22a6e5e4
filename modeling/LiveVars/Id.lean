/-
Names for the values and the blocks of a function. Both are positions in 32 bits: a
value id points into the table of declared values, a block id into the block layout.
A function therefore has at most `idLimit` values and as many blocks.
-/
namespace LiveVars

/-- How many ids there are of each kind. -/
def idLimit : Nat := UInt32.size

/-- Names a value by its position in the table of declared values. -/
structure ValueId where
  bits : UInt32
deriving DecidableEq

/-- Names a block by its position in the layout. -/
structure BlockId where
  bits : UInt32
deriving DecidableEq

namespace ValueId

def index (v : ValueId) : Nat := v.bits.toNat

def ofIndex (i : Nat) : ValueId := ⟨UInt32.ofNat i⟩

instance : Inhabited ValueId := ⟨ofIndex 0⟩

instance : LT ValueId := ⟨fun v w => v.bits < w.bits⟩

instance (v w : ValueId) : Decidable (v < w) := inferInstanceAs (Decidable (v.bits < w.bits))

theorem lt_def {v w : ValueId} : v < w ↔ v.index < w.index := UInt32.lt_iff_toNat_lt

theorem index_lt (v : ValueId) : v.index < idLimit := v.bits.toNat_lt_size

theorem index_ofIndex {i : Nat} (h : i < idLimit) : (ofIndex i).index = i :=
  UInt32.toNat_ofNat_of_lt h

theorem eq_of_index_eq {v w : ValueId} (h : v.index = w.index) : v = w := by
  cases v
  cases w
  exact congrArg mk (UInt32.toNat_inj.mp h)

theorem lt_irrefl (v : ValueId) : ¬ v < v := by rw [lt_def]; omega

theorem lt_trans {u v w : ValueId} (h : u < v) (h' : v < w) : u < w := by
  rw [lt_def] at h h' ⊢; omega

theorem lt_asymm {v w : ValueId} (h : v < w) : ¬ w < v := by rw [lt_def] at h ⊢; omega

theorem eq_of_not_lt {v w : ValueId} (h : ¬ v < w) (h' : ¬ w < v) : v = w := by
  rw [lt_def] at h h'
  exact eq_of_index_eq (by omega)

end ValueId

namespace BlockId

def index (b : BlockId) : Nat := b.bits.toNat

def ofIndex (i : Nat) : BlockId := ⟨UInt32.ofNat i⟩

instance : Inhabited BlockId := ⟨ofIndex 0⟩

theorem index_lt (b : BlockId) : b.index < idLimit := b.bits.toNat_lt_size

theorem index_ofIndex {i : Nat} (h : i < idLimit) : (ofIndex i).index = i :=
  UInt32.toNat_ofNat_of_lt h

theorem eq_of_index_eq {b c : BlockId} (h : b.index = c.index) : b = c := by
  cases b
  cases c
  exact congrArg mk (UInt32.toNat_inj.mp h)

theorem ofIndex_index (b : BlockId) : ofIndex b.index = b := eq_of_index_eq (index_ofIndex b.index_lt)

theorem eq_ofIndex_iff {b : BlockId} {i : Nat} (h : i < idLimit) : b = ofIndex i ↔ b.index = i := by
  refine ⟨fun hb => ?_, fun hi => ?_⟩
  · rw [hb, index_ofIndex h]
  · rw [← hi, ofIndex_index]

theorem exists_index_eq {i : Nat} (h : i < idLimit) : ∃ b : BlockId, b.index = i := ⟨ofIndex i, index_ofIndex h⟩

end BlockId

end LiveVars
