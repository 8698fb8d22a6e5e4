/-
Why a draft is not a function. A fault names the place; `Fault.message` is the
only text.
-/
import LiveVars.Id

namespace LiveVars

/-- A reason to refuse a draft, with the place where it shows. -/
inductive Fault where
  /-- There is no block. -/
  | noBlocks
  /-- The entry is not a block. -/
  | entryMissing (entry : BlockId)
  /-- An edit was addressed to a block that did not exist. -/
  | unknownBlock (block : BlockId)
  /-- An edge leads to no block. -/
  | successorMissing (block succ : BlockId)
  /-- An instruction names a value that was not declared. -/
  | undeclaredValue (block : BlockId) (instr : Nat) (value : ValueId)
  /-- A terminator stands before the end of its block. -/
  | terminatorInside (block : BlockId) (instr : Nat)
  /-- A branch has nowhere to go. -/
  | targetsMissing (block : BlockId) (instr : Nat)
  /-- The value ids are used up. -/
  | tooManyValues
  /-- The block ids are used up. -/
  | tooManyBlocks
deriving DecidableEq

def Fault.message : Fault → String
  | noBlocks => "function has no blocks"
  | entryMissing e => s!"bad entry block: block={e.index}"
  | unknownBlock b => s!"reference to unknown block: block={b.index}"
  | successorMissing b s => s!"dangling successor: block={b.index} succ={s.index}"
  | undeclaredValue b i v => s!"undefined value: block={b.index} instr={i} value={v.index}"
  | terminatorInside b i => s!"terminator is not the last instruction: block={b.index} instr={i}"
  | targetsMissing b i => s!"branch without targets: block={b.index} instr={i}"
  | tooManyValues => "too many values for a 32-bit value id"
  | tooManyBlocks => "too many blocks for a 32-bit block id"

end LiveVars
