/-
Random functions: all values first, then all blocks, then block by block some
instructions and perhaps an ending, every choice drawn from one generator. The
order of the draws decides which function a seed stands for.
-/
import LiveVars.Function.Draft
import LiveVars.Sample.Generator

namespace LiveVars.Sample

/-- How large a random function is. -/
structure Shape where
  blocks : Nat
  values : Nat
  maxInstrs : Nat
deriving DecidableEq

/-- What could stop a random function from being made. -/
inductive Mishap where
  | draw (error : DrawError)
  | noSuchChoice (choices index : Nat)
  | faulty (fault : Fault)
deriving DecidableEq

/-- A choice that depends on the generator and may fail. -/
abbrev Draw := StateT Generator (Except Mishap)

namespace Draw

/-- Takes over the answer of a draw. -/
def lift {α : Type} (draw : Generator → Except DrawError α × Generator) : Draw α := fun g =>
  match draw g with
  | (.ok a, g') => .ok (a, g')
  | (.error e, _) => .error (.draw e)

def word : Draw UInt64 := fun g => .ok g.next

def below (bound : Nat) : Draw Nat := lift (·.below bound)

def oneIn (n : Nat) : Draw Bool := lift (·.oneIn n)

/-- A number up to a limit, that is, below one more, which has to be a word too. -/
def upTo (limit : Nat) : Draw Nat :=
  if limit + 1 < UInt64.size then below (limit + 1) else throw (.draw .overflow)

/-- A position in a table of the given size. -/
def position (size : Nat) : Draw Nat := do
  let k ← below size
  if k < size then pure k else throw (.noSuchChoice size k)

def among {α : Type} (choices : List α) : Draw α := do
  let k ← below choices.length
  match choices[k]? with
  | some a => pure a
  | none => throw (.noSuchChoice choices.length k)

/-- The same draw several times over. -/
def times {α : Type} : Nat → Draw α → Draw (List α)
  | 0, _ => pure []
  | k + 1, draw => do
    let a ← draw
    let rest ← times k draw
    pure (a :: rest)

/-- A draw for each member of a list, the results joined. -/
def forEach {α β : Type} (draw : α → Draw (List β)) : List α → Draw (List β)
  | [] => pure []
  | a :: rest => do
    let here ← draw a
    let later ← forEach draw rest
    pure (here ++ later)

end Draw

/-! ## Parts of a function -/

/-- The opcodes that random instructions have. -/
def bodyOpcodes : List Opcode := [.add, .sub, .mul, .icmp, .copy, .load, .store, .call]

def anyValue (values : Nat) : Draw ValueId := ValueId.ofIndex <$> Draw.position values

def anyBlock (blocks : Nat) : Draw BlockId := BlockId.ofIndex <$> Draw.position blocks

/-- A small constant once in four times, sometimes `undef`, a value otherwise. -/
def anyOperand (values : Nat) : Draw Operand := do
  let kind ← Draw.below 4
  if kind = 0 then
    let word ← Draw.word
    pure (.const (.int (Int64.ofNat (word.toNat % 256))))
  else if kind = 1 then
    if ← Draw.oneIn 3 then pure (.const .undef) else .value <$> anyValue values
  else .value <$> anyValue values

/-- Whether an instruction is there for its effect alone: a store always, a call every other time. -/
def effectOnly (opcode : Opcode) : Draw Bool :=
  match opcode with
  | .store => pure true
  | .call => Draw.oneIn 2
  | _ => pure false

/-- An instruction with one to three operands. -/
def anyInstruction (values : Nat) : Draw Instruction := do
  let opcode ← Draw.among bodyOpcodes
  let more ← Draw.below 3
  let args ← Draw.times (more + 1) (anyOperand values)
  if ← effectOnly opcode then pure ⟨opcode, args, none⟩
  else
    let dest ← anyValue values
    pure ⟨opcode, args, some dest⟩

/-- An ending, or none: such a block has no successors. -/
def anyEnding (values blocks : Nat) : Draw (Option Ending) := do
  let kind ← Draw.below 6
  match kind with
  | 0 =>
    let value ← anyOperand values
    pure (some (.ret [value]))
  | 1 =>
    let target ← anyBlock blocks
    pure (some (.br target))
  | 2 | 3 =>
    let cond ← anyOperand values
    let yes ← anyBlock blocks
    let no ← anyBlock blocks
    pure (some (.condBr cond yes no))
  | 4 =>
    let scrutinee ← anyOperand values
    let default ← anyBlock blocks
    let zero ← anyBlock blocks
    let one ← anyBlock blocks
    let two ← anyBlock blocks
    pure (some (.switch scrutinee default [(0, zero), (1, one), (2, two)]))
  | _ => pure none

/-- The edits that fill one block. -/
def anyBody (values blocks maxInstrs : Nat) (block : BlockId) : Draw (List Edit) := do
  let count ← Draw.upTo maxInstrs
  let instrs ← Draw.times count (anyInstruction values)
  let ending ← anyEnding values blocks
  pure (instrs.map (.push block) ++ (ending.map (.finish block)).toList)

/-- The edits that write a random function with the given numbers of values and blocks. -/
def anyEdits (values blocks maxInstrs : Nat) : Draw (List Edit) := do
  let bodies ← Draw.forEach (fun i => anyBody values blocks maxInstrs (.ofIndex i)) (List.range blocks)
  pure ((List.range values).map (fun i => .declare s!"v{i}") ++
    (List.range blocks).map (fun i => .addBlock s!"bb{i}") ++ bodies)

/-- The function a seed stands for. There is always a value and a block. -/
def random (seed : UInt64) (shape : Shape) : Except Mishap Function := do
  let draw := anyEdits (max shape.values 1) (max shape.blocks 1) shape.maxInstrs
  let edits ← draw.run' (.ofSeed seed)
  ((Draft.ofEdits s!"random_{seed.toNat}" edits).build).mapError .faulty

end LiveVars.Sample
