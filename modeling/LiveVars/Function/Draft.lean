/-
Drafts: a function being written, one edit at a time. An edit addressed to a block
that does not exist changes nothing but the draft's fault, and the first fault a
draft meets is the one it keeps. `Draft.build` turns a draft without fault into a
function, or reports why it is none.
-/
import LiveVars.Function.Basic

namespace LiveVars

/-! ## Endings and edits -/

/-- How a block can end, with the blocks that may follow. -/
inductive Ending where
  | br (target : BlockId)
  | condBr (cond : Operand) (yes no : BlockId)
  | switch (scrutinee : Operand) (default : BlockId) (cases : List (Int64 × BlockId))
  | ret (values : List Operand)
  | unreachable
deriving DecidableEq

namespace Ending

/-- The instruction an ending adds. A switch reads its scrutinee and lists the case constants after it. -/
def instruction : Ending → Instruction
  | br _ => ⟨.br, [], none⟩
  | condBr cond _ _ => ⟨.condBr, [cond], none⟩
  | switch scrutinee _ cases => ⟨.switch, scrutinee :: cases.map fun c => .const (.int c.1), none⟩
  | ret values => ⟨.ret, values, none⟩
  | unreachable => ⟨.unreachable, [], none⟩

/-- Where an ending leads, in order; a switch names its default first. -/
def targets : Ending → List BlockId
  | br target => [target]
  | condBr _ yes no => [yes, no]
  | switch _ default cases => default :: cases.map Prod.snd
  | ret _ => []
  | unreachable => []

end Ending

inductive Edit where
  /-- Declares a value. -/
  | declare (name : String)
  /-- Adds an empty block to the layout. -/
  | addBlock (name : String)
  /-- Chooses the entry; the last choice counts. -/
  | setEntry (block : BlockId)
  /-- Adds an instruction to a block. -/
  | push (block : BlockId) (instr : Instruction)
  /-- Declares a value and adds the instruction that defines it. -/
  | define (block : BlockId) (opcode : Opcode) (args : List Operand) (name : String)
  /-- Ends a block and adds its edges. -/
  | finish (block : BlockId) (ending : Ending)
deriving DecidableEq

namespace Edit

/-- Adds an instruction that defines a value declared before. -/
def assign (block : BlockId) (opcode : Opcode) (args : List Operand) (dest : ValueId) : Edit :=
  push block ⟨opcode, args, some dest⟩

def effect (block : BlockId) (opcode : Opcode) (args : List Operand) : Edit :=
  push block ⟨opcode, args, none⟩

end Edit

inductive Reply where
  | done
  | value (id : ValueId)
  | block (id : BlockId)
deriving DecidableEq

/-! ## Drafts -/

/-- A function being written. -/
structure Draft where
  name : String
  entry : Option BlockId
  blocks : Array Block
  values : Array String
  fault : Option Fault
deriving DecidableEq

namespace Draft

def empty (name : String) : Draft := ⟨name, none, #[], #[], none⟩

/-- Records a fault, unless there is one already. -/
def blame (d : Draft) (fault : Fault) : Draft := { d with fault := d.fault.or (some fault) }

/-- Declares a value under the next free id. When there is none left, the id returned is the largest. -/
def declare (d : Draft) (name : String) : Draft × ValueId :=
  if d.values.size < idLimit then ({ d with values := d.values.push name }, .ofIndex d.values.size)
  else (d.blame .tooManyValues, .ofIndex (idLimit - 1))

/-- Adds a block under the next free id. When there is none left, the id returned is the largest. -/
def addBlock (d : Draft) (name : String) : Draft × BlockId :=
  if d.blocks.size < idLimit then
    ({ d with blocks := d.blocks.push (.named name) }, .ofIndex d.blocks.size)
  else (d.blame .tooManyBlocks, .ofIndex (idLimit - 1))

def write (d : Draft) (block : BlockId) (instr : Instruction) (targets : List BlockId) : Draft :=
  if block.index < d.blocks.size then
    { d with blocks := d.blocks.modify block.index fun b => (b.append instr).connectAll targets }
  else d.blame (.unknownBlock block)

def apply (d : Draft) : Edit → Draft × Reply
  | .declare name =>
    let (d', v) := d.declare name
    (d', .value v)
  | .addBlock name =>
    let (d', b) := d.addBlock name
    (d', .block b)
  | .setEntry block => ({ d with entry := some block }, .done)
  | .push block instr => (d.write block instr [], .done)
  | .define block opcode args name =>
    let (d', v) := d.declare name
    (d'.write block ⟨opcode, args, some v⟩ [], .value v)
  | .finish block ending => (d.write block ending.instruction ending.targets, .done)

def run (d : Draft) (edits : List Edit) : Draft := edits.foldl (fun d e => (d.apply e).1) d

/-- The reply to each edit of a sequence, with the draft as it then stands. -/
def history (d : Draft) : List Edit → List (Reply × Draft)
  | [] => []
  | e :: edits =>
    let (d', reply) := d.apply e
    (reply, d') :: history d' edits

/-- The listing as it stands. The entry is the first block unless one was chosen. -/
def listing (d : Draft) : Listing := ⟨d.name, d.entry.getD (.ofIndex 0), d.blocks, d.values⟩

/-- The function a draft describes, or the fault that stands in the way. -/
def build (d : Draft) : Except Fault Function :=
  match d.fault with
  | some fault => .error fault
  | none => d.listing.check

def ofEdits (name : String) (edits : List Edit) : Draft := (empty name).run edits

theorem run_nil (d : Draft) : d.run [] = d := rfl

theorem run_cons (d : Draft) (e : Edit) (edits : List Edit) :
    d.run (e :: edits) = (d.apply e).1.run edits := rfl

theorem run_append (d : Draft) (es es' : List Edit) : d.run (es ++ es') = (d.run es).run es' :=
  List.foldl_append

end Draft

end LiveVars
