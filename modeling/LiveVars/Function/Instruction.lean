/-
Instructions: an opcode, the operands it reads and the value it may define. Five
opcodes end a block (terminators); three of those choose where to go next
(branches).
-/
import LiveVars.Id

namespace LiveVars

inductive Constant where
  | int (value : Int64)
  | bool (value : Bool)
  | undef
deriving DecidableEq

/-- The text of a literal: decimal digits with a sign if negative, a truth value, or `undef`. -/
def Constant.text : Constant → String
  | int value => toString value.toInt
  | bool true => "true"
  | bool false => "false"
  | undef => "undef"

/-- What an instruction reads: a declared value or a literal. -/
inductive Operand where
  | value (id : ValueId)
  | const (c : Constant)
deriving DecidableEq

namespace Operand

def value? : Operand → Option ValueId
  | value id => some id
  | const _ => none

def const? : Operand → Option Constant
  | value _ => none
  | const c => some c

def isConst (o : Operand) : Bool := o.const?.isSome

end Operand

inductive Opcode where
  | add | sub | mul | div | rem
  | and | or | xor | shl | shr
  | icmp | select | copy
  | alloca | load | store
  | call | phi
  | br | condBr | switch | ret | unreachable
deriving DecidableEq

namespace Opcode

def name : Opcode → String
  | add => "add"
  | sub => "sub"
  | mul => "mul"
  | div => "div"
  | rem => "rem"
  | and => "and"
  | or => "or"
  | xor => "xor"
  | shl => "shl"
  | shr => "shr"
  | icmp => "icmp"
  | select => "select"
  | copy => "copy"
  | alloca => "alloca"
  | load => "load"
  | store => "store"
  | call => "call"
  | phi => "phi"
  | br => "br"
  | condBr => "cond_br"
  | switch => "switch"
  | ret => "ret"
  | unreachable => "unreachable"

/-- Whether an opcode moves on to a block named by the instruction. -/
def isBranch : Opcode → Bool
  | br | condBr | switch => true
  | _ => false

/-- Whether an opcode ends its block. -/
def isTerminator : Opcode → Bool
  | br | condBr | switch | ret | unreachable => true
  | _ => false

theorem isTerminator_of_isBranch {o : Opcode} (h : o.isBranch = true) : o.isTerminator = true := by
  cases o <;> simp_all [isBranch, isTerminator]

end Opcode

structure Instruction where
  opcode : Opcode
  args : List Operand
  result : Option ValueId
deriving DecidableEq

namespace Instruction

def isTerminator (i : Instruction) : Bool := i.opcode.isTerminator

/-- The values an instruction reads, in operand order. -/
def reads (i : Instruction) : List ValueId := i.args.filterMap Operand.value?

/-- The values an instruction names: those it reads, then the one it defines. -/
def mentions (i : Instruction) : List ValueId := i.reads ++ i.result.toList

theorem mem_reads {i : Instruction} {v : ValueId} : v ∈ i.reads ↔ Operand.value v ∈ i.args := by
  simp only [reads, List.mem_filterMap]
  constructor
  · rintro ⟨o, ho, hv⟩
    cases o with
    | value w => simp only [Operand.value?, Option.some.injEq] at hv; exact hv ▸ ho
    | const c => simp [Operand.value?] at hv
  · exact fun h => ⟨_, h, rfl⟩

end Instruction

end LiveVars
