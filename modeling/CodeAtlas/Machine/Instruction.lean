import CodeAtlas.Machine.Condition
import CodeAtlas.Machine.Mnemonic
import CodeAtlas.Machine.Operand
import CodeAtlas.Machine.Prefixes

/-!
# Instructions

`InstructionOf α` is an instruction whose operands are of type `α`.  With `α := Operand` it is an
instruction of the machine (`Instruction`); the opcode map uses the same shape with descriptions of
where the operands are to be found.  `Decoded` adds to an instruction the place and length of its encoding.
-/

namespace CodeAtlas

/-- An instruction with operands of type `α`.  Two operands stand in the order destination, source; the
operations on a bare register or address carry it as such. -/
inductive InstructionOf (α : Type) where
  | plain (op : PlainOp)
  | unary (op : UnaryOp) (x : α)
  | binary (op : BinaryOp) (x y : α)
  | imul (dst src : α) (factor : Option α)
  | doubleShift (op : DoubleShift) (dst src count : α)
  | cmovcc (c : Condition) (dst src : α)
  | setcc (c : Condition) (dst : α)
  | jcc (c : Condition) (target : α)
  | bswap (r : Register)
  | lea (dst : Register) (src : Address)
  | address (op : AddressOp) (a : Address)
deriving DecidableEq

/-- An instruction of the machine. -/
abbrev Instruction : Type := InstructionOf Operand

namespace InstructionOf

variable {α β : Type}

/-- The operands in order; bare registers and addresses are not among them. -/
def operands : InstructionOf α → List α
  | plain _ => []
  | unary _ x => [x]
  | binary _ x y => [x, y]
  | imul dst src factor => [dst, src] ++ factor.toList
  | doubleShift _ dst src count => [dst, src, count]
  | cmovcc _ dst src => [dst, src]
  | setcc _ dst => [dst]
  | jcc _ target => [target]
  | bswap _ => []
  | lea _ _ => []
  | address _ _ => []

/-- The instruction without its operands. -/
def mnemonic : InstructionOf α → Mnemonic
  | plain op => .plain op
  | unary op _ => .unary op
  | binary op _ _ => .binary op
  | imul _ _ _ => .imul
  | doubleShift op _ _ _ => .doubleShift op
  | cmovcc _ _ _ => .cmovcc
  | setcc _ _ => .setcc
  | jcc _ _ => .jcc
  | bswap _ => .bswap
  | lea _ _ => .lea
  | address op _ => .address op

/-- The condition that the instruction depends on. -/
def condition? : InstructionOf α → Option Condition
  | cmovcc c _ _ => some c
  | setcc c _ => some c
  | jcc c _ => some c
  | _ => none

/-- The register that the instruction carries outside its operands. -/
def register? : InstructionOf α → Option Register
  | bswap r => some r
  | lea dst _ => some dst
  | _ => none

/-- The address that the instruction carries outside its operands. -/
def address? : InstructionOf α → Option Address
  | lea _ src => some src
  | address _ a => some a
  | _ => none

/-- Whether the instruction can send control elsewhere. -/
def isControlFlow : InstructionOf α → Bool
  | plain .ret | plain .int3 => true
  | unary .jmp _ | unary .call _ | unary .retn _ | unary .int _ => true
  | unary .loop _ | unary .loope _ | unary .loopne _ | unary .jecxz _ => true
  | jcc _ _ => true
  | _ => false

/-- Whether control never goes on to the next instruction. -/
def isTerminator : InstructionOf α → Bool
  | plain .ret | plain .hlt | plain .ud2 => true
  | unary .jmp _ | unary .retn _ => true
  | _ => false

/-- The operand that says where a jump, call or loop goes. -/
def target? : InstructionOf α → Option α
  | unary .jmp x | unary .call x => some x
  | unary .loop x | unary .loope x | unary .loopne x | unary .jecxz x => some x
  | jcc _ x => some x
  | _ => none

end InstructionOf

namespace Instruction

/-- Whether an operand visits memory. -/
def accessesMemory (i : Instruction) : Bool :=
  i.operands.any Operand.isMemory

/-- The displacement of a direct jump, call or loop. -/
def relativeTarget? (i : Instruction) : Option Int :=
  i.target?.bind Operand.codeOffset?

end Instruction

/-- An instruction with the place and the length of its encoding, prefixes included. -/
structure Decoded where
  offset : UInt64
  length : Nat
  prefixes : Prefixes
  instruction : Instruction
deriving DecidableEq

namespace Decoded

/-- The offset right after the encoding. -/
def endOffset (d : Decoded) : UInt64 :=
  d.offset + UInt64.ofNat d.length

/-- Where a direct jump, call or loop goes: its displacement counts from the end of the encoding, in an
address space of 32 bits. -/
def branchTarget? (d : Decoded) : Option UInt64 :=
  d.instruction.relativeTarget?.map fun displacement =>
    UInt64.ofNat ((Int.ofNat d.endOffset.toNat + displacement) % Int.ofNat Width.dword.contents).toNat

end Decoded

end CodeAtlas
