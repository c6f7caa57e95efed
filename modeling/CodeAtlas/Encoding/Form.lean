import CodeAtlas.Machine.Instruction
import CodeAtlas.Machine.ModRM

/-!
# Entries of the opcode map

What an opcode means is data.  A `Slot` says where an operand is found that the opcode fixes or that
follows it, a `Field` one that a ModRM byte takes part in.  An `Entry` is the instruction with such
descriptions in the place of its operands, or a choice among several by the ModRM byte.

Sizes are given as the opcode gives them, either fixed or following the operand size in force, so an entry
is the same under all prefixes.
-/

namespace CodeAtlas

/-- The size of an operand as an opcode states it. -/
inductive Size where
  /-- A width that no prefix changes. -/
  | fixed (w : Width)
  /-- The operand size: dword, or word under the operand-size override. -/
  | operand
deriving DecidableEq

namespace Size

/-- The size of the paired opcodes: byte for the even one, the operand size for the odd one. -/
def ofOpcode (b : UInt8) : Size :=
  if b % 2 = 0 then fixed .byte else operand

/-- The width under the recorded prefixes. -/
def width (p : Prefixes) : Size → Width
  | fixed w => w
  | operand => if p.isFlagged .operandSize then .word else .dword

end Size

/-- Where an operand is found that no ModRM byte takes part in. -/
inductive Slot where
  /-- The register of a number that the opcode fixes. -/
  | register (n : Fin 8) (s : Size)
  /-- The constant one, which takes no bytes. -/
  | one
  /-- An immediate constant. -/
  | immediate (s : Size) (sign : Signedness)
  /-- A code offset relative to the end of the instruction. -/
  | branch (s : Size)
  /-- A place in memory at a 32-bit offset that stands in the instruction. -/
  | absolute (s : Size)
deriving DecidableEq

/-- The accumulator at a size. -/
def Slot.accumulator (s : Size) : Slot :=
  register Register.accumulatorNumber s

/-- The low byte of the counter, which holds variable shift counts. -/
def Slot.cl : Slot :=
  register Register.counterNumber (.fixed .byte)

/-- Where an operand is found in an encoding with a ModRM byte. -/
inductive Field where
  /-- The register that the `reg` field names. -/
  | reg (s : Size)
  /-- The register or place in memory that `mode` and `rm` describe. -/
  | rm (s : Size)
  /-- An operand that the ModRM byte takes no part in. -/
  | slot (s : Slot)
deriving DecidableEq

/-- What an opcode means once its ModRM byte is known. -/
inductive Selection where
  /-- No instruction. -/
  | undefined
  /-- The instruction whose operands stand in the given fields. -/
  | form (i : InstructionOf Field)
  /-- The load of an address into the register that `reg` names. -/
  | lea
  /-- An operation on the address that the ModRM byte describes. -/
  | address (op : AddressOp)
deriving DecidableEq

/-- What an opcode means. -/
inductive Entry where
  /-- No instruction. -/
  | undefined
  /-- The instruction whose operands stand in the given slots. -/
  | form (i : InstructionOf Slot)
  /-- The first operation at word operand size, the second at dword operand size. -/
  | sized (word dword : PlainOp)
  /-- No operation, or a pause under the repeat prefix. -/
  | idle
  /-- A ModRM byte follows and selects the meaning by its `reg` field and by whether it names a register. -/
  | modRM (choose : (reg : Fin 8) → (direct : Bool) → Selection)

namespace Entry

/-- An instruction without operands. -/
def plain (op : PlainOp) : Entry :=
  form (.plain op)

/-- A ModRM byte follows, and the instruction is the same for all of them. -/
def fields (i : InstructionOf Field) : Entry :=
  modRM fun _ _ => .form i

/-- A ModRM byte follows, and its `reg` field selects the instruction. -/
def group (choose : Fin 8 → Selection) : Entry :=
  modRM fun reg _ => choose reg

end Entry

end CodeAtlas
