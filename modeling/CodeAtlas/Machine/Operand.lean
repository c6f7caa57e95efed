import CodeAtlas.Machine.Register

/-!
# Operands

An operand of an instruction is a register, a constant, a place in memory of a known width, a bare address
that is computed and not visited, or a code offset relative to the end of the instruction.
-/

namespace CodeAtlas

/-- A constant of an instruction: its value, the width of its encoding and how the bytes were read. -/
structure Constant where
  value : Int
  width : Width
  signedness : Signedness
deriving DecidableEq

namespace Constant

/-- The encoded bits: the value modulo two to the number of bits. -/
def bits (c : Constant) : Nat :=
  (c.value % Int.ofNat c.width.contents).toNat

end Constant

/-- The factor that an index register is multiplied by. -/
inductive Scale where
  | one
  | two
  | four
  | eight
deriving DecidableEq, Inhabited

namespace Scale

/-- The factor as a number. -/
def factor : Scale → Nat
  | one => 1
  | two => 2
  | four => 4
  | eight => 8

/-- The scale of a two-bit exponent. -/
def ofExponent : Fin 4 → Scale
  | 0 => one
  | 1 => two
  | 2 => four
  | 3 => eight

/-- The scale of a given factor. -/
def ofFactor? (n : Nat) : Option Scale :=
  [one, two, four, eight].find? fun s => s.factor == n

end Scale

/-- An index register with its scale. -/
structure ScaledIndex where
  register : Register
  scale : Scale
deriving DecidableEq

/-- The address `[base + index * scale + displacement]`; every part may be missing. -/
structure Address where
  base : Option Register
  index : Option ScaledIndex
  displacement : Option Int
deriving DecidableEq

/-- The address that is nothing but a displacement. -/
def Address.absolute (displacement : Int) : Address :=
  ⟨none, none, some displacement⟩

/-- An operand of an instruction. -/
inductive Operand where
  | register (r : Register)
  | constant (c : Constant)
  | memory (a : Address) (w : Width)
  | address (a : Address)
  | codeOffset (displacement : Int)
deriving DecidableEq

namespace Operand

/-- The width of the data, where the operand has one. -/
def width? : Operand → Option Width
  | register r => some r.width
  | constant c => some c.width
  | memory _ w => some w
  | address _ => none
  | codeOffset _ => none

/-- Whether the operand is a register. -/
def isRegister : Operand → Bool
  | register _ => true
  | _ => false

/-- Whether the operand is a constant. -/
def isConstant : Operand → Bool
  | constant _ => true
  | _ => false

/-- Whether the operand visits memory. -/
def isMemory : Operand → Bool
  | memory _ _ => true
  | _ => false

/-- The register of a register operand. -/
def register? : Operand → Option Register
  | register r => some r
  | _ => none

/-- The constant of a constant operand. -/
def constant? : Operand → Option Constant
  | constant c => some c
  | _ => none

/-- The address of an operand that visits memory or is a bare address. -/
def address? : Operand → Option Address
  | memory a _ => some a
  | address a => some a
  | _ => none

/-- The displacement of a code offset. -/
def codeOffset? : Operand → Option Int
  | codeOffset d => some d
  | _ => none

end Operand

end CodeAtlas
