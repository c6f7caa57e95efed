import CodeAtlas.Machine.Bits
import CodeAtlas.Machine.Naming
import CodeAtlas.Machine.Width
import CodeAtlas.Text.Fold

/-!
# General-purpose registers

A register is a width together with a three-bit number, exactly what an encoding says about it: the
number stands in the instruction and the width follows from the operand size in force.  There are
therefore 24 registers, eight at each width.
-/

namespace CodeAtlas

/-- A general-purpose register: the number `number` at width `width`. -/
structure Register where
  width : Width
  number : Fin 8
deriving DecidableEq, Inhabited

namespace Register

/-- The register that the low three bits of a byte name at a width. -/
def ofByte (b : UInt8) (w : Width) : Register :=
  ⟨w, bottomField b⟩

/-- The number of the accumulator. -/
def accumulatorNumber : Fin 8 :=
  ⟨0, by decide⟩

/-- The number of the counter. -/
def counterNumber : Fin 8 :=
  ⟨1, by decide⟩

/-- The eight registers of one width, by number. -/
def ofWidth (w : Width) : List Register :=
  (List.finRange 8).map fun n => ⟨w, n⟩

/-- Every register, the widest first. -/
def all : List Register :=
  ofWidth .dword ++ ofWidth .word ++ ofWidth .byte

/-- The assembler's name of a register. -/
def name : Register → String
  | ⟨.dword, 0⟩ => "eax"
  | ⟨.dword, 1⟩ => "ecx"
  | ⟨.dword, 2⟩ => "edx"
  | ⟨.dword, 3⟩ => "ebx"
  | ⟨.dword, 4⟩ => "esp"
  | ⟨.dword, 5⟩ => "ebp"
  | ⟨.dword, 6⟩ => "esi"
  | ⟨.dword, 7⟩ => "edi"
  | ⟨.word, 0⟩ => "ax"
  | ⟨.word, 1⟩ => "cx"
  | ⟨.word, 2⟩ => "dx"
  | ⟨.word, 3⟩ => "bx"
  | ⟨.word, 4⟩ => "sp"
  | ⟨.word, 5⟩ => "bp"
  | ⟨.word, 6⟩ => "si"
  | ⟨.word, 7⟩ => "di"
  | ⟨.byte, 0⟩ => "al"
  | ⟨.byte, 1⟩ => "cl"
  | ⟨.byte, 2⟩ => "dl"
  | ⟨.byte, 3⟩ => "bl"
  | ⟨.byte, 4⟩ => "ah"
  | ⟨.byte, 5⟩ => "ch"
  | ⟨.byte, 6⟩ => "dh"
  | ⟨.byte, 7⟩ => "bh"

/-- The register of a given name, whatever the case of its letters. -/
def ofName (s : String) : Except NameFault Register :=
  findNamed all fun r => Text.sameFolded r.name.toList s.toList

/-- The 32-bit register that a register is part of.  The byte registers with numbers four to seven are the
second bytes of the first four registers, so `ah` is part of `eax`. -/
def full (r : Register) : Register :=
  match r.width with
  | .byte => ⟨.dword, ⟨r.number.val % 4, Nat.lt_of_lt_of_le (Nat.mod_lt _ (by decide)) (by decide)⟩⟩
  | _ => ⟨.dword, r.number⟩

/-- Whether the register is the stack pointer or its low half. -/
def isStackPointer (r : Register) : Bool :=
  r.full.number.val == 4

end Register

end CodeAtlas
